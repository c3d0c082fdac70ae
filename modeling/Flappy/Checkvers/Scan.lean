/-
What the scanner of `Template.lean` finds, line by line.

A line has one of three effects: it is passed over, it ends the program, or it
stores a key.  Only a line without an `=` needs more than its own text for
that, and then the key it stores is no text of one line.

* `assignment_line` — an assignment on one line;
* `rcvStep_line` — the step at a line is its effect.
-/
import Mathlib.Data.List.DropRight
import Flappy.Checkvers.Template
import Flappy.Lib.Lines

open CStr

namespace Flappy.Checkvers

/-! ### The value of a line -/

/-- The text without its closing quote. -/
def dropClose (s : Str) : Str := if s.getLast? = some '"' then s.dropLast else s

/-- The text without its comment, which begins at the last `#` if there is a
space before the first. -/
def dropComment (s : Str) : Str :=
  match strchr '#' s, strrchr '#' s with
  | some (before, _), some (text, _) =>
    if before.getLast? = some ' ' then text.rdropWhile isspace else s
  | _, _ => s

/-- The value, from what is behind the `=` on the line. -/
def value (val : Str) : Str := dropComment (dropClose (openQuote val).2)

/-- The value with its references substituted. -/
def substituted (env : Dict Str Str) (sh : Str → Option Str) (val : Str) : Option Str :=
  if '$' ∈ value val then shSubstitute env sh ((openQuote val).2 ++ ['\n']) (value val).length
  else some (value val)

theorem dropClose_initial (s : Str) : dropClose s <+: s := by
  rw [dropClose]
  split
  · exact List.dropLast_prefix s
  · exact List.prefix_rfl

theorem dropComment_initial (s : Str) : dropComment s <+: s := by
  rw [dropComment]
  split
  · rename_i before _ text _ _ hlast
    obtain ⟨rfl, -⟩ := strrchr_eq_some.mp hlast
    split
    · have hcut : text.rdropWhile isspace <+: text := List.rdropWhile_prefix isspace text
      exact hcut.trans (List.prefix_append _ _)
    · exact List.prefix_rfl
  · exact List.prefix_rfl

theorem value_initial (val : Str) : value val <+: (openQuote val).2 :=
  (dropComment_initial _).trans (dropClose_initial _)

/-- Backwards over the closing quote. -/
theorem closeQuote_reverse {u base : Str} {b : Char} (h : u = [] → b ≠ '"') :
    closeQuote (u.reverse ++ b :: base) = some ((dropClose u).reverse ++ b :: base) := by
  rcases List.eq_nil_or_concat' u with rfl | ⟨u, x, rfl⟩
  · show some (if b = '"' then base else b :: base) = some (b :: base)
    rw [if_neg (h rfl)]
  · rw [List.reverse_append, List.reverse_singleton, List.singleton_append, List.cons_append,
      closeQuote, dropClose, List.getLast?_concat]
    by_cases hx : x = '"'
    · subst hx
      rw [if_pos rfl, if_pos rfl, List.dropLast_concat]
    · rw [if_neg hx, if_neg (by simpa using hx), List.reverse_append]
      rfl

/-- A closing quote is no part of a comment. -/
theorem strchr_dropClose {u a b : Str} (h : strchr '#' u = some (a, b)) :
    ∃ b', strchr '#' (dropClose u) = some (a, b') := by
  obtain ⟨rfl, ha⟩ := strchr_eq_some.mp h
  rw [dropClose]
  split
  · rename_i hlast
    have hb : b ≠ [] := by
      rintro rfl
      rw [List.getLast?_concat] at hlast
      exact absurd hlast (by decide)
    refine ⟨b.dropLast, strchr_eq_some.mpr ⟨?_, ha⟩⟩
    rw [List.dropLast_append_of_ne_nil (by simp), List.dropLast_cons_of_ne_nil hb]
  · exact ⟨b, h⟩

/-- What is not in the first part is not found before its end. -/
theorem length_le_of_append {a b t rest : Str} {c : Char} (hc : c ∉ a)
    (h : a ++ t = b ++ c :: rest) : a.length ≤ b.length := by
  by_contra hlt
  have hb : b ++ [c] <+: a ++ t := ⟨rest, by rw [h]; simp⟩
  have ha : a <+: a ++ t := ⟨t, rfl⟩
  have hpre : b ++ [c] <+: a := by
    refine List.prefix_of_prefix_length_le hb ha ?_
    rw [List.length_append, List.length_singleton]
    omega
  exact hc (hpre.subset (by simp))

theorem dropWhile_append_stop {p : Char → Bool} {b : Char} (hb : p b = false) (s base : Str) :
    (s ++ b :: base).dropWhile p = s.dropWhile p ++ b :: base := by
  rw [List.dropWhile_append]
  split
  · rename_i hs
    rw [List.isEmpty_iff.mp hs, List.dropWhile_cons_of_neg (by simp [hb])]
    rfl
  · rfl

/-- Backwards over the comment. -/
theorem cutComment_reverse {u next base : Str} {b : Char} (hb : isspace b = false) :
    cutComment (base.length + 1) (u ++ '\n' :: next) (base.length + 1 + u.length)
        ((dropClose u).reverse ++ b :: base) =
      some ((dropComment (dropClose u)).reverse ++ b :: base) := by
  rw [cutComment]
  cases hhash : strchr '#' u with
  | none =>
    have hno : strchr '#' (dropClose u) = none :=
      strchr_eq_none.mpr fun h => strchr_eq_none.mp hhash ((dropClose_initial u).subset h)
    have hsame : dropComment (dropClose u) = dropClose u := by rw [dropComment, hno]
    rw [hsame]
    split
    · rfl
    · rename_i before rest hlater
      obtain ⟨heq, hbefore⟩ := strchr_eq_some.mp hlater
      -- the `#` is behind the end of the line
      have hlong : u.length ≤ before.length := length_le_of_append (strchr_eq_none.mp hhash) heq
      rw [if_neg (by omega)]
  | some r =>
    obtain ⟨a, rest⟩ := r
    obtain ⟨b', hclose⟩ := strchr_dropClose hhash
    obtain ⟨rfl, ha⟩ := strchr_eq_some.mp hhash
    rw [strchr_append hhash]
    simp only
    rw [dropComment, hclose]
    have hlt : base.length + 1 + a.length < base.length + 1 + (a ++ '#' :: rest).length := by
      rw [List.length_append, List.length_cons]
      omega
    cases hlast : strrchr '#' (dropClose (a ++ '#' :: rest)) with
    | none =>
      have hmem := (strchr_eq_some.mp hclose).1
      exact absurd (by rw [hmem]; simp) (strrchr_eq_none.mp hlast)
    | some q =>
      obtain ⟨text, tail⟩ := q
      obtain ⟨heq, htail⟩ := strrchr_eq_some.mp hlast
      simp only
      by_cases hspace : a.getLast? = some ' '
      · have hback : (text ++ '#' :: tail).reverse ++ b :: base =
            tail.reverse ++ '#' :: (text.reverse ++ b :: base) := by simp
        have hhash : (tail.reverse ++ '#' :: (text.reverse ++ b :: base)).dropWhile (· ≠ '#') =
            '#' :: (text.reverse ++ b :: base) := by
          rw [List.dropWhile_append_of_pos]
          · rw [List.dropWhile_cons_of_neg (by simp)]
          · intro x hx
            have hne : x ≠ '#' := by
              rintro rfl
              exact htail (List.mem_reverse.mp hx)
            simpa using hne
        rw [if_pos ⟨hlt, hspace⟩, if_pos hspace, heq, hback, hhash]
        simp only
        rw [dropWhile_append_stop hb, List.rdropWhile, List.reverse_reverse]
        split
        · rename_i hnil
          exact absurd hnil (by simp)
        · rename_i hcons
          rw [hcons]
      · rw [if_neg (fun h => hspace h.2), if_neg hspace]

/-! ### Assignments on one line -/

theorem nextline_line {line : Str} (h : '\n' ∉ line) (rcv : Rcv) (vars : Nat) (next : Str) :
    nextline rcv vars (line ++ '\n' :: next) = .next rcv vars next := by
  rw [nextline, strchr_eq_some.mpr ⟨rfl, h⟩]

theorem openQuote_cases (val : Str) :
    (∃ u, val = '"' :: u ∧ openQuote val = (1, u)) ∨
      val.head? ≠ some '"' ∧ openQuote val = (0, val) := by
  unfold openQuote
  split
  · exact Or.inl ⟨_, rfl, rfl⟩
  · rename_i hne
    refine Or.inr ⟨?_, rfl⟩
    rcases val with _ | ⟨c, val⟩
    · simp
    · rintro hc
      obtain rfl : c = '"' := by simpa using hc
      exact hne val rfl

/-- The end of the program, or a stored value. -/
def putSubstituted (rcv : Rcv) (vars : Nat) (ptr : Str) (klen : Nat) : Option Str → Step
  | none => .stop (.exited rcv)
  | some val => store rcv vars ptr klen val

theorem peek_drop {nul : Char} {u : Str} {len : Nat} (h : len ≤ u.length) (next : Str) :
    peek nul ((u ++ '\n' :: next).drop len) = peek nul ((u ++ ['\n']).drop len) := by
  rw [List.drop_append_of_le_length h, List.drop_append_of_le_length h]
  rcases u.drop len with _ | ⟨c, s⟩
  · rfl
  · rfl

/-- No `$` is found in a value that ends before it starts. -/
theorem dollar_before_value {s : Str} {v e : Nat} (h : e ≤ v) :
    ((strchr '$' s).any fun (d, _) => v + d.length < e) = false := by
  rcases strchr '$' s with _ | ⟨d, r⟩
  · rfl
  · rw [Option.any_some, decide_eq_false_iff_not]
    omega

theorem dollar_in_value {u w : Str} (hw : w <+: u) (next : Str) (v : Nat) :
    ((strchr '$' (u ++ '\n' :: next)).any fun (d, _) => v + d.length < w.length + v) =
      decide ('$' ∈ w) := by
  obtain ⟨t, rfl⟩ := hw
  by_cases hmem : '$' ∈ w
  · obtain ⟨a, b, hab⟩ := exists_strchr hmem
    have hlen := congrArg List.length (strchr_eq_some.mp hab).1
    rw [List.length_append, List.length_cons] at hlen
    rw [strchr_append (strchr_append hab t), Option.any_some, decide_eq_decide]
    exact iff_of_true (by omega) hmem
  · rcases hs : strchr '$' (w ++ t ++ '\n' :: next) with _ | ⟨a, b⟩
    · simp [hmem]
    · have heq := (strchr_eq_some.mp hs).1
      rw [List.append_assoc] at heq
      have hle := length_le_of_append hmem heq
      rw [Option.any_some, decide_eq_decide]
      exact iff_of_false (by omega) hmem

theorem putValue_line {sh : Str → Option Str} {rcv : Rcv} {vars klen v : Nat} {ptr u w : Str}
    (hw : w <+: u) (hne : w ≠ []) (next : Str) :
    putValue sh rcv vars ptr klen v (u ++ '\n' :: next) (w.length + v) =
      putSubstituted rcv vars ptr klen
        (if '$' ∈ w then shSubstitute rcv.env sh (u ++ ['\n']) w.length else some w) := by
  have hpos : 0 < w.length := List.length_pos_of_ne_nil hne
  have htake : ∀ t, (u ++ t).take w.length = w := by
    intro t
    rw [List.take_append_of_le_length hw.length_le]
    exact (List.prefix_iff_eq_take.mp hw).symm
  have hsub : shSubstitute rcv.env sh (u ++ '\n' :: next) w.length =
      shSubstitute rcv.env sh (u ++ ['\n']) w.length := by
    rw [shSubstitute, shSubstitute, peek_drop hw.length_le, htake, htake]
  rw [putValue, if_neg (by omega), dollar_in_value hw, Nat.add_sub_cancel, hsub]
  by_cases hmem : '$' ∈ w
  · rw [if_pos (by simpa using hmem), if_pos hmem]
    rfl
  · rw [if_neg (by simpa using hmem), if_neg hmem, if_pos (Nat.le_add_left v _), htake]
    rfl

theorem putValue_value (sh : Str → Option Str) (rcv : Rcv) (vars : Nat) (ptr : Str) (klen v : Nat)
    (val next : Str) :
    putValue sh rcv vars ptr klen v ((openQuote val).2 ++ '\n' :: next) ((value val).length + v) =
      if value val = [] then nextline rcv vars ptr
      else putSubstituted rcv vars ptr klen (substituted rcv.env sh val) := by
  by_cases hnil : value val = []
  · rw [if_pos hnil, hnil, putValue, if_pos (by simp)]
  · rw [if_neg hnil, putValue_line (value_initial val) hnil]
    rfl

/-- Where the value of a line ends: `b` and `base` is the text before it, last
character first. -/
theorem cut_line {u base : Str} {b : Char} (hb : isspace b = false) (hclose : u = [] → b ≠ '"')
    (next : Str) :
    (closeQuote (u.reverse ++ b :: base)).bind
        (cutComment (base.length + 1) (u ++ '\n' :: next) (base.length + 1 + u.length)) =
      some ((dropComment (dropClose u)).reverse ++ b :: base) := by
  rw [closeQuote_reverse hclose, Option.bind_some, cutComment_reverse hb]

/-- An assignment whose value `u` starts behind `q` quotes, where `b` and `base`
is the text before it, last character first. -/
theorem assignment_cut {sh : Str → Option Str} {rcv : Rcv} {vars q : Nat} {key val u base : Str}
    {b : Char} {next : Str} (hline : '\n' ∉ key ++ '=' :: val) (hopen : openQuote val = (q, u))
    (hopen' : openQuote (val ++ '\n' :: next) = (q, u ++ '\n' :: next))
    (hrev : (key ++ '=' :: val).reverse = u.reverse ++ b :: base) (hq : base.length = key.length + q)
    (hb : isspace b = false) (hclose : u = [] → b ≠ '"')
    (honly : ¬ ((val ++ '\n' :: next).head? = some '"' ∧
      (key ++ '=' :: val).length = key.length + 1 + 1)) :
    assignment sh rcv vars (key ++ '=' :: val ++ '\n' :: next) key (val ++ '\n' :: next)
        (key ++ '=' :: val) =
      if value val = [] then .next rcv vars next
      else
        putSubstituted rcv vars (key ++ '=' :: val ++ '\n' :: next) key.length
          (substituted rcv.env sh val) := by
  have hput := putValue_value sh rcv vars (key ++ '=' :: val ++ '\n' :: next) key.length
    (base.length + 1) val next
  have hcut := @cut_line u base b hb hclose next
  have hlen : (key ++ '=' :: val).length = base.length + 1 + u.length := by
    rw [← List.length_reverse, hrev, List.length_append, List.length_cons, List.length_reverse]
    omega
  have hv : key.length + 1 + q = base.length + 1 := by omega
  have hvalue : dropComment (dropClose u) = value val := by rw [value, hopen]
  rw [nextline_line hline, hopen] at hput
  rw [assignment, if_neg honly, hopen', hrev, hlen]
  simp only
  rw [hv, hcut, hvalue, ← hput]
  simp only [List.length_append, List.length_reverse, List.length_cons]

theorem assignment_line {sh : Str → Option Str} {rcv : Rcv} {vars : Nat} {key val : Str}
    (hkey : '\n' ∉ key) (hval : '\n' ∉ val) (next : Str) :
    assignment sh rcv vars (key ++ '=' :: val ++ '\n' :: next) key (val ++ '\n' :: next)
        (key ++ '=' :: val) =
      if value val = [] then .next rcv vars next
      else
        putSubstituted rcv vars (key ++ '=' :: val ++ '\n' :: next) key.length
          (substituted rcv.env sh val) := by
  have hline : '\n' ∉ key ++ '=' :: val := by simp [hkey, hval]
  rcases openQuote_cases val with ⟨u, rfl, hopen⟩ | ⟨hhead, hopen⟩
  · by_cases hu : u = []
    · -- the line ends behind its only quote
      subst hu
      have hvalue : value ['"'] = [] := rfl
      obtain ⟨a, b, hquote⟩ : ∃ a b, strchr '"' (key ++ ['=', '"']) = some (a, b) :=
        exists_strchr (by simp)
      have hb : '\n' ∉ b := fun h => hline (by rw [(strchr_eq_some.mp hquote).1]; simp [h])
      rw [assignment, if_pos ⟨rfl, by simp⟩, if_pos hvalue, strchr_append hquote]
      exact nextline_line hb rcv vars next
    · have hpos : 0 < u.length := List.length_pos_of_ne_nil hu
      refine @assignment_cut sh rcv vars 1 key _ u ('=' :: key.reverse) '"' next hline hopen rfl
        (by simp) (by simp) (by decide) (fun h => absurd h hu) ?_
      rintro ⟨-, hp⟩
      simp only [List.length_append, List.length_cons] at hp
      omega
  · have hno : (val ++ '\n' :: next).head? ≠ some '"' := by
      rcases val with _ | ⟨c, val⟩
      · simp
      · exact hhead
    have hopen' : openQuote (val ++ '\n' :: next) = (0, val ++ '\n' :: next) := by
      rcases openQuote_cases (val ++ '\n' :: next) with ⟨u, hu, -⟩ | ⟨-, h⟩
      · exact absurd (by rw [hu]; rfl) hno
      · exact h
    exact @assignment_cut sh rcv vars 0 key val val key.reverse '=' next hline hopen hopen'
      (by simp) (by simp) (by decide) (fun _ => by decide) fun h => hno h.1

/-! ### The effect of a line -/

/-- Lines that are passed over at their first characters. -/
def Skipped (line : Str) : Prop :=
  line = [] ∨ line.head? = some '#' ∨ line.head? = some '.' ∨ "unset".toList <+: line

instance (line : Str) : Decidable (Skipped line) :=
  inferInstanceAs (Decidable (_ ∨ _ ∨ _ ∨ _))

/-- What a line comes to. -/
inductive Effect where
  | nothing
  /-- The program ends. -/
  | ends
  | stores (key : Str)
  deriving DecidableEq

/-- A key that is too long for a dictionary ends the program. -/
def keyEffect (key : Str) : Effect := if maxKey < key.length then .ends else .stores key

/-- The effect of a line with the text behind it. -/
def effect (sh : Str → Option Str) (l : Str × Str) : Effect :=
  if Skipped l.1 then .nothing
  else
    match strchr '=' l.1 with
    | some (key, val) =>
      if value val = [] then .nothing
      else if substituted Dict.empty sh val = none then .ends
      else keyEffect key
    | none =>
      match strchr '=' l.2 with
      | none => .nothing
      | some (key, _) => keyEffect (l.1 ++ '\n' :: key)

/-- The variable that a key is taken for: the first that it begins. -/
def named (key : Str) : Option Var :=
  if key <+: Var.pkgname.name then some .pkgname
  else if key <+: Var.version.name then some .version
  else if key <+: Var.revision.name then some .revision
  else none

/-- A step that stores a key. -/
def stored (rcv : Rcv) (vars : Nat) (key val next : Str) : Step :=
  let vars := if (named key).isSome then vars + 1 else vars
  if 2 < vars then .stop (.returned (rcv.set key val (named key)))
  else .next (rcv.set key val (named key)) vars next

theorem gotVar_take {ptr : Str} {klen : Nat} (h : klen ≤ ptr.length) :
    gotVar ptr klen = named (ptr.take klen) := by
  have hcmp : ∀ x : Var, strncmp klen x.name ptr = .eq ↔ ptr.take klen <+: x.name := by
    intro x
    rw [strncmp_eq, List.prefix_iff_eq_take, List.length_take, Nat.min_eq_left h]
    exact eq_comm
  exact if_congr (hcmp .pkgname) rfl
    (if_congr (hcmp .version) rfl (if_congr (hcmp .revision) rfl rfl))

/-- Storing a key at a line, whether or not its `=` is on the line. -/
theorem store_line {line key next rest : Str} (hline : '\n' ∉ line)
    (hkey : line ++ '\n' :: next = key ++ rest) (rcv : Rcv) (vars : Nat) (val : Str) :
    match keyEffect key with
    | .nothing => store rcv vars (line ++ '\n' :: next) key.length val = .next rcv vars next
    | .ends => store rcv vars (line ++ '\n' :: next) key.length val = .stop (.exited rcv)
    | .stores key' =>
      ∃ val', store rcv vars (line ++ '\n' :: next) key.length val =
        stored rcv vars key' val' next := by
  have htake : (line ++ '\n' :: next).take key.length = key := by rw [hkey, List.take_left]
  have hle : key.length ≤ (line ++ '\n' :: next).length := by
    rw [hkey, List.length_append]
    omega
  rw [keyEffect]
  by_cases hlong : maxKey < key.length
  · rw [if_pos hlong]
    exact if_pos hlong
  · rw [if_neg hlong]
    refine ⟨val, ?_⟩
    rw [store, if_neg hlong, gotVar_take hle, htake]
    simp only [nextline_line hline]
    rfl

/-- With the `=` on a later line, the value is all that follows. -/
theorem assignment_spanning {sh : Str → Option Str} {rcv : Rcv} {vars : Nat}
    {ptr key vs line : Str} (hline : line ≠ []) (hlen : line.length < key.length) :
    ∃ val, assignment sh rcv vars ptr key vs line = store rcv vars ptr key.length val := by
  have hpos : 0 < line.length := List.length_pos_of_ne_nil hline
  obtain ⟨back, hback, hle⟩ : ∃ back, closeQuote line.reverse = some back ∧
      back.length ≤ line.length := by
    rcases hrev : line.reverse with _ | ⟨c, back⟩
    · exact absurd (List.reverse_eq_nil_iff.mp hrev) hline
    · have := congrArg List.length hrev
      rw [List.length_reverse, List.length_cons] at this
      refine ⟨_, rfl, ?_⟩
      split
      · omega
      · rw [List.length_cons]
        omega
  refine ⟨(openQuote vs).2, ?_⟩
  rw [assignment]
  simp only
  have hcut : cutComment (key.length + 1 + (openQuote vs).1) (openQuote vs).2 line.length back =
      some back := by
    rw [cutComment]
    split
    · rfl
    · rw [if_neg (by omega)]
  rw [if_neg (by omega), hback, Option.bind_some, hcut]
  simp only
  rw [putValue, if_neg (by omega), dollar_before_value (by omega), if_neg Bool.false_ne_true,
    if_neg (by omega)]

theorem prefix_line {name line next : Str} (hname : '\n' ∉ name) :
    name <+: line ++ '\n' :: next ↔ name <+: line := by
  constructor
  · intro h
    rcases List.prefix_or_prefix_of_prefix h (⟨next, by simp⟩ : line ++ ['\n'] <+: _) with h | h
    · rcases List.prefix_concat_iff.mp h with heq | h
      · exact absurd (by rw [heq]; simp) hname
      · exact h
    · exact absurd (h.subset (by simp)) hname
  · intro h
    exact h.trans (List.prefix_append _ _)

/-- What a turn does at the start of a line. -/
theorem rcvStep_cons {sh : Str → Option Str} {rcv : Rcv} {vars : Nat} {line next : Str}
    (hline : '\n' ∉ line) :
    rcvStep sh rcv vars (line ++ '\n' :: next) =
      if Skipped line then .next rcv vars next
      else
        match strchr '=' (line ++ '\n' :: next) with
        | none => .next rcv vars next
        | some (key, vs) => assignment sh rcv vars (line ++ '\n' :: next) key vs line := by
  have hnl : strchr '\n' (line ++ '\n' :: next) = some (line, next) :=
    strchr_eq_some.mpr ⟨rfl, hline⟩
  have hnext := nextline_line hline rcv vars next
  have hunset : strncmp 5 "unset".toList (line ++ '\n' :: next) = .eq ↔ "unset".toList <+: line := by
    have hpre := @prefix_line "unset".toList line next (by decide)
    rw [strncmp_eq, ← hpre, List.prefix_iff_eq_take]
    rfl
  rcases line with _ | ⟨c, line⟩
  · exact (if_pos (Or.inl rfl)).symm
  have hc : c ≠ '\n' := fun h => hline (by simp [h])
  rw [List.cons_append] at hnl hnext hunset ⊢
  have hskip : Skipped (c :: line) ↔ (c = '#' ∨ c = '.') ∨
      c = 'u' ∧ strncmp 5 "unset".toList (c :: (line ++ '\n' :: next)) = .eq := by
    have hu : "unset".toList <+: c :: line → c = 'u' := fun h => (List.cons_prefix_cons.mp h).1.symm
    rw [hunset, Skipped, and_iff_right_of_imp hu, List.head?_cons, or_iff_right (by simp),
      Option.some.injEq, Option.some.injEq, or_assoc]
  rw [rcvStep, hnl, hnext]
  simp only [if_neg hc]
  by_cases hcomment : c = '#' ∨ c = '.'
  · rw [if_pos hcomment, if_pos (hskip.mpr (Or.inl hcomment))]
  rw [if_neg hcomment]
  by_cases hu : c = 'u' ∧ strncmp 5 "unset".toList (c :: (line ++ '\n' :: next)) = .eq
  · rw [if_pos hu, if_pos (hskip.mpr (Or.inr hu))]
  · have hno : ¬ Skipped (c :: line) := fun h => (hskip.mp h).elim hcomment hu
    refine (if_neg hu).trans (Eq.trans ?_ (if_neg hno).symm)
    rcases strchr '=' (c :: (line ++ '\n' :: next)) with _ | ⟨key, vs⟩
    · rfl
    · rfl

theorem substituted_eq_none (env : Dict Str Str) (sh : Str → Option Str) (val : Str) :
    substituted env sh val = none ↔ substituted Dict.empty sh val = none := by
  rw [substituted, substituted]
  by_cases h : '$' ∈ value val
  · rw [if_pos h, if_pos h, ← Option.not_isSome_iff_eq_none, ← Option.not_isSome_iff_eq_none,
      shSubstitute, shSubstitute, substitute_isSome env Dict.empty]
  · rw [if_neg h, if_neg h]

/-- **The step at a line is its effect.** -/
theorem rcvStep_line {line : Str} (hline : '\n' ∉ line) (sh : Str → Option Str) (rcv : Rcv)
    (vars : Nat) (next : Str) :
    match effect sh (line, next) with
    | .nothing => rcvStep sh rcv vars (line ++ '\n' :: next) = .next rcv vars next
    | .ends => rcvStep sh rcv vars (line ++ '\n' :: next) = .stop (.exited rcv)
    | .stores key =>
      ∃ val, rcvStep sh rcv vars (line ++ '\n' :: next) = stored rcv vars key val next := by
  rw [rcvStep_cons hline, effect]
  simp only
  by_cases hskip : Skipped line
  · rw [if_pos hskip, if_pos hskip]
  rw [if_neg hskip, if_neg hskip]
  rcases heq : strchr '=' line with _ | ⟨key, val⟩
  · -- the first `=` is not in this line
    have hno := strchr_eq_none.mp heq
    rcases hnext : strchr '=' next with _ | ⟨a, vs⟩
    · have hnone : strchr '=' (line ++ '\n' :: next) = none :=
        strchr_eq_none.mpr (by simp [hno, strchr_eq_none.mp hnext])
      rw [hnone]
    · obtain ⟨rfl, ha⟩ := strchr_eq_some.mp hnext
      have hsome : strchr '=' (line ++ '\n' :: (a ++ '=' :: vs)) = some (line ++ '\n' :: a, vs) :=
        strchr_eq_some.mpr ⟨by simp, by simp [hno, ha]⟩
      have hlen : line.length < (line ++ '\n' :: a).length := by
        rw [List.length_append, List.length_cons]
        omega
      obtain ⟨val, hassign⟩ := @assignment_spanning sh rcv vars (line ++ '\n' :: (a ++ '=' :: vs))
        (line ++ '\n' :: a) vs line (fun h => hskip (Or.inl h)) hlen
      rw [hsome]
      simp only
      have hkey : line ++ '\n' :: (a ++ '=' :: vs) = line ++ '\n' :: a ++ '=' :: vs := by simp
      rw [hassign]
      exact store_line hline hkey rcv vars val
  · obtain ⟨rfl, hkey⟩ := strchr_eq_some.mp heq
    have hkeynl : '\n' ∉ key := fun h => hline (by simp [h])
    have hvalnl : '\n' ∉ val := fun h => hline (by simp [h])
    rw [strchr_append heq]
    simp only
    rw [assignment_line hkeynl hvalnl]
    -- nothing is assigned
    by_cases hnil : value val = []
    · rw [if_pos hnil, if_pos hnil]
    rw [if_neg hnil, if_neg hnil]
    rcases hsub : substituted rcv.env sh val with _ | text
    · rw [if_pos ((substituted_eq_none rcv.env sh val).mp hsub)]
      rfl
    · have hsome : substituted Dict.empty sh val ≠ none := by
        intro h
        rw [(substituted_eq_none rcv.env sh val).mpr h] at hsub
        exact absurd hsub (by simp)
      have hline' : key ++ '=' :: val ++ '\n' :: next = key ++ ('=' :: val ++ '\n' :: next) := by simp
      rw [if_neg hsome]
      exact store_line hline hline' rcv vars text

end Flappy.Checkvers
