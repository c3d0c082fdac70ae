/-
The targets of alternatives links (`relpath` in `lib/package_alternatives.c`,
and its copy in `bin/flappy-pkgdb/check_pkg_alternatives.c`).

Both paths are normalised in place and compared character by character, with
`p` at the last slash that they share.  Each slash left in the first path is a
directory to leave; the rest of the second path from `p` on follows.

* `normpath_slashed` — canonical paths are left alone;
* `relpath_resolves` — for these, the result leads from the link to the target;
* `Check.relpath_eq` — the copy is the same function.
-/
import Flappy.Lib.Strncmp
import Flappy.Paths.Rel

open CStr Path

namespace Flappy

/-! ### Normalising -/

/-- At `p`, the path goes up. -/
def AtParent (p : Str) : Prop :=
  strncmp 4 p "/../".toList = .eq ∨ strncmp 4 p "/..".toList = .eq

instance (p : Str) : Decidable (AtParent p) := inferInstanceAs (Decidable (_ ∨ _))

/-- What is taken out at `p` when the path does not go up. -/
def skip (p : Str) : Nat :=
  if strncmp 3 p "/./".toList = .eq ∨ strncmp 3 p "/.".toList = .eq then 2
  else if strncmp 2 p "//".toList = .eq ∨ strncmp 2 p "/".toList = .eq then 1
  else 0

theorem AtParent.length_le {p : Str} (h : AtParent p) : 3 ≤ p.length := by
  rcases h with h | h
  · have hlen := congrArg List.length (strncmp_eq.mp h)
    rw [List.length_take, show ("/../".toList.take 4).length = 4 from rfl] at hlen
    omega
  · have hlen := congrArg List.length (strncmp_eq.mp h)
    rw [List.length_take, show ("/..".toList.take 4).length = 3 from rfl] at hlen
    omega

theorem restart_length {front p : Str} (h : AtParent p) (seg : Option Nat) :
    (front.take (seg.getD front.length) ++ p.drop 3).length < front.length + p.length := by
  have hp := h.length_le
  rw [List.length_append, List.length_take, List.length_drop]
  omega

theorem advance_lex {front p q : Str} {c : Char} (h : p.drop (skip p) = c :: q) :
    Prod.Lex (· < ·) (· < ·) ((front ++ [c]).length + q.length, q.length)
      (front.length + p.length, p.length) := by
  have hlen := congrArg List.length h
  rw [List.length_drop, List.length_cons] at hlen
  have hle : (front ++ [c]).length + q.length ≤ front.length + p.length := by
    rw [List.length_append, List.length_singleton]
    omega
  rcases Nat.lt_or_eq_of_le hle with hlt | heq
  · exact Prod.Lex.left _ _ hlt
  · rw [heq]
    exact Prod.Lex.right _ (by omega)

/-- The loop of `normpath`: `front` is the text before `p`, and `seg` the offset
of the last slash passed. -/
def normpathLoop (front : Str) (seg : Option Nat) (p : Str) : Str :=
  if AtParent p then normpathLoop [] none (front.take (seg.getD front.length) ++ p.drop 3)
  else
    match _h : p.drop (skip p) with
    -- behind a deletion at the end `p` steps over the NUL, but all it finds
    -- there is the dot that it has deleted
    | [] => front
    | c :: p => normpathLoop (front ++ [c]) (if c = '/' then some front.length else seg) p
termination_by (front.length + p.length, p.length)
decreasing_by
  · refine Prod.Lex.left _ _ ?_
    rw [List.length_nil, Nat.zero_add]
    exact restart_length ‹_› seg
  · exact advance_lex _h

/-- `normpath`. -/
def normpath (path : Str) : Str := normpathLoop [] none path

/-! ### The relative path -/

/-- The comparing loop: what is left of `from`, and where `p` points. -/
def relScan : Str → Str → Str → Str × Str
  | [], _, p => ([], p)
  | s, [], p => (s, p)
  | a :: s, b :: t, p => if a = b then relScan s t (if b = '/' then b :: t else p) else (a :: s, p)

/-- `strcat` to a buffer of the given size; `none` writes behind it. -/
def strcat (size : Nat) (dst src : Str) : Option Str :=
  if dst.length + src.length < size then some (dst ++ src) else none

/-- `while (up--) strcat (rel, "../");` -/
def catUps (size : Nat) : Nat → Str → Option Str
  | 0, rel => some rel
  | up + 1, rel => (strcat size rel "../".toList).bind (catUps size up)

/-- What `relpath` makes of its arguments, and the path that it returns. -/
structure Relpath where
  fromPath : Str
  toPath : Str
  rel : Str
  deriving DecidableEq

/-- `relpath`; `none` is a failed assertion, or an access outside the buffers. -/
def relpath (fromPath toPath : Str) : Option Relpath :=
  if fromPath.head? ≠ some '/' ∨ toPath.head? ≠ some '/' then none
  else
    let fromPath := normpath fromPath
    let toPath := normpath toPath
    let (rest, p) := relScan fromPath toPath toPath
    -- `from--`
    if rest.length = fromPath.length then none
    else
      -- the first turn takes `up` from -1 to 0
      let up := countUps rest.length rest
      let size := 3 * up + p.length + 1
      (catUps size up []).bind fun rel =>
        (if p = [] then some rel else strcat size rel p.tail).map fun rel => ⟨fromPath, toPath, rel⟩

/-! ### Canonical paths -/

/-- An absolute path other than the root without empty, `.` and `..` elements,
and without a slash at its end. -/
structure Canonical (s : Str) : Prop where
  abs : isAbs s = true
  elems : ∀ e ∈ s.tail.splitOn '/', e ≠ [] ∧ e ≠ dot ∧ e ≠ dotdot

instance (s : Str) : Decidable (Canonical s) :=
  decidable_of_iff (isAbs s = true ∧ ∀ e ∈ s.tail.splitOn '/', e ≠ [] ∧ e ≠ dot ∧ e ≠ dotdot)
    ⟨fun h => ⟨h.1, h.2⟩, fun h => ⟨h.abs, h.elems⟩⟩

theorem Canonical.eq_slashed {s : Str} (h : Canonical s) :
    ∃ es, es ≠ [] ∧ (∀ e ∈ es, Ordinary e) ∧ s = slashed es := by
  obtain ⟨t, rfl⟩ := exists_root h.abs
  refine ⟨t.splitOn '/', List.splitOn_ne_nil '/' t, ?_, (slashed_splitOn t).symm⟩
  intro e he
  obtain ⟨hnil, hdot, hdotdot⟩ := h.elems e he
  exact ⟨⟨hnil, splitOn_not_mem '/' t e he⟩, hdot, hdotdot⟩

theorem elements_canonical {es : List Str} (hes : ∀ e ∈ es, Ordinary e) :
    elements (slashed es) = es ∧ absElements (slashed es) = es := by
  have helem : elements (slashed es) = es := elements_slashed fun e he => (hes e he).element
  refine ⟨helem, ?_⟩
  rw [absElements, helem, normal, push_ordinaries true [] hes, List.nil_append]

theorem Canonical.clean_eq {s : Str} (h : Canonical s) : clean s = s := by
  obtain ⟨es, hne, hes, rfl⟩ := h.eq_slashed
  rw [clean_abs h.abs, (elements_canonical hes).2, if_neg hne]

theorem Canonical.absElements_eq {s : Str} (h : Canonical s) : absElements s = elements s := by
  obtain ⟨es, -, hes, rfl⟩ := h.eq_slashed
  rw [(elements_canonical hes).1, (elements_canonical hes).2]

/-- The text before the first slash. -/
theorem takeWhile_atEnd {e rest : Str} (he : '/' ∉ e) (hrest : AtEnd rest) :
    (e ++ rest).takeWhile (· ≠ '/') = e := by
  have hall : ∀ c ∈ e, decide (c ≠ '/') = true := by
    intro c hc
    have hne : c ≠ '/' := fun heq => he (heq ▸ hc)
    simpa using hne
  rw [List.takeWhile_append_of_pos hall]
  rcases rest with _ | ⟨c, rest⟩
  · simp
  · obtain rfl : c = '/' := by simpa [AtEnd] using hrest
    simp

/-- A comparison with an element behind a slash, and a slash or the end behind it. -/
theorem eq_of_strncmp {e rest d : Str} (he : '/' ∉ e) (hrest : AtEnd rest) (hd : '/' ∉ d)
    (h : strncmp (d.length + 2) ('/' :: (e ++ rest)) ('/' :: (d ++ ['/'])) = .eq ∨
      strncmp (d.length + 2) ('/' :: (e ++ rest)) ('/' :: d) = .eq) : e = d := by
  obtain ⟨tail, htail, heq⟩ : ∃ tail, AtEnd tail ∧ e ++ rest = d ++ tail := by
    rw [strncmp_eq, strncmp_eq, List.take_succ_cons, List.take_succ_cons, List.take_succ_cons,
      List.cons.injEq, List.cons.injEq, and_iff_right rfl, and_iff_right rfl] at h
    have hsplit := (List.take_append_drop (d.length + 1) (e ++ rest)).symm
    rcases h with h | h
    · rw [h, List.take_of_length_le (by simp)] at hsplit
      exact ⟨'/' :: (e ++ rest).drop (d.length + 1), Or.inr rfl, by rw [hsplit]; simp⟩
    · rw [List.take_of_length_le (Nat.le_succ d.length)] at h
      have hlen := congrArg List.length h
      rw [List.length_take] at hlen
      refine ⟨[], Or.inl rfl, ?_⟩
      rw [List.append_nil, ← h, List.take_of_length_le (by omega)]
  rw [← takeWhile_atEnd he hrest, heq, takeWhile_atEnd hd htail]

/-- At an ordinary element nothing is taken out. -/
theorem normpath_element {e rest : Str} (he : Ordinary e) (hrest : AtEnd rest) :
    ¬ AtParent ('/' :: (e ++ rest)) ∧ skip ('/' :: (e ++ rest)) = 0 := by
  have hslash := he.element.2
  refine ⟨fun h => he.ne_dotdot (eq_of_strncmp hslash hrest (d := dotdot) (by decide) h), ?_⟩
  rw [skip, if_neg, if_neg]
  · exact fun h => he.element.1 (eq_of_strncmp hslash hrest (d := []) (by decide) h)
  · exact fun h => he.ne_dot (eq_of_strncmp hslash hrest (d := dot) (by decide) h)

theorem strncmp_head {n : Nat} {a b : Char} {s t : Str}
    (h : strncmp (n + 1) (a :: s) (b :: t) = .eq) : a = b := by
  rw [strncmp_eq, List.take_succ_cons, List.take_succ_cons] at h
  exact (List.cons.inj h).1

theorem normpath_char {c : Char} (hc : c ≠ '/') (rest : Str) :
    ¬ AtParent (c :: rest) ∧ skip (c :: rest) = 0 := by
  refine ⟨fun h => hc (h.elim strncmp_head strncmp_head), ?_⟩
  rw [skip, if_neg, if_neg]
  · exact fun h => hc (h.elim strncmp_head strncmp_head)
  · exact fun h => hc (h.elim strncmp_head strncmp_head)

theorem normpathLoop_cons {c : Char} {p : Str} (h : ¬ AtParent (c :: p) ∧ skip (c :: p) = 0)
    (front : Str) (seg : Option Nat) :
    normpathLoop front seg (c :: p) =
      normpathLoop (front ++ [c]) (if c = '/' then some front.length else seg) p := by
  rw [normpathLoop, if_neg h.1]
  split
  · rename_i hnil
    rw [h.2] at hnil
    cases hnil
  · rename_i hcons
    rw [h.2] at hcons
    cases hcons
    rfl

theorem normpathLoop_nil (front : Str) (seg : Option Nat) : normpathLoop front seg [] = front := by
  rw [normpathLoop, if_neg (by simp [AtParent, strncmp])]
  split
  · rfl
  · rename_i hcons
    rw [List.drop_nil] at hcons
    cases hcons

theorem normpathLoop_text {e : Str} (he : '/' ∉ e) (front : Str) (seg : Option Nat) (rest : Str) :
    normpathLoop front seg (e ++ rest) = normpathLoop (front ++ e) seg rest := by
  induction e generalizing front with
  | nil => rw [List.nil_append, List.append_nil]
  | cons c e ih =>
    rw [List.mem_cons, not_or] at he
    rw [List.cons_append, normpathLoop_cons (normpath_char (Ne.symm he.1) _),
      if_neg (Ne.symm he.1), ih he.2, List.append_assoc, List.singleton_append]

theorem normpathLoop_slashed {es : List Str} (hes : ∀ e ∈ es, Ordinary e) (front : Str)
    (seg : Option Nat) : normpathLoop front seg (slashed es) = front ++ slashed es := by
  induction es generalizing front seg with
  | nil => rw [slashed_nil, normpathLoop_nil, List.append_nil]
  | cons e es ih =>
    have he := hes e List.mem_cons_self
    rw [slashed_cons, List.cons_append, normpathLoop_cons (normpath_element he (atEnd_slashed es)),
      normpathLoop_text he.element.2, ih fun x hx => hes x (List.mem_cons_of_mem _ hx)]
    simp

/-- Canonical paths are left alone. -/
theorem Canonical.normpath_eq {s : Str} (h : Canonical s) : normpath s = s := by
  obtain ⟨es, -, hes, rfl⟩ := h.eq_slashed
  exact normpathLoop_slashed hes [] none

/-! ### The result -/

/-- The scan ends behind a common text, with `p` at its last slash. -/
theorem relScan_eq (s t p : Str) :
    ∃ c t', s = c ++ (relScan s t p).1 ∧ t = c ++ t' ∧
      (relScan s t p).2 = match strrchr '/' c with
        | none => p
        | some (_, b) => '/' :: b ++ t' := by
  induction s generalizing t p with
  | nil => exact ⟨[], t, rfl, rfl, rfl⟩
  | cons a s ih =>
    rcases t with _ | ⟨b, t⟩
    · exact ⟨[], [], rfl, rfl, rfl⟩
    · by_cases hab : a = b
      · subst hab
        obtain ⟨c, t', hs, ht, hp⟩ := ih t (if a = '/' then a :: t else p)
        rw [relScan, if_pos rfl]
        refine ⟨a :: c, t', by rw [List.cons_append, ← hs], by rw [List.cons_append, ← ht], ?_⟩
        rw [hp, strrchr]
        cases strrchr '/' c with
        | some r => rfl
        | none =>
          by_cases ha : a = '/'
          · rw [if_pos ha, if_pos ha, ha, ht]
            rfl
          · rw [if_neg ha, if_neg ha]
      · rw [relScan, if_neg hab]
        exact ⟨[], b :: t, rfl, rfl, rfl⟩

/-- There is room for `up` times `../` and what is appended after them. -/
theorem catUps_eq {size up : Nat} {rel : Str} (h : rel.length + 3 * up < size) :
    catUps size up rel = some (rel ++ (List.replicate up "../".toList).flatten) := by
  induction up generalizing rel with
  | zero => simp [catUps]
  | succ up ih =>
    have hlen : "../".toList.length = 3 := rfl
    rw [catUps, strcat, if_pos (by omega), Option.bind_some,
      ih (by rw [List.length_append, hlen]; omega)]
    simp [List.replicate_succ]

/-- The relative path leads from the directory of `fromPath` to `toPath`. -/
structure Leads (fromPath toPath rel : Str) : Prop where
  relative : isAbs rel = false
  resolves : resolve (elements fromPath).dropLast rel = toPath

/-- Two absolute paths part behind a slash of both of them, where `p` is left. -/
theorem relScan_abs {s t : Str} (hs : isAbs s = true) (ht : isAbs t = true) :
    ∃ a b t', s = a ++ '/' :: (b ++ (relScan s t t).1) ∧ t = a ++ '/' :: (b ++ t') ∧ '/' ∉ b ∧
      (relScan s t t).2 = '/' :: (b ++ t') := by
  obtain ⟨s, rfl⟩ := exists_root hs
  obtain ⟨t, rfl⟩ := exists_root ht
  obtain ⟨c, t', hs', ht', hp⟩ := relScan_eq s t ('/' :: t)
  rw [relScan, if_pos rfl, if_pos rfl, hp]
  cases hlast : strrchr '/' c with
  | none =>
    refine ⟨[], c, t', ?_, ?_, strrchr_eq_none.mp hlast, ?_⟩
    · rw [List.nil_append, ← hs']
    · rw [List.nil_append, ← ht']
    · rw [ht']
  | some r =>
    obtain ⟨a, b⟩ := r
    obtain ⟨rfl, hb⟩ := strrchr_eq_some.mp hlast
    refine ⟨'/' :: a, b, t', ?_, ?_, hb, rfl⟩
    · rw [List.cons_append, List.cons.injEq, and_iff_right rfl]
      exact hs'.trans (by simp)
    · rw [List.cons_append, List.cons.injEq, and_iff_right rfl]
      exact ht'.trans (by simp)

/-- For canonical paths `relpath` stays within its buffers, and its result leads
from the one to the other. -/
theorem relpath_canonical {fromPath toPath : Str} (hfrom : Canonical fromPath)
    (hto : Canonical toPath) :
    ∃ rel, relpath fromPath toPath = some ⟨fromPath, toPath, rel⟩ ∧ Leads fromPath toPath rel := by
  obtain ⟨a, b, t', hs, ht, hb, hp⟩ := relScan_abs hfrom.abs hto.abs
  rcases hscan : relScan fromPath toPath toPath with ⟨rest, p⟩
  rw [hscan] at hs hp
  simp only at hs hp
  have hup : countUps rest.length rest = (b ++ rest).count '/' :=
    countUps_behind hb (Nat.le_refl _)
  have hlen : rest.length ≠ fromPath.length := by
    rw [hs]
    simp only [List.length_append, List.length_cons]
    omega
  have hleads : Leads fromPath toPath
      ((List.replicate ((b ++ rest).count '/') "../".toList).flatten ++ (b ++ t')) := by
    have hcs := hfrom.clean_eq.trans hs
    have hct := hto.clean_eq.trans ht
    constructor
    · obtain ⟨-, -, -, -, -, -, habs⟩ := clean_split hto.abs hct
      exact isAbs_ups _ habs
    · rw [← hfrom.absElements_eq, resolve_ups hfrom.abs hto.abs hcs hct, hto.clean_eq]
  refine ⟨_, ?_, hleads⟩
  have hhead : ¬ (fromPath.head? ≠ some '/' ∨ toPath.head? ≠ some '/') := by
    have hf : fromPath.head? = some '/' := by simpa [isAbs] using hfrom.abs
    have ht : toPath.head? = some '/' := by simpa [isAbs] using hto.abs
    rw [hf, ht]
    simp
  set up := (b ++ rest).count '/' with hupdef
  have hcat : catUps (3 * up + p.length + 1) up [] =
      some (List.replicate up "../".toList).flatten := by
    rw [catUps_eq (by rw [List.length_nil]; omega), List.nil_append]
  have hroom : (List.replicate up "../".toList).flatten.length + p.tail.length <
      3 * up + p.length + 1 := by
    have hups : (List.replicate up "../".toList).flatten.length = up * 3 := by
      rw [List.length_flatten, List.map_replicate, List.sum_replicate_nat]
      rfl
    rw [hups, List.length_tail]
    omega
  have hne : p ≠ [] := by
    rw [hp]
    simp
  rw [relpath, if_neg hhead, hfrom.normpath_eq, hto.normpath_eq]
  simp only [hscan]
  rw [if_neg hlen, hup, hcat, Option.bind_some, if_neg hne, strcat, if_pos hroom, hp]
  rfl

/-! ### The copy -/

namespace Check

/-- The loop of `normpath` in `check_pkg_alternatives.c`. -/
def normpathLoop (front : Str) (seg : Option Nat) (p : Str) : Str :=
  if AtParent p then normpathLoop [] none (front.take (seg.getD front.length) ++ p.drop 3)
  else
    match _h : p.drop (skip p) with
    | [] => front
    | c :: p => normpathLoop (front ++ [c]) (if c = '/' then some front.length else seg) p
termination_by (front.length + p.length, p.length)
decreasing_by
  · refine Prod.Lex.left _ _ ?_
    rw [List.length_nil, Nat.zero_add]
    exact restart_length ‹_› seg
  · exact advance_lex _h

/-- `normpath` in `check_pkg_alternatives.c`. -/
def normpath (path : Str) : Str := normpathLoop [] none path

/-- `relpath` in `check_pkg_alternatives.c`. -/
def relpath (fromPath toPath : Str) : Option Relpath :=
  if fromPath.head? ≠ some '/' ∨ toPath.head? ≠ some '/' then none
  else
    let fromPath := normpath fromPath
    let toPath := normpath toPath
    let (rest, p) := relScan fromPath toPath toPath
    if rest.length = fromPath.length then none
    else
      let up := countUps rest.length rest
      let size := 3 * up + p.length + 1
      (catUps size up []).bind fun rel =>
        (if p = [] then some rel else strcat size rel p.tail).map fun rel => ⟨fromPath, toPath, rel⟩

theorem normpathLoop_eq (front : Str) (seg : Option Nat) (p : Str) :
    normpathLoop front seg p = Flappy.normpathLoop front seg p := by
  fun_induction Flappy.normpathLoop front seg p with
  | case1 front seg p h ih => rw [normpathLoop, if_pos h, ih]
  | case2 front seg p h hnil =>
    rw [normpathLoop, if_neg h]
    split
    · rfl
    · rename_i hcons
      rw [hnil] at hcons
      cases hcons
  | case3 front seg p h c q hcons ih =>
    rw [normpathLoop, if_neg h]
    split
    · rename_i hnil
      rw [hnil] at hcons
      cases hcons
    · rename_i hcons'
      rw [hcons] at hcons'
      cases hcons'
      exact ih

/-- The copy gives the same result on every input. -/
theorem relpath_eq (fromPath toPath : Str) :
    relpath fromPath toPath = Flappy.relpath fromPath toPath := by
  rw [relpath, Flappy.relpath, normpath, normpath, normpathLoop_eq, normpathLoop_eq]
  rfl

end Check

/-- **Between canonical paths the result leads from the link to the target**, the
buffer has room for it, and the copy does the same on every input. -/
theorem relpath_resolves (fromPath toPath : Str) :
    (Canonical fromPath → Canonical toPath →
      ∃ rel, relpath fromPath toPath = some ⟨fromPath, toPath, rel⟩ ∧ Leads fromPath toPath rel) ∧
      Check.relpath fromPath toPath = relpath fromPath toPath :=
  ⟨fun hfrom hto => relpath_canonical hfrom hto, Check.relpath_eq fromPath toPath⟩

/-- The link shares a part of an element with its target. -/
theorem relpath_resolves_vi :
    (∃ rel, relpath "/usr/bin/vi".toList "/usr/bin2/vim".toList =
        some ⟨"/usr/bin/vi".toList, "/usr/bin2/vim".toList, rel⟩ ∧
      Leads "/usr/bin/vi".toList "/usr/bin2/vim".toList rel) ∧
      Check.relpath "/usr/bin/vi".toList "/usr/bin2/vim".toList =
        relpath "/usr/bin/vi".toList "/usr/bin2/vim".toList := by
  obtain ⟨hleads, hcopy⟩ := relpath_resolves "/usr/bin/vi".toList "/usr/bin2/vim".toList
  exact ⟨hleads (by decide +kernel) (by decide +kernel), hcopy⟩

end Flappy
