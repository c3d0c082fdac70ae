/-
The scanner for templates (`rcv_get_pkgver` in `bin/flappy-checkvers/main.c`).

The buffer holds the text of the template and a NUL.  The scanner looks at one
line after the other, but it searches the whole of what follows for the `=` of
an assignment and for the quotes, comments and references of its value.  A
pointer is the text from where it points to the NUL; `ptr` stands at the start
of a line, and offsets count from there.

* `rcvStep_next_lt` — every step leaves less of the text, so the scan ends;
* `substitute_isSome` — whether a value can be substituted does not depend on
  the variables.
-/
import Flappy.Lib.Dict
import Flappy.Lib.Strncmp

open CStr

namespace Flappy.Checkvers

/-- The characters that `isspace` accepts in the C locale. -/
def isspace (c : Char) : Bool :=
  c = ' ' || c = '\t' || c = '\n' || c = '\x0b' || c = '\x0c' || c = '\r'

/-! ### Substitution -/

/-- The character at the pointer; `after` stands at the end of the value. -/
def peek (after : Char) : Str → Char
  | [] => after
  | c :: _ => c

def isWord (c : Char) : Bool := c.isAlphanum || c = '_'

/-- Behind the name of `${name}`: an operator is passed over up to the brace. -/
def closing (after : Char) (p : Str) : Str :=
  if peek after p ∈ ['/', '%', '#', ':'] then p.dropWhile (· ≠ '}') else p

theorem length_dropWhile_le (p : Char → Bool) (s : Str) : (s.dropWhile p).length ≤ s.length :=
  (List.dropWhile_suffix p).length_le

theorem length_closing_le (after : Char) (p : Str) : (closing after p).length ≤ p.length := by
  rw [closing]
  split
  · exact length_dropWhile_le _ p
  · exact Nat.le_refl _

/-- The loop of `rcv_sh_substitute` over the characters before `str + len`,
where `after` stands.  `sh` gives the first line that a command prints, or
`none` if it fails; the result `none` is `exit (EXIT_FAILURE)`. -/
def substitute (env : Dict Str Str) (sh : Str → Option Str) (after : Char) : Str → Option Str
  | [] => some []
  | c :: p =>
    if c = '$' then
      match p with
      | [] => some ['$']
      | '(' :: ref =>
        let p := ref.dropWhile (· ≠ ')')
        if peek after p ≠ ')' then none
        else
          (sh (ref.takeWhile (· ≠ ')'))).bind fun out =>
            (substitute env sh after p.tail).map (out ++ ·)
      | '{' :: ref =>
        let name := ref.takeWhile isWord
        let p := closing after (ref.dropWhile isWord)
        if peek after p ≠ '}' ∨ 1024 ≤ name.length then none
        else
          -- without a name the pointer is left at the brace, which is copied
          (substitute env sh after p.tail).map
            ((if name = [] then ['}'] else (env.get name).getD "NULL".toList) ++ ·)
      | p =>
        let name := p.takeWhile isWord
        if 1024 ≤ name.length then none
        else
          (substitute env sh after (p.dropWhile isWord)).map
            ((if name = [] then ['$'] else (env.get name).getD "NULL".toList) ++ ·)
    else (substitute env sh after p).map (c :: ·)
termination_by s => s.length
decreasing_by
  · have := length_dropWhile_le (fun x => decide (x ≠ ')')) ref
    rw [List.length_tail, List.length_cons, List.length_cons]
    omega
  · have := length_dropWhile_le isWord ref
    have := length_closing_le after (ref.dropWhile isWord)
    rw [List.length_tail, List.length_cons, List.length_cons]
    omega
  · have := length_dropWhile_le isWord p
    rw [List.length_cons]
    omega
  · exact Nat.lt_succ_self _

/-- `rcv_sh_substitute`. -/
def shSubstitute (env : Dict Str Str) (sh : Str → Option Str) (str : Str) (len : Nat) : Option Str :=
  substitute env sh (peek '\x00' (str.drop len)) (str.take len)

/-! ### The scan -/

/-- The variables that `have_vars` has a bit for. -/
inductive Var where
  | pkgname
  | version
  | revision
  deriving DecidableEq

def Var.name : Var → Str
  | .pkgname => "pkgname".toList
  | .version => "version".toList
  | .revision => "revision".toList

/-- What the scanner writes in `rcv_t`. -/
structure Rcv where
  env : Dict Str Str
  haveVars : Var → Bool

/-- `rcv_init`, and the new dictionary of `rcv_process_file`. -/
def Rcv.init : Rcv := ⟨Dict.empty, fun _ => false⟩

/-- How a scan ends. -/
inductive Outcome where
  /-- `rcv_get_pkgver` returns. -/
  | returned (rcv : Rcv)
  /-- `exit (EXIT_FAILURE)`. -/
  | exited (rcv : Rcv)
  /-- An assertion fails; without assertions, `NULL` is read. -/
  | aborted
  /-- Something outside of the buffer is read. -/
  | outside

/-- What a turn of the loop comes to. -/
inductive Step where
  | next (rcv : Rcv) (vars : Nat) (ptr : Str)
  | stop (o : Outcome)

/-- `nextline`: without a newline, `NULL + 1` is read in the next turn. -/
def nextline (rcv : Rcv) (vars : Nat) (ptr : Str) : Step :=
  match strchr '\n' ptr with
  | none => .stop .outside
  | some (_, ptr) => .next rcv vars ptr

/-- The variable that `k` is taken for. -/
def gotVar (k : Str) (klen : Nat) : Option Var :=
  if strncmp klen "pkgname".toList k = .eq then some .pkgname
  else if strncmp klen "version".toList k = .eq then some .version
  else if strncmp klen "revision".toList k = .eq then some .revision
  else none

def Rcv.set (rcv : Rcv) (key val : Str) (got : Option Var) : Rcv where
  env := rcv.env.set key val
  haveVars := fun x => rcv.haveVars x || decide (got = some x)

/-- The longest key that a dictionary takes (`_prop_dict_keysym_alloc`). -/
def maxKey : Nat := 128

/-- A value has been found: the assignment is stored, and the variable marked. -/
def store (rcv : Rcv) (vars : Nat) (ptr : Str) (klen : Nat) (val : Str) : Step :=
  if maxKey < klen then .stop (.exited rcv)
  else
    let got := gotVar ptr klen
    let rcv := rcv.set (ptr.take klen) val got
    let vars := if got.isSome then vars + 1 else vars
    if 2 < vars then .stop (.returned rcv) else nextline rcv vars ptr

/-- `v` behind an opening quote, and how far it has gone. -/
def openQuote : Str → Nat × Str
  | '"' :: vs => (1, vs)
  | vs => (0, vs)

/-- `v + vlen` before a closing quote.  `back` is the text from `ptr` to
`v + vlen`, last character first, so that `v[vlen-1]` is its head; `none` reads
before `ptr`. -/
def closeQuote : (back : Str) → Option Str
  | [] => none
  | c :: back => some (if c = '"' then back else c :: back)

/-- `v + vlen` before a comment, and the space before it. -/
def cutComment (v : Nat) (vs : Str) (p : Nat) (back : Str) : Option Str :=
  match strchr '#' vs with
  | none => some back
  | some (before, _) =>
    if v + before.length < p ∧ before.getLast? = some ' ' then
      match back.dropWhile (· ≠ '#') with
      | [] => none
      | _ :: back =>
        match back.dropWhile isspace with
        | [] => none
        | c :: back => some (c :: back)
    else some back

/-- The value is `vs` up to the offset `e`, which is `v + vlen`. -/
def putValue (sh : Str → Option Str) (rcv : Rcv) (vars : Nat) (ptr : Str) (klen v : Nat)
    (vs : Str) (e : Nat) : Step :=
  if e = v then nextline rcv vars ptr
  else if (strchr '$' vs).any fun (d, _) => v + d.length < e then
    match shSubstitute rcv.env sh vs (e - v) with
    | none => .stop (.exited rcv)
    | some val => store rcv vars ptr klen val
  else
    -- with a wrapped length, `strndup` copies all there is
    store rcv vars ptr klen (if v ≤ e then vs.take (e - v) else vs)

/-- An assignment: `ptr` is `key`, `=` and `vs`, and `line` are the characters
up to the newline at `p`.  If the `=` is on a later line then `vlen`, which is
`p - v`, wraps; `v + vlen` is `p` all the same. -/
def assignment (sh : Str → Option Str) (rcv : Rcv) (vars : Nat) (ptr key vs line : Str) : Step :=
  let p := line.length
  if vs.head? = some '"' ∧ p = key.length + 1 + 1 then
    match strchr '"' ptr with
    | none => .stop .outside
    | some (_, ptr) => nextline rcv vars ptr
  else
    let v := key.length + 1 + (openQuote vs).1
    let vs := (openQuote vs).2
    match (closeQuote line.reverse).bind (cutComment v vs p) with
    | none => .stop .outside
    | some back => putValue sh rcv vars ptr key.length v vs back.length

/-- A turn of the loop. -/
def rcvStep (sh : Str → Option Str) (rcv : Rcv) (vars : Nat) (ptr : Str) : Step :=
  match ptr with
  | [] => .stop (.returned rcv)
  | c :: rest =>
    if c = '#' ∨ c = '.' then nextline rcv vars ptr
    else if c = '\n' then .next rcv vars rest
    else if c = 'u' ∧ strncmp 5 "unset".toList ptr = .eq then nextline rcv vars ptr
    else
      match strchr '=' ptr with
      | none => nextline rcv vars ptr
      | some (key, vs) =>
        match strchr '\n' ptr with
        | none => .stop .aborted
        | some (line, _) => assignment sh rcv vars ptr key vs line

/-! ### Termination -/

theorem nextline_next_lt {rcv rcv' : Rcv} {vars vars' : Nat} {ptr ptr' : Str}
    (h : nextline rcv vars ptr = .next rcv' vars' ptr') : ptr'.length < ptr.length := by
  rw [nextline] at h
  split at h
  · cases h
  · rename_i line next hnl
    obtain ⟨rfl, -⟩ := strchr_eq_some.mp hnl
    cases h
    rw [List.length_append, List.length_cons]
    omega

theorem store_next_lt {rcv rcv' : Rcv} {vars vars' klen : Nat} {ptr ptr' val : Str}
    (h : store rcv vars ptr klen val = .next rcv' vars' ptr') : ptr'.length < ptr.length := by
  rw [store] at h
  split at h
  · cases h
  · simp only at h
    generalize (if (gotVar ptr klen).isSome then vars + 1 else vars) = n at h
    split at h
    · cases h
    · exact nextline_next_lt h

theorem putValue_next_lt {sh : Str → Option Str} {rcv rcv' : Rcv} {vars vars' klen v e : Nat}
    {ptr ptr' vs : Str} (h : putValue sh rcv vars ptr klen v vs e = .next rcv' vars' ptr') :
    ptr'.length < ptr.length := by
  rw [putValue] at h
  split at h
  · exact nextline_next_lt h
  · split at h
    · split at h
      · cases h
      · exact store_next_lt h
    · exact store_next_lt h

theorem assignment_next_lt {sh : Str → Option Str} {rcv rcv' : Rcv} {vars vars' : Nat}
    {ptr ptr' key vs line : Str}
    (h : assignment sh rcv vars ptr key vs line = .next rcv' vars' ptr') :
    ptr'.length < ptr.length := by
  rw [assignment] at h
  simp only at h
  split at h
  · split at h
    · cases h
    · rename_i quote rest hq
      obtain ⟨rfl, -⟩ := strchr_eq_some.mp hq
      have := nextline_next_lt h
      rw [List.length_append, List.length_cons]
      omega
  · split at h
    · cases h
    · exact putValue_next_lt h

/-- Every turn goes forward. -/
theorem rcvStep_next_lt {sh : Str → Option Str} {rcv rcv' : Rcv} {vars vars' : Nat}
    {ptr ptr' : Str} (h : rcvStep sh rcv vars ptr = .next rcv' vars' ptr') :
    ptr'.length < ptr.length := by
  rcases ptr with _ | ⟨c, rest⟩
  · cases h
  · rw [rcvStep] at h
    split at h
    · exact nextline_next_lt h
    · split at h
      · cases h
        exact Nat.lt_succ_self _
      · split at h
        · exact nextline_next_lt h
        · split at h
          · exact nextline_next_lt h
          · split at h
            · cases h
            · exact assignment_next_lt h

/-- The loop of `rcv_get_pkgver`. -/
def rcvLoop (sh : Str → Option Str) (rcv : Rcv) (vars : Nat) (ptr : Str) : Outcome :=
  match _h : rcvStep sh rcv vars ptr with
  | .next rcv vars ptr => rcvLoop sh rcv vars ptr
  | .stop o => o
termination_by ptr.length
decreasing_by exact rcvStep_next_lt _h

/-- `rcv_get_pkgver`, on the text of the template. -/
def rcvGetPkgver (sh : Str → Option Str) (rcv : Rcv) (buf : Str) : Outcome := rcvLoop sh rcv 0 buf

theorem rcvLoop_next {sh : Str → Option Str} {rcv rcv' : Rcv} {vars vars' : Nat} {ptr ptr' : Str}
    (h : rcvStep sh rcv vars ptr = .next rcv' vars' ptr') :
    rcvLoop sh rcv vars ptr = rcvLoop sh rcv' vars' ptr' := by
  rw [rcvLoop]
  split
  · rename_i heq
    rw [h] at heq
    cases heq
    rfl
  · rename_i heq
    rw [h] at heq
    cases heq

theorem rcvLoop_stop {sh : Str → Option Str} {rcv : Rcv} {vars : Nat} {ptr : Str} {o : Outcome}
    (h : rcvStep sh rcv vars ptr = .stop o) : rcvLoop sh rcv vars ptr = o := by
  rw [rcvLoop]
  split
  · rename_i heq
    rw [h] at heq
    cases heq
  · rename_i heq
    rw [h] at heq
    cases heq
    rfl

/-! ### The failures of a substitution -/

/-- Whether a value can be substituted does not depend on the variables. -/
theorem substitute_isSome (env env' : Dict Str Str) (sh : Str → Option Str) (after : Char)
    (s : Str) : (substitute env sh after s).isSome = (substitute env' sh after s).isSome := by
  fun_induction substitute env sh after s with
  | case1 => rw [substitute]
  | case2 => rw [substitute, if_pos rfl]
  | case3 ref p hp => rw [substitute, if_pos rfl, if_pos hp]
  | case4 ref p hp ih =>
    rw [substitute, if_pos rfl, if_neg hp]
    cases sh (ref.takeWhile (· ≠ ')')) with
    | none => rfl
    | some out =>
      simp only [Option.bind_some, Option.isSome_map]
      exact ih
  | case5 ref name p hp => rw [substitute, if_pos rfl, if_pos hp]
  | case6 ref name p hp ih =>
    rw [substitute, if_pos rfl, if_neg hp]
    simpa using ih
  | case7 p hnil hparen hbrace name hname =>
    rw [substitute, if_pos rfl]
    · exact (if_pos hname).symm ▸ rfl
    · exact hnil
    · exact hparen
    · exact hbrace
  | case8 p hnil hparen hbrace name hname ih =>
    rw [substitute, if_pos rfl]
    · simp only
      rw [if_neg hname, Option.isSome_map, Option.isSome_map]
      exact ih
    · exact hnil
    · exact hparen
    · exact hbrace
  | case9 c p hc ih =>
    rw [substitute.eq_def env']
    simp only
    rw [if_neg hc, Option.isSome_map, Option.isSome_map]
    exact ih

end Flappy.Checkvers
