/-
C strings, as far as the package tools read them.

A string is the list of its characters up to the terminating NUL.  The
functions keep their C names; a pointer into a string becomes the suffix it
points at (`strpbrk`), or the two halves around it (`strchr`, `strrchr`), and
`NULL` becomes `none`.

* `strrchr_eq_some` — `strrchr` splits at the *last* occurrence;
* `strpbrk_eq_none` — `strpbrk` fails iff no character of the set occurs.
-/
import Mathlib.Data.List.Basic

namespace CStr

/-- A C string: its characters up to the terminating NUL. -/
abbrev Str := List Char

instance : LawfulBEq Str := inferInstance

/-- `strchr`: the text before the first `c` and the text after it. -/
def strchr (c : Char) : Str → Option (Str × Str)
  | [] => none
  | x :: xs => if x = c then some ([], xs) else (strchr c xs).map fun (a, b) => (x :: a, b)

/-- `strrchr`: the text before the last `c` and the text after it. -/
def strrchr (c : Char) : Str → Option (Str × Str)
  | [] => none
  | x :: xs =>
    match strrchr c xs with
    | some (a, b) => some (x :: a, b)
    | none => if x = c then some ([], xs) else none

/-- `strpbrk`: the suffix that starts at the first character of `set`. -/
def strpbrk (set : List Char) : Str → Option Str
  | [] => none
  | x :: xs => if x ∈ set then some (x :: xs) else strpbrk set xs

/-- The text before the first character of `set` (all of it if there is none). -/
def strcspn (set : List Char) (s : Str) : Str := s.takeWhile fun c => decide (c ∉ set)

/-- `strncasecmp (s, t, strlen t) == 0`, for `t` in lower case. -/
def hasPrefixNoCase (t s : Str) : Bool := t.isPrefixOf (s.map Char.toLower)

/-- The value of a run of decimal digits. -/
def atoi (s : Str) : Nat := s.foldl (fun n c => n * 10 + (c.toNat - '0'.toNat)) 0

/-! ### Splitting -/

theorem strchr_eq_none {c : Char} {s : Str} : strchr c s = none ↔ c ∉ s := by
  induction s with
  | nil => simp [strchr]
  | cons x xs ih =>
    rw [strchr]
    by_cases hx : x = c
    · simp [hx]
    · simp [hx, ih, Ne.symm hx]

/-- `strchr` splits around the first occurrence. -/
theorem strchr_eq_some {c : Char} {s a b : Str} :
    strchr c s = some (a, b) ↔ s = a ++ c :: b ∧ c ∉ a := by
  induction s generalizing a with
  | nil => simp [strchr]
  | cons x xs ih =>
    rw [strchr]
    by_cases hx : x = c
    · rw [if_pos hx]
      rcases a with _ | ⟨y, a⟩
      · simp [hx]
      · simp only [Option.some.injEq, Prod.mk.injEq, reduceCtorEq, false_and, List.cons_append,
          List.cons.injEq, List.mem_cons, not_or, false_iff, not_and, and_imp]
        rintro rfl - hc
        exact absurd hx.symm hc
    · rw [if_neg hx]
      rcases a with _ | ⟨y, a⟩
      · simp [hx]
      · simp only [Option.map_eq_some_iff, Prod.exists, Prod.mk.injEq, List.cons.injEq]
        constructor
        · rintro ⟨a', b', h, ⟨rfl, rfl⟩, rfl⟩
          obtain ⟨rfl, ha⟩ := ih.mp h
          exact ⟨rfl, by simpa [Ne.symm hx] using ha⟩
        · rintro ⟨hxs, hc⟩
          obtain rfl : x = y := (List.cons.inj hxs).1
          have htail : xs = a ++ c :: b := (List.cons.inj hxs).2
          exact ⟨a, b, ih.mpr ⟨htail, fun h => hc (by simp [h])⟩, ⟨rfl, rfl⟩, rfl⟩

theorem exists_strchr {c : Char} {s : Str} (h : c ∈ s) : ∃ a b, strchr c s = some (a, b) := by
  rcases hs : strchr c s with _ | ⟨a, b⟩
  · exact absurd h (strchr_eq_none.mp hs)
  · exact ⟨a, b, rfl⟩

theorem strchr_append {c : Char} {s a b : Str} (h : strchr c s = some (a, b)) (t : Str) :
    strchr c (s ++ t) = some (a, b ++ t) := by
  obtain ⟨rfl, ha⟩ := strchr_eq_some.mp h
  exact strchr_eq_some.mpr ⟨by simp, ha⟩

theorem strrchr_eq_none {c : Char} : ∀ {s : Str}, strrchr c s = none ↔ c ∉ s := by
  intro s
  induction s with
  | nil => simp [strrchr]
  | cons x xs ih =>
    rw [strrchr]
    cases h : strrchr c xs with
    | some p =>
      have : c ∈ xs := by
        by_contra hc
        rw [ih.mpr hc] at h
        exact absurd h (by simp)
      simp [this]
    | none =>
      have hc := ih.mp h
      by_cases hx : x = c
      · simp [hx]
      · simp [hx, hc, Ne.symm hx]

/-- `strrchr` splits around the last occurrence. -/
theorem strrchr_eq_some {c : Char} : ∀ {s a b : Str},
    strrchr c s = some (a, b) ↔ s = a ++ c :: b ∧ c ∉ b := by
  intro s
  induction s with
  | nil => intro a b; simp [strrchr]
  | cons x xs ih =>
    intro a b
    rw [strrchr]
    cases h : strrchr c xs with
    | some p =>
      obtain ⟨a', b'⟩ := p
      obtain ⟨hxs, hb'⟩ := ih.mp h
      simp only [Option.some.injEq, Prod.mk.injEq]
      constructor
      · rintro ⟨rfl, rfl⟩
        exact ⟨by simp [hxs], hb'⟩
      · rintro ⟨hs, hb⟩
        rcases a with _ | ⟨y, a⟩
        · -- the split at the head would leave a later `c` in `b`
          simp only [List.nil_append, List.cons.injEq] at hs
          rw [← hs.2, hxs] at hb
          simp at hb
        · simp only [List.cons_append, List.cons.injEq] at hs
          have := (ih (a := a) (b := b)).mpr ⟨hs.2, hb⟩
          rw [h] at this
          simp only [Option.some.injEq, Prod.mk.injEq] at this
          exact ⟨by rw [hs.1, this.1], this.2⟩
    | none =>
      have hc := strrchr_eq_none.mp h
      by_cases hx : x = c
      · rw [if_pos hx]
        simp only [Option.some.injEq, Prod.mk.injEq]
        constructor
        · rintro ⟨rfl, rfl⟩
          exact ⟨by simp [hx], hc⟩
        · rintro ⟨hs, _⟩
          rcases a with _ | ⟨y, a⟩
          · simp only [List.nil_append, List.cons.injEq] at hs
            exact ⟨rfl, hs.2⟩
          · simp only [List.cons_append, List.cons.injEq] at hs
            exact absurd (by simp [hs.2]) hc
      · rw [if_neg hx]
        constructor
        · intro h'; exact absurd h' (by simp)
        · rintro ⟨hs, _⟩
          rcases a with _ | ⟨y, a⟩
          · simp only [List.nil_append, List.cons.injEq] at hs
            exact absurd hs.1 hx
          · simp only [List.cons_append, List.cons.injEq] at hs
            exact absurd (by simp [hs.2]) hc

theorem exists_strrchr {c : Char} {s : Str} (h : c ∈ s) : ∃ a b, strrchr c s = some (a, b) := by
  rcases hs : strrchr c s with _ | ⟨a, b⟩
  · exact absurd h (strrchr_eq_none.mp hs)
  · exact ⟨a, b, rfl⟩

theorem strpbrk_eq_none {set : List Char} : ∀ {s : Str},
    strpbrk set s = none ↔ ∀ c ∈ s, c ∉ set := by
  intro s
  induction s with
  | nil => simp [strpbrk]
  | cons x xs ih =>
    rw [strpbrk]
    by_cases hx : x ∈ set
    · simp [hx]
    · simp [hx, ih]

theorem strpbrk_append {set : List Char} {a b : Str} (h : ∀ c ∈ a, c ∉ set) :
    strpbrk set (a ++ b) = strpbrk set b := by
  induction a with
  | nil => rfl
  | cons x a ih =>
    rw [List.cons_append, strpbrk, if_neg (h x List.mem_cons_self)]
    exact ih fun c hc => h c (List.mem_cons_of_mem _ hc)

/-- `strpbrk` cuts a string before the first character of the set. -/
theorem strpbrk_eq_some {set : List Char} {s p : Str} (h : strpbrk set s = some p) :
    ∃ a, s = a ++ p ∧ (∀ c ∈ a, c ∉ set) ∧ ∃ c q, p = c :: q ∧ c ∈ set := by
  induction s with
  | nil => simp [strpbrk] at h
  | cons x xs ih =>
    rw [strpbrk] at h
    by_cases hx : x ∈ set
    · rw [if_pos hx, Option.some.injEq] at h
      exact ⟨[], by simp [h], by simp, x, xs, h.symm, hx⟩
    · rw [if_neg hx] at h
      obtain ⟨a, rfl, ha, hp⟩ := ih h
      refine ⟨x :: a, rfl, ?_, hp⟩
      intro c hc
      rcases List.mem_cons.mp hc with rfl | hc
      · exact hx
      · exact ha c hc

/-! ### Shell patterns -/

/-- The character classes a bracket expression may name, for the C locale. -/
def charClass (name : Str) (c : Char) : Bool :=
  if name = "alpha".toList then c.isAlpha
  else if name = "digit".toList then c.isDigit
  else if name = "alnum".toList then c.isAlphanum
  else if name = "upper".toList then c.isUpper
  else if name = "lower".toList then c.isLower
  else if name = "space".toList then c.isWhitespace
  else if name = "blank".toList then c = ' ' || c = '\t'
  else if name = "xdigit".toList then
    c.isDigit || ('a' ≤ c && c ≤ 'f') || ('A' ≤ c && c ≤ 'F')
  else if name = "punct".toList then
    '!' ≤ c && c ≤ '~' && !c.isAlphanum
  else false

/-- One item of a bracket expression. -/
inductive BracketItem where
  /-- The characters from the first to the second. -/
  | range (lo hi : Char)
  /-- A named class, `[:name:]`. -/
  | cls (name : Str)

def BracketItem.holds (c : Char) : BracketItem → Bool
  | .range lo hi => lo ≤ c && c ≤ hi
  | .cls name => charClass name c

/-- The items of a bracket expression and the pattern behind its `]`; `none` if
no `]` closes it.  `first` says that a `]` would still stand for itself. -/
def bracketItems : Nat → Bool → Str → Option (List BracketItem × Str)
  | 0, _, _ => none
  | _ + 1, _, [] => none
  | n + 1, first, c :: p =>
    if c = ']' ∧ !first then some ([], p)
    else
      let (item, rest) : BracketItem × Str :=
        match c, p with
        | '[', ':' :: q =>
          match strchr ':' q with
          | some (name, ']' :: q') => (.cls name, q')
          | _ => (.range '[' '[', p)
        | '\\', d :: q => (.range d d, q)
        | lo, '-' :: hi :: q => if hi = ']' then (.range lo lo, p) else (.range lo hi, q)
        | lo, q => (.range lo lo, q)
      (bracketItems n false rest).map fun (items, q) => (item :: items, q)

/-- A bracket expression behind its `[`: whether it matches `c`, and the
pattern behind its `]`. -/
def bracket (p : Str) (c : Char) : Option (Bool × Str) :=
  match p with
  | '!' :: q | '^' :: q =>
    (bracketItems (q.length + 1) true q).map fun (items, r) => (!items.any (·.holds c), r)
  | q => (bracketItems (q.length + 1) true q).map fun (items, r) => (items.any (·.holds c), r)

/-- `fnmatch` without flags other than `FNM_PERIOD`; `lead` says that the
string is at its first character, where a period must be matched literally.
The fuel bounds the number of pattern and string characters still to read. -/
def fnmatchAux : Nat → Bool → Str → Str → Bool
  | 0, _, _, _ => false
  | _ + 1, _, [], s => s.isEmpty
  | n + 1, lead, '*' :: p, s =>
    match s with
    | [] => fnmatchAux n lead p []
    | c :: t =>
      if lead ∧ c = '.' then false
      else fnmatchAux n lead p (c :: t) || fnmatchAux n false ('*' :: p) t
  | n + 1, lead, '?' :: p, s =>
    match s with
    | [] => false
    | c :: t => if lead ∧ c = '.' then false else fnmatchAux n false p t
  | n + 1, lead, '[' :: p, s =>
    match s with
    | [] => false
    | c :: t =>
      match bracket p c with
      | some (ok, q) => if lead ∧ c = '.' then false else ok && fnmatchAux n false q t
      | none => c = '[' && fnmatchAux n false p t
  | n + 1, _, '\\' :: d :: p, s =>
    match s with
    | [] => false
    | c :: t => c = d && fnmatchAux n false p t
  | n + 1, _, d :: p, s =>
    match s with
    | [] => false
    | c :: t => c = d && fnmatchAux n false p t

/-- `fnmatch (pattern, string, FNM_PERIOD) == 0`. -/
def fnmatch (pattern s : Str) : Bool :=
  fnmatchAux (pattern.length + s.length + 1) true pattern s

end CStr
