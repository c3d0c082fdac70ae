/-
`strcmp` and `strncmp`: the comparison of two C strings, whole or up to a
number of characters.

`strncmp` compares the texts cut to that length, so that it is no order on the
strings themselves: with a short needle, every string that begins with the
needle is equal to it.

* `strncmp_eq` — when two strings count as equal;
* `strncmp_divides` — a sorted array is divided by every needle and length.
-/
import Flappy.Lib.BSearch
import Flappy.Lib.CStr

namespace CStr

/-- The sign of `strcmp (s, t)`; the NUL that ends a string is the least character. -/
def strcmp : Str → Str → Ordering
  | [], [] => .eq
  | [], _ :: _ => .lt
  | _ :: _, [] => .gt
  | a :: s, b :: t => if a = b then strcmp s t else if a.toNat < b.toNat then .lt else .gt

/-- The sign of `strncmp (s, t, n)`. -/
def strncmp : Nat → Str → Str → Ordering
  | 0, _, _ => .eq
  | _ + 1, [], [] => .eq
  | _ + 1, [], _ :: _ => .lt
  | _ + 1, _ :: _, [] => .gt
  | n + 1, a :: s, b :: t => if a = b then strncmp n s t else if a.toNat < b.toNat then .lt else .gt

/-- The characters that `isblank` accepts. -/
def isblank (c : Char) : Bool := c = ' ' || c = '\t'

/-! ### The order -/

theorem strcmp_self (s : Str) : strcmp s s = .eq := by
  induction s with
  | nil => rfl
  | cons a s ih => rw [strcmp, if_pos rfl, ih]

theorem strcmp_eq {s t : Str} : strcmp s t = .eq ↔ s = t := by
  constructor
  · intro h
    induction s generalizing t with
    | nil =>
      rcases t with _ | ⟨b, t⟩
      · rfl
      · rw [strcmp] at h
        cases h
    | cons a s ih =>
      rcases t with _ | ⟨b, t⟩
      · rw [strcmp] at h
        cases h
      · rw [strcmp] at h
        by_cases hab : a = b
        · rw [if_pos hab] at h
          rw [hab, ih h]
        · rw [if_neg hab] at h
          split at h <;> cases h
  · rintro rfl
    exact strcmp_self s

/-- What lies below a string lies below everything that is not below the string. -/
theorem strcmp_lt_of_lt_of_le {s t u : Str} (h : strcmp s t = .lt) (hle : strcmp t u ≠ .gt) :
    strcmp s u = .lt := by
  induction s generalizing t u with
  | nil =>
    rcases u with _ | ⟨c, u⟩
    · rcases t with _ | ⟨b, t⟩
      · exact h
      · exact absurd rfl hle
    · rfl
  | cons a s ih =>
    rcases t with _ | ⟨b, t⟩
    · rw [strcmp] at h
      cases h
    · rcases u with _ | ⟨c, u⟩
      · exact absurd rfl hle
      · rw [strcmp] at h hle ⊢
        by_cases hab : a = b
        · subst hab
          rw [if_pos rfl] at h
          by_cases hac : a = c
          · rw [if_pos hac] at hle ⊢
            exact ih h hle
          · rw [if_neg hac] at hle ⊢
            split at hle
            · rw [if_pos ‹_›]
            · exact absurd rfl hle
        · rw [if_neg hab] at h
          -- the first bytes differ already
          have hlt : a.toNat < b.toNat := by
            by_contra hge
            rw [if_neg hge] at h
            cases h
          have hbc : b.toNat ≤ c.toNat := by
            by_contra hgt
            have hne : b ≠ c := by
              rintro rfl
              omega
            rw [if_neg hne, if_neg (by omega)] at hle
            exact hle rfl
          have hac : a ≠ c := by
            rintro rfl
            omega
          rw [if_neg hac, if_pos (by omega)]

theorem strcmp_swap (s t : Str) : strcmp s t = .gt ↔ strcmp t s = .lt := by
  induction s generalizing t with
  | nil => rcases t with _ | ⟨b, t⟩ <;> simp [strcmp]
  | cons a s ih =>
    rcases t with _ | ⟨b, t⟩
    · simp [strcmp]
    · rw [strcmp, strcmp]
      by_cases hab : a = b
      · rw [if_pos hab, if_pos hab.symm]
        exact ih t
      · have hne : a.toNat ≠ b.toNat := fun h => hab (Char.toNat_inj.mp h)
        rw [if_neg hab, if_neg (Ne.symm hab)]
        by_cases hlt : a.toNat < b.toNat
        · rw [if_pos hlt, if_neg (by omega)]
          simp
        · rw [if_neg hlt, if_pos (by omega)]
          simp

instance : Std.TransCmp strcmp where
  eq_swap {s t} := by
    cases h : strcmp t s with
    | lt => exact (strcmp_swap s t).mpr h
    | eq => rw [strcmp_eq.mp h, strcmp_self]; rfl
    | gt => exact (strcmp_swap t s).mp h
  isLE_trans {s t u} hst htu := by
    rw [Ordering.isLE_iff_ne_gt] at *
    cases h : strcmp s t with
    | lt => rw [strcmp_lt_of_lt_of_le h htu]; simp
    | eq => rwa [strcmp_eq.mp h]
    | gt => exact absurd h hst

instance : Std.LawfulEqCmp strcmp where
  eq_of_compare := strcmp_eq.mp

/-- Cutting two strings to one length keeps them in order. -/
theorem strcmp_take {s t : Str} (n : Nat) (h : strcmp s t ≠ .gt) :
    strcmp (s.take n) (t.take n) ≠ .gt := by
  induction n generalizing s t with
  | zero => rw [List.take_zero, List.take_zero, strcmp_self]; simp
  | succ n ih =>
    rcases s with _ | ⟨a, s⟩
    · rcases t with _ | ⟨b, t⟩ <;> simp [strcmp]
    · rcases t with _ | ⟨b, t⟩
      · exact absurd rfl h
      · rw [List.take_succ_cons, List.take_succ_cons]
        rw [strcmp] at h ⊢
        by_cases hab : a = b
        · rw [if_pos hab] at h ⊢
          exact ih h
        · rw [if_neg hab] at h ⊢
          exact h

/-! ### Up to a length -/

theorem strncmp_eq_strcmp (n : Nat) (s t : Str) :
    strncmp n s t = strcmp (s.take n) (t.take n) := by
  induction n generalizing s t with
  | zero => rfl
  | succ n ih =>
    rcases s with _ | ⟨a, s⟩ <;> rcases t with _ | ⟨b, t⟩
    · rfl
    · rfl
    · rfl
    · rw [strncmp, List.take_succ_cons, List.take_succ_cons, strcmp, ih]

/-- Two strings are equal up to `n` characters if their first `n` characters are. -/
theorem strncmp_eq {n : Nat} {s t : Str} : strncmp n s t = .eq ↔ s.take n = t.take n := by
  rw [strncmp_eq_strcmp, strcmp_eq]

/-- Whatever the needle and the length, `strncmp` divides a sorted array. -/
theorem strncmp_divides {xs : List Str} (h : xs.Pairwise fun a b => strcmp a b ≠ .gt)
    (n : Nat) (s : Str) : BSearch.Divides (strncmp n s) xs := by
  refine h.imp fun {a b} hab => ?_
  have htake : strcmp (a.take n) (b.take n) ≠ .gt := strcmp_take n hab
  rw [strncmp_eq_strcmp, strncmp_eq_strcmp]
  constructor
  · intro hlt
    exact strcmp_lt_of_lt_of_le hlt htake
  · intro hgt
    rw [strcmp_swap] at hgt ⊢
    by_contra hge
    -- otherwise the first element would be above the second
    have hle : strcmp (s.take n) (a.take n) ≠ .gt := fun h => hge ((strcmp_swap _ _).mp h)
    have hba : strcmp (b.take n) (a.take n) = .lt := strcmp_lt_of_lt_of_le hgt hle
    exact htake ((strcmp_swap _ _).mpr hba)

end CStr
