/-
Sums of values that are read through one variable.

A read stores a value in the variable, or leaves the variable alone where there is no
value; something may be added to the variable then, and what is in it goes to one of
several sums.

* `total_eq` — a sum is the one that is meant, plus what was left in the variable at the
  reads that stored nothing;
* `carried_eq_zero` — nothing is left over if every read stores a value.

Reads are listed with the latest one first.
-/
import Mathlib.Algebra.BigOperators.Group.List.Basic
import Mathlib.Algebra.GroupWithZero.Nat

namespace Scratch

variable {κ : Type*}

/-- A read for the sum `sum`. -/
structure Read (κ : Type*) where
  sum : κ
  value : Option ℕ
  /-- What is added to the variable. -/
  extra : ℕ := 0

/-- What is in the variable after the reads. -/
def left : List (Read κ) → ℕ
  | [] => 0
  | r :: before => r.value.getD (left before) + r.extra

section
variable [DecidableEq κ] (k : κ)

/-- The sum `k`, as it comes out of the variable. -/
def total : List (Read κ) → ℕ
  | [] => 0
  | r :: before => (if r.sum = k then left (r :: before) else 0) + total before

/-- The sum that is meant: a missing value is 0. -/
def proper : List (Read κ) → ℕ
  | [] => 0
  | r :: before => (if r.sum = k then r.value.getD 0 + r.extra else 0) + proper before

/-- What the reads that store nothing find in the variable. -/
def carried : List (Read κ) → ℕ
  | [] => 0
  | r :: before => (if r.sum = k ∧ r.value = none then left before else 0) + carried before

theorem total_cons_self (r : Read κ) (before : List (Read κ)) :
    total r.sum (r :: before) = left (r :: before) + total r.sum before := by
  rw [total, if_pos rfl]

variable {k} in
theorem total_cons_of_ne {r : Read κ} (h : r.sum ≠ k) (before : List (Read κ)) :
    total k (r :: before) = total k before := by
  rw [total, if_neg h, Nat.zero_add]

theorem total_eq (reads : List (Read κ)) : total k reads = proper k reads + carried k reads := by
  induction reads with
  | nil => rfl
  | cons r before ih =>
    rw [total, proper, carried, ih, left]
    by_cases hk : r.sum = k
    · cases hv : r.value with
      | none =>
        simp only [hk, true_and, if_true, Option.getD_none]
        omega
      | some v =>
        simp only [hk, true_and, if_true, Option.getD_some, reduceCtorEq, if_false]
        omega
    · simp only [hk, false_and, if_false, zero_add]

theorem proper_append (reads before : List (Read κ)) :
    proper k (reads ++ before) = proper k reads + proper k before := by
  induction reads with
  | nil => rw [List.nil_append, proper, Nat.zero_add]
  | cons r reads ih => rw [List.cons_append, proper, proper, ih, Nat.add_assoc]

theorem total_le_append (reads before : List (Read κ)) :
    total k before ≤ total k (reads ++ before) := by
  induction reads with
  | nil => exact Nat.le_refl _
  | cons r reads ih =>
    rw [List.cons_append, total]
    omega

/-- A sum without reads. -/
theorem total_eq_zero {reads : List (Read κ)} (h : ∀ r ∈ reads, r.sum ≠ k) : total k reads = 0 := by
  induction reads with
  | nil => rfl
  | cons r before ih =>
    rw [total_cons_of_ne (h r List.mem_cons_self)]
    exact ih fun x hx => h x (List.mem_cons_of_mem _ hx)

/-- Nothing is carried over where all values are there. -/
theorem carried_eq_zero {reads : List (Read κ)} (h : ∀ r ∈ reads, r.sum = k → r.value.isSome) :
    carried k reads = 0 := by
  induction reads with
  | nil => rfl
  | cons r before ih =>
    rw [carried, ih fun x hx => h x (List.mem_cons_of_mem _ hx), Nat.add_zero, if_neg]
    rintro ⟨hk, hv⟩
    have := h r List.mem_cons_self hk
    rw [hv] at this
    cases this

end

end Scratch
