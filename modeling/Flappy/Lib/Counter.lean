/-
Loops whose counter is narrower than their bound.

In `for (i = start; i < n; i++)` the counter may have fewer bits than the bound
`n`.  It then goes from `m - 1` back to 0, and if `m ≤ n` the loop ends only
through its body.  How many turns a loop is given is a parameter.

* `forLoop_hit` — the loop ends at the first index at which the body leaves it;
* `forLoop_end` — if the body never does, it ends at a bound below `m`;
* `forLoop_forever` — and from a bound of `m` on it never ends.
-/
import Mathlib.Data.List.Basic

namespace Counter

variable {β γ : Type*}

/-- With turns enough, the result is `v`. -/
def Returns (f : ℕ → Option γ) (v : γ) : Prop := ∃ turns, f turns = some v

/-- The loop: what the body leaves it with, if it does.  `none` if it still runs after
so many turns. -/
def forLoop (m n : ℕ) (body : ℕ → Option β) : ℕ → ℕ → Option (Option β)
  | 0, _ => none
  | turns + 1, i =>
    if i < n then
      match body i with
      | some r => some (some r)
      | none => forLoop m n body turns ((i + 1) % m)
    else some none

variable {m n : ℕ} {body : ℕ → Option β}

/-- A loop that has ended is left alone by further turns. -/
theorem forLoop_succ {turns i : ℕ} {v : Option β} (h : forLoop m n body turns i = some v) :
    forLoop m n body (turns + 1) i = some v := by
  induction turns generalizing i with
  | zero => cases h
  | succ turns ih =>
    rw [forLoop] at h ⊢
    by_cases hi : i < n
    · rw [if_pos hi] at h ⊢
      cases hbody : body i with
      | some r =>
        rw [hbody] at h
        exact h
      | none =>
        rw [hbody] at h
        exact ih h
    · rw [if_neg hi] at h ⊢
      exact h

/-- What a loop returns does not depend on the turns. -/
theorem Returns.unique {f : ℕ → Option γ}
    (hf : ∀ turns v, f turns = some v → f (turns + 1) = some v)
    {v w : γ} (hv : Returns f v) (hw : Returns f w) : v = w := by
  have hle : ∀ {a b : ℕ} {u : γ}, a ≤ b → f a = some u → f b = some u := by
    intro a b u hab hu
    induction hab with
    | refl => exact hu
    | step _ ih => exact hf _ u ih
  obtain ⟨a, ha⟩ := hv
  obtain ⟨b, hb⟩ := hw
  have hmax := hle (Nat.le_max_left a b) ha
  rw [hle (Nat.le_max_right a b) hb] at hmax
  exact (Option.some.inj hmax).symm

theorem Returns.map {δ : Type*} {f : ℕ → Option γ} {v : γ} (h : Returns f v) (g : γ → δ) :
    Returns (fun turns => (f turns).map g) (g v) := by
  obtain ⟨turns, hv⟩ := h
  refine ⟨turns, ?_⟩
  show (f turns).map g = some (g v)
  rw [hv, Option.map_some]

/-- The loop goes on to an index below `m`, as long as the body lets it. -/
theorem forLoop_skip {i k : ℕ} (hik : i ≤ k) (hkn : k ≤ n) (hkm : k < m)
    (hnone : ∀ j, i ≤ j → j < k → body j = none) (turns : ℕ) :
    forLoop m n body (turns + (k - i)) i = forLoop m n body turns k := by
  induction hd : k - i generalizing i with
  | zero =>
    obtain rfl : i = k := by omega
    rfl
  | succ d ih =>
    have hlt : i < k := by omega
    have hmod : (i + 1) % m = i + 1 := Nat.mod_eq_of_lt (by omega)
    show forLoop m n body (turns + d + 1) i = _
    rw [forLoop, if_pos (by omega), hnone i (Nat.le_refl i) hlt]
    show forLoop m n body (turns + d) ((i + 1) % m) = _
    rw [hmod]
    exact ih (by omega) (fun j hj => hnone j (by omega)) (by omega)

theorem forLoop_hit {i k : ℕ} {r : β} (hik : i ≤ k) (hkn : k < n) (hkm : k < m)
    (hnone : ∀ j, i ≤ j → j < k → body j = none) (hbody : body k = some r) :
    Returns (fun turns => forLoop m n body turns i) (some r) := by
  refine ⟨1 + (k - i), ?_⟩
  show forLoop m n body (1 + (k - i)) i = some (some r)
  rw [forLoop_skip hik (by omega) hkm hnone, forLoop, if_pos hkn, hbody]

theorem forLoop_end {i : ℕ} (hin : i ≤ n) (hnm : n < m)
    (hnone : ∀ j, i ≤ j → j < n → body j = none) :
    Returns (fun turns => forLoop m n body turns i) none := by
  refine ⟨1 + (n - i), ?_⟩
  show forLoop m n body (1 + (n - i)) i = some none
  rw [forLoop_skip hin (Nat.le_refl n) hnm hnone, forLoop, if_neg (Nat.lt_irrefl n)]

/-- The counter stays below `m`, and with it below the bound. -/
theorem forLoop_forever (hmn : m ≤ n) (hnone : ∀ j, j < m → body j = none) {i : ℕ} (hi : i < m)
    (turns : ℕ) : forLoop m n body turns i = none := by
  induction turns generalizing i with
  | zero => rfl
  | succ turns ih =>
    rw [forLoop, if_pos (by omega), hnone i hi]
    exact ih (Nat.mod_lt _ (by omega))

end Counter
