/-
Loops with a measure that goes down.

A turn of the loop gives the next state or the result.  If every turn that goes on
makes the measure smaller, the loop has a result for every state.

* `run_inl`, `run_inr` — a turn of the loop;
* `run_induction` — what the turns keep holds of the result.
-/
import Mathlib.Data.Nat.Notation
import Mathlib.Tactic.TypeStar

namespace Loop

variable {σ ρ : Type*} (step : σ → σ ⊕ ρ)

/-- The result, if there is one within so many turns. -/
def within : ℕ → σ → Option ρ
  | 0, _ => none
  | n + 1, s =>
    match step s with
    | .inl s' => within n s'
    | .inr r => some r

/-- A measure that every turn makes smaller. -/
structure Measure where
  size : σ → ℕ
  lt : ∀ {s s'}, step s = .inl s' → size s' < size s

variable {step}

theorem within_isSome (μ : Measure step) {n : ℕ} {s : σ} (hn : μ.size s < n) :
    (within step n s).isSome = true := by
  induction n generalizing s with
  | zero => exact absurd hn (Nat.not_lt_zero _)
  | succ n ih =>
    rw [within]
    cases hs : step s with
    | inl s' =>
      have hlt := μ.lt hs
      exact ih (by omega)
    | inr r => rfl

theorem within_mono {n m : ℕ} {s : σ} {r : ρ} (h : within step n s = some r) (hnm : n ≤ m) :
    within step m s = some r := by
  induction n generalizing s m with
  | zero => cases h
  | succ n ih =>
    obtain ⟨m, rfl⟩ : ∃ k, m = k + 1 := ⟨m - 1, by omega⟩
    rw [within] at h ⊢
    cases hs : step s with
    | inl s' =>
      rw [hs] at h
      exact ih h (by omega)
    | inr r' =>
      rw [hs] at h
      exact h

/-- The loop. -/
def run (μ : Measure step) (s : σ) : ρ :=
  (within step (μ.size s + 1) s).get (within_isSome μ (Nat.lt_succ_self _))

variable {μ : Measure step} {s s' : σ} {r : ρ}

theorem run_eq_iff : run μ s = r ↔ ∃ n, within step n s = some r := by
  constructor
  · rintro rfl
    exact ⟨_, (Option.some_get _).symm⟩
  · rintro ⟨n, hn⟩
    have hrun : within step (μ.size s + 1) s = some (run μ s) := (Option.some_get _).symm
    have h₁ := within_mono hn (Nat.le_max_left n (μ.size s + 1))
    have h₂ := within_mono hrun (Nat.le_max_right n (μ.size s + 1))
    rw [h₁] at h₂
    exact (Option.some.inj h₂).symm

/-- A turn that goes on. -/
theorem run_inl (h : step s = .inl s') : run μ s = run μ s' := by
  rw [run_eq_iff]
  obtain ⟨n, hn⟩ := run_eq_iff.mp (Eq.refl (run μ s'))
  refine ⟨n + 1, ?_⟩
  rw [within, h]
  exact hn

/-- A turn that ends the loop. -/
theorem run_inr (h : step s = .inr r) : run μ s = r := by
  rw [run_eq_iff]
  exact ⟨1, by rw [within, h]⟩

/-- What every turn keeps, and the last one turns into `Q`. -/
theorem run_induction {P : σ → Prop} {Q : ρ → Prop}
    (hstep : ∀ s s', P s → step s = .inl s' → P s') (hend : ∀ s r, P s → step s = .inr r → Q r)
    (hs : P s) : Q (run μ s) := by
  obtain ⟨n, hn⟩ := run_eq_iff.mp (Eq.refl (run μ s))
  generalize run μ s = r at hn
  induction n generalizing s with
  | zero => cases hn
  | succ n ih =>
    rw [within] at hn
    cases h : step s with
    | inl s' =>
      rw [h] at hn
      exact ih (hstep s s' hs h) hn
    | inr r' =>
      rw [h] at hn
      obtain rfl := Option.some.inj hn
      exact hend s r' hs h

end Loop
