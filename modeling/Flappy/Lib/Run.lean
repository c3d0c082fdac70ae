/-
Runs of a machine whose steps may be impossible.

The events are given; a run is their list.  What a step has to meet is read at the
state before it.

* `run`, `Along` — a run, and a run whose steps all meet a condition;
* `run_invariant` — what every such step keeps holds after the run;
* `exists_run` — an invariant under which every step is possible.
-/
import Mathlib.Data.List.Basic

namespace Run

variable {σ ε : Type*} (step : σ → ε → Option σ)

/-- The state after the events; `none` if one of them was impossible. -/
def run (s : σ) : List ε → Option σ
  | [] => some s
  | e :: es => (step s e).bind fun s' => run s' es

/-- Every step of the run meets `ok`. -/
def Along (ok : σ → ε → Prop) (s : σ) : List ε → Prop
  | [] => True
  | e :: es =>
    ok s e ∧
      match step s e with
      | none => True
      | some s' => Along ok s' es

instance decidableAlong (ok : σ → ε → Prop) [∀ s e, Decidable (ok s e)] :
    (s : σ) → (es : List ε) → Decidable (Along step ok s es)
  | _, [] => inferInstanceAs (Decidable True)
  | s, e :: es =>
    match h : step s e with
    | none => decidable_of_iff (ok s e) (by simp [Along, h])
    | some s' =>
      have := decidableAlong ok s' es
      decidable_of_iff (ok s e ∧ Along step ok s' es) (by simp [Along, h])

variable {step} {ok : σ → ε → Prop}

@[simp] theorem run_nil (s : σ) : run step s [] = some s := rfl

theorem run_cons_eq_some {s s' : σ} {e : ε} {es : List ε} :
    run step s (e :: es) = some s' ↔ ∃ s₁, step s e = some s₁ ∧ run step s₁ es = some s' := by
  simp [run, Option.bind_eq_some_iff]

theorem along_of_forall (hok : ∀ s e, ok s e) (s : σ) (es : List ε) : Along step ok s es := by
  induction es generalizing s with
  | nil => trivial
  | cons e es ih =>
    refine ⟨hok s e, ?_⟩
    cases step s e with
    | none => trivial
    | some s' => exact ih s'

/-- What every step that meets the condition keeps, a run keeps. -/
theorem run_invariant {Inv : σ → Prop}
    (hstep : ∀ s e s', Inv s → ok s e → step s e = some s' → Inv s') {s s' : σ} {es : List ε}
    (hs : Inv s) (hok : Along step ok s es) (hrun : run step s es = some s') : Inv s' := by
  induction es generalizing s with
  | nil =>
    cases hrun
    exact hs
  | cons e es ih =>
    obtain ⟨s₁, h₁, hrun⟩ := run_cons_eq_some.mp hrun
    obtain ⟨he, hes⟩ := hok
    rw [h₁] at hes
    exact ih (hstep s e s₁ hs he h₁) hes hrun

/-- What every step keeps, a run keeps. -/
theorem run_keeps {I : σ → Prop} (hstep : ∀ s e s', I s → step s e = some s' → I s')
    {s s' : σ} {es : List ε} (hs : I s) (hrun : run step s es = some s') : I s' := by
  have hok : Along step (fun _ _ => True) s es := along_of_forall (fun _ _ => trivial) s es
  exact run_invariant (fun s e s' hs _ h => hstep s e s' hs h) hs hok hrun

/-- Steps that are possible wherever the invariant holds, and keep it, make every run possible. -/
theorem exists_run {I : σ → Prop} (hstep : ∀ s e, I s → ∃ s', step s e = some s' ∧ I s') {s : σ}
    (hs : I s) (es : List ε) : ∃ s', run step s es = some s' ∧ I s' := by
  induction es generalizing s with
  | nil => exact ⟨s, rfl, hs⟩
  | cons e es ih =>
    obtain ⟨s₁, h₁, hs₁⟩ := hstep s e hs
    obtain ⟨s', hrun, hs'⟩ := ih hs₁
    exact ⟨s', run_cons_eq_some.mpr ⟨s₁, h₁, hrun⟩, hs'⟩

/-- Steps that are possible wherever the invariant holds and the condition is met, and keep the
invariant: a run goes on to its end, or to a step that does not meet the condition. -/
theorem exists_run_or (ok : σ → ε → Prop) {I : σ → Prop}
    (hstep : ∀ s e, I s → ok s e → ∃ s', step s e = some s' ∧ I s') {s : σ} (hs : I s)
    (es : List ε) :
    (∃ s', run step s es = some s' ∧ I s') ∨
      ∃ before e after s', es = before ++ e :: after ∧ run step s before = some s' ∧ I s' ∧
        ¬ ok s' e := by
  induction es generalizing s with
  | nil => exact Or.inl ⟨s, rfl, hs⟩
  | cons e es ih =>
    by_cases he : ok s e
    · obtain ⟨s₁, h₁, hs₁⟩ := hstep s e hs he
      obtain ⟨s', hrun, hs'⟩ | ⟨before, e', after, s', rfl, hrun, hs', hno⟩ := ih hs₁
      · exact Or.inl ⟨s', run_cons_eq_some.mpr ⟨s₁, h₁, hrun⟩, hs'⟩
      · exact Or.inr ⟨e :: before, e', after, s', rfl, run_cons_eq_some.mpr ⟨s₁, h₁, hrun⟩, hs',
          hno⟩
    · exact Or.inr ⟨[], e, es, s, rfl, rfl, hs, he⟩

end Run
