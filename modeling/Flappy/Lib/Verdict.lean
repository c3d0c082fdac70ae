/-
A result variable over a run.

Every step changes the state and may assign the result; what is returned at
the end is what was assigned last.

* `verdict_ne_iff` — the result differs from the initial value exactly if some
  step assigned another value and no later step was one that resets it.
-/
import Mathlib.Data.List.Basic
import Mathlib.Data.List.Induction

namespace Verdict

variable {σ α ρ : Type*} (step : σ → α → σ × Option ρ)

/-- The state after the steps. -/
def stateAfter (s : σ) (xs : List α) : σ := xs.foldl (fun s x => (step s x).1) s

/-- The state and the result after the steps. -/
def verdict (s : σ) (r : ρ) : List α → σ × ρ
  | [] => (s, r)
  | x :: xs => verdict (step s x).1 ((step s x).2.getD r) xs

variable {step}

theorem verdict_append (s : σ) (r : ρ) (xs ys : List α) :
    verdict step s r (xs ++ ys) =
      verdict step (verdict step s r xs).1 (verdict step s r xs).2 ys := by
  induction xs generalizing s r with
  | nil => rfl
  | cons x xs ih => exact ih _ _

theorem verdict_fst (s : σ) (r : ρ) (xs : List α) :
    (verdict step s r xs).1 = stateAfter step s xs := by
  induction xs generalizing s r with
  | nil => rfl
  | cons x xs ih => exact ih _ _

theorem verdict_concat (s : σ) (r : ρ) (xs : List α) (x : α) :
    (verdict step s r (xs ++ [x])).2 =
      (step (stateAfter step s xs) x).2.getD (verdict step s r xs).2 := by
  rw [verdict_append, ← verdict_fst s r]
  rfl

/-- Where a list with a last element can be split. -/
theorem concat_eq_split {xs pre post : List α} {x y : α} (h : xs ++ [x] = pre ++ y :: post) :
    (xs = pre ∧ x = y ∧ post = []) ∨ ∃ post', post = post' ++ [x] ∧ xs = pre ++ y :: post' := by
  rcases List.eq_nil_or_concat' post with rfl | ⟨post', z, rfl⟩
  · obtain ⟨rfl, hxy⟩ := List.append_inj' h rfl
    exact Or.inl ⟨rfl, by simpa using hxy, rfl⟩
  · rw [← List.cons_append, ← List.append_assoc] at h
    obtain ⟨rfl, hxz⟩ := List.append_inj' h rfl
    obtain rfl : x = z := by simpa using hxz
    exact Or.inr ⟨post', rfl, rfl⟩

/-- The result differs from the initial value exactly if some step assigned a
different one and no step that resets the result came later.  Such a step
always assigns; the others never assign the initial value. -/
theorem verdict_ne_iff {resets : α → Prop} {r₀ : ρ}
    (hassign : ∀ s x, resets x → (step s x).2 ≠ none)
    (hquiet : ∀ s x, ¬ resets x → (step s x).2 ≠ some r₀) (s : σ) (xs : List α) :
    (verdict step s r₀ xs).2 ≠ r₀ ↔
      ∃ pre x post, xs = pre ++ x :: post ∧
        (∃ r, (step (stateAfter step s pre) x).2 = some r ∧ r ≠ r₀) ∧ ∀ y ∈ post, ¬ resets y := by
  -- from the end: the last step either assigned, or left the result as it was
  induction xs using List.reverseRecOn with
  | nil => simp [verdict]
  | append_singleton xs x ih =>
    rw [verdict_concat]
    cases hx : (step (stateAfter step s xs) x).2 with
    | none =>
      have hres : ¬ resets x := fun h => hassign _ x h hx
      rw [Option.getD_none, ih]
      constructor
      · rintro ⟨pre, y, post, rfl, hy, hpost⟩
        refine ⟨pre, y, post ++ [x], by simp, hy, ?_⟩
        intro z hz
        rcases List.mem_append.mp hz with hz | hz
        · exact hpost z hz
        · rw [List.mem_singleton.mp hz]
          exact hres
      · rintro ⟨pre, y, post, heq, ⟨r, hr, hne⟩, hpost⟩
        rcases concat_eq_split heq with ⟨rfl, rfl, -⟩ | ⟨post', rfl, rfl⟩
        · rw [hx] at hr
          exact absurd hr (by simp)
        · exact ⟨pre, y, post', rfl, ⟨r, hr, hne⟩, fun z hz => hpost z (by simp [hz])⟩
    | some r =>
      rw [Option.getD_some]
      constructor
      · intro hne
        exact ⟨xs, x, [], by simp, ⟨r, hx, hne⟩, by simp⟩
      · rintro ⟨pre, y, post, heq, ⟨r', hr, hne⟩, hpost⟩ rfl
        have hres : resets x := by
          by_contra h
          exact hquiet _ x h hx
        rcases concat_eq_split heq with ⟨rfl, rfl, -⟩ | ⟨post', rfl, rfl⟩
        · rw [hx, Option.some.injEq] at hr
          exact hne hr.symm
        · exact hpost x (by simp) hres

end Verdict
