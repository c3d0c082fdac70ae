/-
Searches that may give up.

At each element a search finds it, gives up, or goes on to the next one.  One
that gives up misses what stands behind, so that the order of the elements
decides whether something is found.

* `seek_eq_some` — what is found, and where;
* `Patient.cases` — the first element of its kind, if no element is given up on;
* `patient_iff` — the lists in which every order gives the same answer.
-/
import Mathlib.Data.List.Basic
import Mathlib.Data.List.Perm.Basic

namespace Seek

/-- What a search does at an element. -/
inductive Turn where
  | found
  | stop
  | next
deriving DecidableEq, Repr

/-- A turn that asks for `p` finds where `p` holds. -/
theorem ite_found_iff (p : Prop) [Decidable p] :
    (if p then Turn.found else Turn.next) = .found ↔ p := by
  by_cases hp : p
  · simp [hp]
  · simp [hp]

/-- Such a turn gives up on nothing. -/
theorem ite_ne_stop (p : Prop) [Decidable p] : (if p then Turn.found else Turn.next) ≠ .stop := by
  by_cases hp : p
  · simp [hp]
  · simp [hp]

variable {α : Type*}

/-- The index of the element that is found. -/
def seek (turn : α → Turn) : List α → Option ℕ
  | [] => none
  | a :: as =>
    match turn a with
    | .found => some 0
    | .stop => none
    | .next => (seek turn as).map (· + 1)

/-- The search gives up nowhere, or there is nothing to find. -/
def Patient (turn : α → Turn) (as : List α) : Prop :=
  (∀ a ∈ as, turn a ≠ .stop) ∨ ∀ a ∈ as, turn a ≠ .found

variable {turn : α → Turn} {as bs : List α}

theorem seek_eq_some {k : ℕ} :
    seek turn as = some k ↔
      ∃ pre a post, as = pre ++ a :: post ∧ k = pre.length ∧ turn a = .found ∧
        ∀ x ∈ pre, turn x = .next := by
  induction as generalizing k with
  | nil =>
    constructor
    · intro h
      cases h
    · rintro ⟨pre, a, post, h, -⟩
      simp at h
  | cons a as ih =>
    rw [seek]
    rcases hturn : turn a with _ | _ | _
    · constructor
      · intro h
        obtain rfl : 0 = k := Option.some.inj h
        exact ⟨[], a, as, rfl, rfl, hturn, by simp⟩
      · rintro ⟨_ | ⟨x, pre⟩, b, post, h, rfl, -, hpre⟩
        · rfl
        · obtain ⟨rfl, -⟩ := List.cons.inj h
          rw [hpre a List.mem_cons_self] at hturn
          cases hturn
    · constructor
      · intro h
        cases h
      · rintro ⟨_ | ⟨x, pre⟩, b, post, h, -, hb, hpre⟩
        · obtain ⟨rfl, -⟩ := List.cons.inj h
          rw [hb] at hturn
          cases hturn
        · obtain ⟨rfl, -⟩ := List.cons.inj h
          rw [hpre a List.mem_cons_self] at hturn
          cases hturn
    · -- the element is passed over: the rest is searched
      show (seek turn as).map (· + 1) = some k ↔ _
      rw [Option.map_eq_some_iff]
      constructor
      · rintro ⟨k, hk, rfl⟩
        obtain ⟨pre, b, post, rfl, rfl, hb, hpre⟩ := ih.mp hk
        refine ⟨a :: pre, b, post, rfl, rfl, hb, ?_⟩
        intro x hx
        rcases List.mem_cons.mp hx with rfl | hx
        · exact hturn
        · exact hpre x hx
      · rintro ⟨_ | ⟨x, pre⟩, b, post, h, rfl, hb, hpre⟩
        · obtain ⟨rfl, -⟩ := List.cons.inj h
          rw [hb] at hturn
          cases hturn
        · obtain ⟨-, rfl⟩ := List.cons.inj h
          refine ⟨pre.length, ih.mpr ?_, rfl⟩
          exact ⟨pre, b, post, rfl, rfl, hb, fun y hy => hpre y (List.mem_cons_of_mem _ hy)⟩

/-- Up to an element to be found, or to the end, the search goes on. -/
theorem Patient.cases (h : Patient turn as) :
    (∃ pre a post, as = pre ++ a :: post ∧ seek turn as = some pre.length ∧ turn a = .found ∧
        ∀ x ∈ pre, turn x ≠ .found) ∨
      seek turn as = none ∧ ∀ a ∈ as, turn a ≠ .found := by
  rcases hseek : seek turn as with _ | k
  · refine Or.inr ⟨rfl, ?_⟩
    rcases h with hstop | hfound
    · intro a ha hfound
      -- the first of them would have been found
      induction as with
      | nil => cases ha
      | cons b as ih =>
        rw [seek] at hseek
        rcases hturn : turn b with _ | _ | _
        · rw [hturn] at hseek
          cases hseek
        · exact hstop b List.mem_cons_self hturn
        · rw [hturn] at hseek
          rcases List.mem_cons.mp ha with rfl | ha
          · rw [hfound] at hturn
            cases hturn
          · exact ih (Option.map_eq_none_iff.mp hseek)
              (fun x hx => hstop x (List.mem_cons_of_mem _ hx)) ha
    · exact hfound
  · obtain ⟨pre, a, post, rfl, rfl, ha, hpre⟩ := seek_eq_some.mp hseek
    refine Or.inl ⟨pre, a, post, rfl, rfl, ha, ?_⟩
    intro x hx hfound
    rw [hpre x hx] at hfound
    cases hfound

theorem Patient.isSome_iff (h : Patient turn as) :
    (seek turn as).isSome = true ↔ ∃ a ∈ as, turn a = .found := by
  rcases h.cases with ⟨pre, a, post, rfl, hseek, ha, -⟩ | ⟨hseek, hnone⟩
  · rw [hseek]
    exact ⟨fun _ => ⟨a, by simp, ha⟩, fun _ => rfl⟩
  · rw [hseek]
    constructor
    · intro hsome
      cases hsome
    · rintro ⟨a, ha, hfound⟩
      exact absurd hfound (hnone a ha)

theorem Patient.perm (h : Patient turn as) (hperm : bs.Perm as) : Patient turn bs := by
  rcases h with hstop | hfound
  · exact Or.inl fun b hb => hstop b (hperm.mem_iff.mp hb)
  · exact Or.inr fun b hb => hfound b (hperm.mem_iff.mp hb)

/-- **Every order gives the same answer exactly for patient searches**. -/
theorem patient_iff :
    Patient turn as ↔
      ∀ bs, bs.Perm as → ((seek turn bs).isSome = true ↔ ∃ a ∈ as, turn a = .found) := by
  constructor
  · intro h bs hperm
    rw [(h.perm hperm).isSome_iff]
    constructor
    · rintro ⟨b, hb, hfound⟩
      exact ⟨b, hperm.mem_iff.mp hb, hfound⟩
    · rintro ⟨a, ha, hfound⟩
      exact ⟨a, hperm.mem_iff.mpr ha, hfound⟩
  · intro h
    by_contra hcon
    rw [Patient, not_or] at hcon
    obtain ⟨hstop, hfound⟩ := hcon
    simp only [not_forall, not_not] at hstop hfound
    obtain ⟨a, ha, hturn⟩ := hstop
    obtain ⟨b, hb, hb'⟩ := hfound
    -- in front of all others, the element that is given up on hides them
    obtain ⟨pre, post, rfl⟩ := List.append_of_mem ha
    have hsome := (h (a :: (pre ++ post)) List.perm_middle.symm).mpr ⟨b, hb, hb'⟩
    rw [seek, hturn] at hsome
    cases hsome

end Seek
