/-
Bisecting a sorted array by a first index and a number of elements.

The loop keeps `distance` elements from `base` on and looks at the one in their
middle.  It remembers the index it looked at last, so that a caller who finds
nothing knows the two places the key may belong.  What an element says about the
key is `look`: `.gt` if the key lies above it, `none` if there is no such element.

* `search_spec` — on answers that are divided, the loop finds the element that is
  equal, or leaves an index next to the place of the key; it looks at no element
  outside the array.
-/
import Mathlib.Data.List.Basic

namespace Bisect

/-- The loop; its answer is the index it looked at last, and whether that one is equal. -/
def search (look : ℕ → Option Ordering) (base idx distance : ℕ) : Option (ℕ × Bool) :=
  if distance = 0 then some (idx, false)
  else
    match look (base + distance / 2) with
    | none => none
    | some .eq => some (base + distance / 2, true)
    | some .gt => search look (base + distance / 2 + 1) (base + distance / 2) ((distance - 1) / 2)
    | some .lt => search look base (base + distance / 2) (distance / 2)
termination_by distance

/-- What the first `n` elements say: above, then equal at most once, then below. -/
def Divided (f : ℕ → Ordering) (n : ℕ) : Prop :=
  ∀ i j, i < j → j < n → f j ≠ .lt → f i = .gt

/-- The place of a key that is missing, next to the index looked at last. -/
def place (f : ℕ → Ordering) (idx : ℕ) : ℕ := if f idx = .lt then idx else idx + 1

/-- What is known of an answer of the loop. -/
structure Answer (f : ℕ → Ordering) (n : ℕ) (r : ℕ × Bool) : Prop where
  lt : 0 < n → r.1 < n
  found : r.2 = true → r.1 < n ∧ f r.1 = .eq
  missing : r.2 = false → ∀ i < n, f i = if i < place f r.1 then .gt else .lt

theorem Divided.lt_of_lt {f : ℕ → Ordering} {n : ℕ} (h : Divided f n) {i j : ℕ} (hij : i < j)
    (hj : j < n) (hi : f i = .lt) : f j = .lt := by
  by_contra hne
  have := h i j hij hj hne
  rw [hi] at this
  cases this

theorem Divided.gt_of_gt {f : ℕ → Ordering} {n : ℕ} (h : Divided f n) {i j : ℕ} (hij : i < j)
    (hj : j < n) (hgt : f j = .gt) : f i = .gt :=
  h i j hij hj (by rw [hgt]; simp)

/-- The range shrinks: what lies before it is above, what lies behind it below.  The index
looked at last is the one before the range, or the first one behind it. -/
theorem search_range {f : ℕ → Ordering} {n : ℕ} (hf : Divided f n) {look : ℕ → Option Ordering}
    (hlook : ∀ i < n, look i = some (f i)) {base idx distance : ℕ}
    (hn : base + distance ≤ n) (hbefore : ∀ i < base, f i = .gt)
    (hbehind : ∀ i, base + distance ≤ i → i < n → f i = .lt)
    (hidx : distance = 0 → 0 < n → idx < n ∧ place f idx = base) :
    ∃ r, search look base idx distance = some r ∧ Answer f n r := by
  induction distance using Nat.strongRecOn generalizing base idx with
  | ind distance ih =>
    rw [search]
    by_cases hd : distance = 0
    · -- the range is empty: the last element compared is beside the place
      rw [if_pos hd]
      refine ⟨(idx, false), rfl, ⟨fun h0 => (hidx hd h0).1, fun h => (by cases h), ?_⟩⟩
      intro _ i hi
      obtain ⟨-, hplace⟩ := hidx hd (by omega)
      show f i = if i < place f idx then .gt else .lt
      rw [hplace]
      by_cases hib : i < base
      · rw [if_pos hib, hbefore i hib]
      · rw [if_neg hib, hbehind i (by omega) hi]
    · have hmid : base + distance / 2 < n := by omega
      rw [if_neg hd, hlook _ hmid]
      cases hm : f (base + distance / 2) with
      | eq =>
        refine ⟨(base + distance / 2, true), rfl, ⟨fun _ => hmid, fun _ => ⟨hmid, hm⟩, ?_⟩⟩
        intro h
        cases h
      | gt =>
        -- the middle is too small: what is up to it is before the range
        refine ih ((distance - 1) / 2) (by omega) (by omega) ?_ ?_ ?_
        · intro i hi
          rcases Nat.lt_succ_iff_lt_or_eq.mp hi with h | rfl
          · exact hf.gt_of_gt h hmid hm
          · exact hm
        · intro i hi hin
          exact hbehind i (by omega) hin
        · intro _ _
          exact ⟨hmid, by rw [place, if_neg (by rw [hm]; simp)]⟩
      | lt =>
        -- the middle is too great: what is from it on is behind the range
        refine ih (distance / 2) (by omega) (by omega) hbefore ?_ ?_
        · intro i hi hin
          rcases Nat.eq_or_lt_of_le hi with rfl | h
          · exact hm
          · exact hf.lt_of_lt h hin hm
        · intro h0 _
          refine ⟨hmid, ?_⟩
          rw [place, if_pos hm]
          omega

/-- **The search.** -/
theorem search_spec {f : ℕ → Ordering} {n : ℕ} (hf : Divided f n) {look : ℕ → Option Ordering}
    (hlook : ∀ i < n, look i = some (f i)) : ∃ r, search look 0 0 n = some r ∧ Answer f n r :=
  search_range hf hlook (by omega) (fun i hi => absurd hi (Nat.not_lt_zero i))
    (fun i hi hin => absurd hin (by omega)) (fun h h0 => absurd h0 (by omega))

end Bisect
