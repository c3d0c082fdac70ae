/-
Binary search in an array, for every choice of the probe.

`bsearch` keeps a range `[l, u)` and asks the comparator about one element of
it.  Which one is the library's business (`Probe`); the standard asks only that
the comparator divides the array into elements above the needle, equal to it and
below it, in this order.

* `bsearch_some` — what is found is an element the comparator accepts;
* `bsearch_isSome` — on an array the comparator divides, an element is found
  exactly if there is one, whatever the probes.
-/
import Mathlib.Data.List.Basic
import Mathlib.Order.Basic

namespace BSearch

variable {α : Type*}

/-- How the next element is chosen from a non-empty range. -/
structure Probe where
  pick : ℕ → ℕ → ℕ
  le : ∀ {l u}, l < u → l ≤ pick l u
  lt : ∀ {l u}, l < u → pick l u < u

/-- The middle of the range. -/
def Probe.middle : Probe where
  pick l u := (l + u) / 2
  le h := by omega
  lt h := by omega

/-- The first element of the range. -/
def Probe.first : Probe where
  pick l _ := l
  le _ := Nat.le_refl _
  lt h := h

/-- The search in `[l, u)`; the fuel bounds the size of the range. -/
def search (cmp : α → Ordering) (probe : Probe) (xs : List α) : ℕ → ℕ → ℕ → Option α
  | 0, _, _ => none
  | n + 1, l, u =>
    if l < u then
      let idx := probe.pick l u
      match xs[idx]? with
      | none => none
      | some x =>
        match cmp x with
        | .lt => search cmp probe xs n l idx
        | .gt => search cmp probe xs n (idx + 1) u
        | .eq => some x
    else none

/-- `bsearch (needle, xs, …)`, where `cmp` compares the needle with an element. -/
def bsearch (cmp : α → Ordering) (probe : Probe) (xs : List α) : Option α :=
  search cmp probe xs xs.length 0 xs.length

/-- The comparator divides the array: elements below the needle come first,
elements above it last. -/
def Divides (cmp : α → Ordering) (xs : List α) : Prop :=
  xs.Pairwise fun a b => (cmp a = .lt → cmp b = .lt) ∧ (cmp b = .gt → cmp a = .gt)

theorem Divides.getElem {cmp : α → Ordering} {xs : List α} (h : Divides cmp xs) {i j : ℕ}
    {a b : α} (hi : xs[i]? = some a) (hj : xs[j]? = some b) (hij : i < j) :
    (cmp a = .lt → cmp b = .lt) ∧ (cmp b = .gt → cmp a = .gt) := by
  obtain ⟨hi', rfl⟩ := List.getElem?_eq_some_iff.mp hi
  obtain ⟨hj', rfl⟩ := List.getElem?_eq_some_iff.mp hj
  exact List.pairwise_iff_getElem.mp h i j hi' hj' hij

theorem search_some {cmp : α → Ordering} {probe : Probe} {xs : List α} {x : α} :
    ∀ {n l u}, search cmp probe xs n l u = some x → x ∈ xs ∧ cmp x = .eq := by
  intro n
  induction n with
  | zero => intro l u h; simp [search] at h
  | succ n ih =>
    intro l u h
    rw [search] at h
    split at h
    · rename_i hlu
      cases hx : xs[probe.pick l u]? with
      | none => simp [hx] at h
      | some y =>
        simp only [hx] at h
        cases hc : cmp y with
        | lt => rw [hc] at h; exact ih h
        | gt => rw [hc] at h; exact ih h
        | eq =>
          rw [hc] at h
          obtain rfl : y = x := by simpa using h
          exact ⟨List.mem_of_getElem? hx, hc⟩
    · simp at h

/-- What is found is an element of the array, and the comparator accepts it. -/
theorem bsearch_some {cmp : α → Ordering} {probe : Probe} {xs : List α} {x : α}
    (h : bsearch cmp probe xs = some x) : x ∈ xs ∧ cmp x = .eq := search_some h

/-- An element that the comparator accepts stays in the range until one is found. -/
theorem search_isSome {cmp : α → Ordering} {probe : Probe} {xs : List α} (hd : Divides cmp xs)
    {k : ℕ} {y : α} (hk : xs[k]? = some y) (hy : cmp y = .eq) :
    ∀ {n l u}, u - l ≤ n → l ≤ k → k < u → u ≤ xs.length →
      (search cmp probe xs n l u).isSome := by
  intro n
  induction n with
  | zero => intro l u hn hlk hku _; omega
  | succ n ih =>
    intro l u hn hlk hku hu
    have hlu : l < u := by omega
    have hle : l ≤ probe.pick l u := probe.le hlu
    have hlt : probe.pick l u < u := probe.lt hlu
    rw [search, if_pos hlu]
    obtain ⟨x, hx⟩ : ∃ x, xs[probe.pick l u]? = some x :=
      ⟨_, List.getElem?_eq_getElem (show probe.pick l u < xs.length by omega)⟩
    simp only [hx]
    -- the accepted element lies on the side the comparator sends us to
    cases hc : cmp x with
    | lt =>
      have hside : k < probe.pick l u := by
        by_contra hge
        rcases Nat.eq_or_lt_of_le (Nat.not_lt.mp hge) with heq | hlt'
        · rw [heq, hk, Option.some.injEq] at hx
          rw [← hx, hy] at hc
          cases hc
        · rw [(hd.getElem hx hk hlt').1 hc] at hy
          cases hy
      exact ih (by omega) hlk hside (by omega)
    | gt =>
      have hside : probe.pick l u < k := by
        by_contra hge
        rcases Nat.eq_or_lt_of_le (Nat.not_lt.mp hge) with heq | hlt'
        · rw [← heq, hk, Option.some.injEq] at hx
          rw [← hx, hy] at hc
          cases hc
        · rw [(hd.getElem hk hx hlt').2 hc] at hy
          cases hy
      exact ih (by omega) hside hku hu
    | eq => rfl

/-- **Something is found exactly if the comparator accepts something**, for
every order of the probes. -/
theorem bsearch_isSome {cmp : α → Ordering} {probe : Probe} {xs : List α} (hd : Divides cmp xs) :
    (bsearch cmp probe xs).isSome ↔ ∃ x ∈ xs, cmp x = .eq := by
  constructor
  · intro h
    obtain ⟨x, hx⟩ := Option.isSome_iff_exists.mp h
    exact ⟨x, bsearch_some hx⟩
  · rintro ⟨y, hmem, hy⟩
    obtain ⟨k, hk⟩ := List.getElem?_of_mem hmem
    have hlen : k < xs.length := (List.getElem?_eq_some_iff.mp hk).1
    exact search_isSome hd hk hy (by omega) (by omega) hlen (Nat.le_refl _)

end BSearch
