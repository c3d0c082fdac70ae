/-
The best offer for each key.

Values with a key are offered one after the other, and a list keeps one of them
for each key.  Whether a value is better than another one is a relation that
is transitive on the offers; nothing is said about values that are equally good.

* `Best` — the list holds, for every key that was offered, one value, and none of
  the offers is better;
* `Best.keep`, `Best.add`, `Best.replace` — the three ways to go on with an offer;
* `Best.unique` — two such lists for the same offers agree up to values that are
  equally good;
* `Greatest` — the same with one key: nothing is held, or one best value;
* `EarliestBest` — one best value of a list of places that may offer one, and the
  first of those: `EarliestBest.step` for the next place, `EarliestBest.unique` for
  the places in another order.
-/
import Mathlib.Data.List.Pairwise

variable {α κ : Type*} {key : α → κ} {le : α → α → Prop}

/-- `l` holds one best value of `offers` for each key. -/
structure Best (key : α → κ) (le : α → α → Prop) (offers l : List α) : Prop where
  distinct : l.Pairwise fun a b => key a ≠ key b
  offered : l ⊆ offers
  covers : ∀ o ∈ offers, ∃ a ∈ l, key a = key o ∧ le o a

namespace Best

theorem nil : Best key le [] [] := ⟨List.Pairwise.nil, fun _ h => h, fun _ h => by cases h⟩

/-- No two values of the list have the same key. -/
theorem eq_of_key {offers l : List α} (h : Best key le offers l) {a b : α} (ha : a ∈ l)
    (hb : b ∈ l) (hk : key a = key b) : a = b := by
  by_contra hne
  have hsymm : Std.Symm fun a b : α => key a ≠ key b := ⟨fun _ _ h h' => h h'.symm⟩
  exact h.distinct.forall ha hb hne hk

/-- Nothing that was offered is better than the value that is held. -/
theorem le_of_mem {offers l : List α} (h : Best key le offers l) {a o : α} (ha : a ∈ l)
    (ho : o ∈ offers) (hk : key o = key a) : le o a := by
  obtain ⟨b, hb, hkb, hle⟩ := h.covers o ho
  rwa [← h.eq_of_key hb ha (hkb.trans hk)]

/-- The offer is not better than the value that is held. -/
theorem keep {offers l : List α} (h : Best key le offers l) {a o : α} (ha : a ∈ l)
    (hk : key a = key o) (hle : le o a) : Best key le (offers ++ [o]) l := by
  refine ⟨h.distinct, fun b hb => List.mem_append_left _ (h.offered hb), fun o' ho' => ?_⟩
  rcases List.mem_append.mp ho' with ho' | ho'
  · exact h.covers o' ho'
  · rw [List.mem_singleton.mp ho']
    exact ⟨a, ha, hk, hle⟩

/-- Nothing is held for the key of the offer. -/
theorem add {offers l : List α} (h : Best key le offers l) {o : α} (hnew : ∀ a ∈ l, key a ≠ key o)
    (hrefl : le o o) : Best key le (offers ++ [o]) (l ++ [o]) := by
  refine ⟨?_, fun b hb => ?_, fun o' ho' => ?_⟩
  · rw [List.pairwise_append]
    refine ⟨h.distinct, List.pairwise_singleton _ _, fun a ha b hb => ?_⟩
    rw [List.mem_singleton.mp hb]
    exact hnew a ha
  · rcases List.mem_append.mp hb with hb | hb
    · exact List.mem_append_left _ (h.offered hb)
    · exact List.mem_append_right _ hb
  · rcases List.mem_append.mp ho' with ho' | ho'
    · obtain ⟨a, ha, hk, hle⟩ := h.covers o' ho'
      exact ⟨a, List.mem_append_left _ ha, hk, hle⟩
    · rw [List.mem_singleton.mp ho']
      exact ⟨o, List.mem_append_right _ List.mem_cons_self, rfl, hrefl⟩

/-- The offer is better than the value that is held, which it replaces. -/
theorem replace {offers l₁ l₂ : List α} {a o : α} (h : Best key le offers (l₁ ++ a :: l₂))
    (hk : key a = key o) (hle : le a o) (hrefl : le o o)
    (htrans : ∀ x ∈ offers, key x = key o → le x a → le a o → le x o) :
    Best key le (offers ++ [o]) (l₁ ++ l₂ ++ [o]) := by
  -- the others have other keys
  obtain ⟨h₁, h₂, h₁₂⟩ := List.pairwise_append.mp h.distinct
  obtain ⟨ha₂, h₂⟩ := List.pairwise_cons.mp h₂
  have hother : ∀ b ∈ l₁ ++ l₂, key b ≠ key o := by
    intro b hb
    rcases List.mem_append.mp hb with hb | hb
    · exact fun hbo => h₁₂ b hb a List.mem_cons_self (hbo.trans hk.symm)
    · exact fun hbo => ha₂ b hb (hk.trans hbo.symm)
  refine ⟨?_, fun b hb => ?_, fun o' ho' => ?_⟩
  · rw [List.pairwise_append, List.pairwise_append]
    refine ⟨⟨h₁, h₂, fun x hx y hy => h₁₂ x hx y (List.mem_cons_of_mem a hy)⟩,
      List.pairwise_singleton _ _, fun b hb x hx => ?_⟩
    rw [List.mem_singleton.mp hx]
    exact hother b hb
  · rcases List.mem_append.mp hb with hb | hb
    · refine List.mem_append_left _ (h.offered ?_)
      rcases List.mem_append.mp hb with hb | hb
      · exact List.mem_append_left _ hb
      · exact List.mem_append_right _ (List.mem_cons_of_mem a hb)
    · exact List.mem_append_right _ hb
  · have ho : o ∈ l₁ ++ l₂ ++ [o] := List.mem_append_right _ List.mem_cons_self
    rcases List.mem_append.mp ho' with ho' | ho'
    · obtain ⟨b, hb, hkb, hlb⟩ := h.covers o' ho'
      rcases List.mem_append.mp hb with hb | hb
      · exact ⟨b, List.mem_append_left _ (List.mem_append_left _ hb), hkb, hlb⟩
      · rcases List.mem_cons.mp hb with rfl | hb
        · exact ⟨o, ho, hk.symm.trans hkb, htrans o' ho' (hkb.symm.trans hk) hlb hle⟩
        · exact ⟨b, List.mem_append_left _ (List.mem_append_right _ hb), hkb, hlb⟩
    · rw [List.mem_singleton.mp ho']
      exact ⟨o, ho, rfl, hrefl⟩

/-- What is held for a key does not depend on the order of the offers, up to values that are
equally good. -/
theorem unique {offers offers' l l' : List α} (h : Best key le offers l)
    (h' : Best key le offers' l') (hsub : offers ⊆ offers') (hsub' : offers' ⊆ offers) {a : α}
    (ha : a ∈ l) : ∃ b ∈ l', key b = key a ∧ le a b ∧ le b a := by
  obtain ⟨b, hb, hk, hle⟩ := h'.covers a (hsub (h.offered ha))
  exact ⟨b, hb, hk, hle, h.le_of_mem ha (hsub' (h'.offered hb)) hk⟩

end Best

/-- `held` is one best value of those that were offered; nothing is held if there was none. -/
structure Greatest (le : α → α → Prop) (offers : α → Prop) (held : Option α) : Prop where
  offered : ∀ a ∈ held, offers a
  covers : ∀ o, offers o → ∃ a ∈ held, le o a

namespace Greatest

variable {offers : α → Prop} {held : Option α}

/-- What is held at the beginning. -/
theorem start (hrefl : ∀ a, le a a) (held : Option α) : Greatest le (· ∈ held) held :=
  ⟨fun _ h => h, fun o h => ⟨o, h, hrefl o⟩⟩

theorem congr {offers' : α → Prop} (h : Greatest le offers held)
    (hiff : ∀ a, offers a ↔ offers' a) : Greatest le offers' held :=
  ⟨fun a ha => (hiff a).mp (h.offered a ha), fun o ho => h.covers o ((hiff o).mpr ho)⟩

/-- The offer is not better than the value that is held. -/
theorem keep {a o : α} (h : Greatest le offers (some a)) (hle : le o a) :
    Greatest le (fun x => offers x ∨ x = o) (some a) := by
  refine ⟨fun x hx => Or.inl (h.offered x hx), fun x hx => ?_⟩
  rcases hx with hx | rfl
  · exact h.covers x hx
  · exact ⟨a, rfl, hle⟩

/-- The offer takes the place of the value that is held, if any. -/
theorem replace {o : α} (h : Greatest le offers held) (hle : ∀ a ∈ held, le a o)
    (hrefl : le o o) (htrans : ∀ x, offers x → ∀ a ∈ held, le x a → le a o → le x o) :
    Greatest le (fun x => offers x ∨ x = o) (some o) := by
  refine ⟨fun x hx => Or.inr (Option.mem_some_iff.mp hx).symm, fun x hx => ⟨o, rfl, ?_⟩⟩
  rcases hx with hx | rfl
  · obtain ⟨a, ha, hxa⟩ := h.covers x hx
    exact htrans x hx a ha hxa (hle a ha)
  · exact hrefl

/-- What is held does not depend on the order of the offers, up to values that are equally
good. -/
theorem unique {held' : Option α} (h : Greatest le offers held) (h' : Greatest le offers held') :
    (∀ a ∈ held, ∃ b ∈ held', le a b) ∧ ∀ b ∈ held', ∃ a ∈ held, le b a :=
  ⟨fun a ha => h'.covers a (h.offered a ha), fun b hb => h.covers b (h'.offered b hb)⟩

end Greatest

/-- `held` is the first best value that the places of `l` offer; nothing is held if none offers
one. -/
inductive EarliestBest {β : Type*} (le : α → α → Prop) (offer : β → Option α) (l : List β) :
    Option α → Prop where
  | none : (∀ c ∈ l, offer c = none) → EarliestBest le offer l none
  | some {l₁ l₂ : List β} {b : β} {a : α} : l = l₁ ++ b :: l₂ → offer b = some a →
      (∀ c ∈ l, ∀ x, offer c = some x → le x a) →
      (∀ c ∈ l₁, ∀ x, offer c = some x → ¬ le a x) → EarliestBest le offer l (some a)

namespace EarliestBest

variable {β : Type*} {offer : β → Option α} {l : List β} {held : Option α}

/-- Nothing is held exactly if nothing is offered. -/
theorem eq_none_iff (h : EarliestBest le offer l held) : held = .none ↔ ∀ c ∈ l, offer c = .none := by
  cases h with
  | none h => simpa using h
  | some hl hb _ _ =>
    subst hl
    simp only [reduceCtorEq, false_iff]
    intro hnone
    have := hnone _ (List.mem_append_right _ List.mem_cons_self)
    rw [hb] at this
    cases this

/-- What is held was offered. -/
theorem offered (h : EarliestBest le offer l held) {a : α} (ha : held = .some a) :
    ∃ b ∈ l, offer b = .some a := by
  cases h with
  | none _ => cases ha
  | some hl hb _ _ =>
    obtain rfl := Option.some.inj ha
    subst hl
    exact ⟨_, List.mem_append_right _ List.mem_cons_self, hb⟩

/-- A place that offers nothing. -/
theorem pass (h : EarliestBest le offer l held) {b : β} (hb : offer b = .none) :
    EarliestBest le offer (l ++ [b]) held := by
  have hmem : ∀ c ∈ l ++ [b], ∀ x, offer c = .some x → c ∈ l := by
    intro c hc x hx
    rcases List.mem_append.mp hc with hc | hc
    · exact hc
    · rw [List.mem_singleton.mp hc, hb] at hx
      cases hx
  cases h with
  | none h =>
    refine .none fun c hc => ?_
    rcases List.mem_append.mp hc with hc | hc
    · exact h c hc
    · rw [List.mem_singleton.mp hc, hb]
  | @some l₁ l₂ b' _ hl hb' hle hlt =>
    have hsplit : l ++ [b] = l₁ ++ b' :: (l₂ ++ [b]) := by
      rw [hl, List.append_assoc, List.cons_append]
    exact .some hsplit hb' (fun c hc x hx => hle c (hmem c hc x hx) x hx) hlt

/-- The first offer. -/
theorem first (h : EarliestBest le offer l .none) {b : β} {o : α} (hb : offer b = .some o)
    (hrefl : le o o) : EarliestBest le offer (l ++ [b]) (.some o) := by
  have hnone := h.eq_none_iff.mp rfl
  have hsplit : l ++ [b] = l ++ b :: [] := rfl
  refine .some hsplit hb (fun c hc x hx => ?_) fun c hc x hx => ?_
  · rcases List.mem_append.mp hc with hc | hc
    · rw [hnone c hc] at hx
      cases hx
    · rw [List.mem_singleton.mp hc, hb] at hx
      rw [← Option.some.inj hx]
      exact hrefl
  · rw [hnone c hc] at hx
    cases hx

/-- An offer that is not better than what is held. -/
theorem keep {a : α} (h : EarliestBest le offer l (.some a)) {b : β} {o : α}
    (hb : offer b = .some o) (hle : le o a) : EarliestBest le offer (l ++ [b]) (.some a) := by
  cases h with
  | @some l₁ l₂ b' _ hl hb' hcov hlt =>
    have hsplit : l ++ [b] = l₁ ++ b' :: (l₂ ++ [b]) := by
      rw [hl, List.append_assoc, List.cons_append]
    refine .some hsplit hb' (fun c hc x hx => ?_) hlt
    rcases List.mem_append.mp hc with hc | hc
    · exact hcov c hc x hx
    · rw [List.mem_singleton.mp hc, hb] at hx
      rw [← Option.some.inj hx]
      exact hle

/-- An offer that is better than what is held takes its place. -/
theorem replace {a : α} (h : EarliestBest le offer l (.some a)) {b : β} {o : α}
    (hb : offer b = .some o) (hlt : ¬ le o a)
    (htrans : ∀ c ∈ l, ∀ x, offer c = .some x → (le x a → le x o) ∧ (le o x → le x a → le o a))
    (hrefl : le o o) : EarliestBest le offer (l ++ [b]) (.some o) := by
  cases h with
  | some hl hb' hcov hbefore =>
    have hsplit : l ++ [b] = l ++ b :: [] := rfl
    refine .some hsplit hb (fun c hc x hx => ?_) fun c hc x hx hox => ?_
    · rcases List.mem_append.mp hc with hc | hc
      · exact (htrans c hc x hx).1 (hcov c hc x hx)
      · rw [List.mem_singleton.mp hc, hb] at hx
        rw [← Option.some.inj hx]
        exact hrefl
    · -- an earlier offer at least as good would be at least as good as what was held
      exact hlt ((htrans c hc x hx).2 hox (hcov c hc x hx))

/-- In another order of the places the value that is held is equally good. -/
theorem unique {l' : List β} {held' : Option α} (h : EarliestBest le offer l held)
    (h' : EarliestBest le offer l' held') (hperm : l'.Perm l) :
    held'.isSome = held.isSome ∧ ∀ a ∈ held, ∀ b ∈ held', le a b ∧ le b a := by
  have hnone : held' = .none ↔ held = .none := by
    rw [h.eq_none_iff, h'.eq_none_iff]
    simp only [hperm.mem_iff]
  refine ⟨?_, fun a ha b hb => ?_⟩
  · cases held <;> cases held' <;> simp_all
  · obtain rfl := Option.mem_def.mp ha
    obtain rfl := Option.mem_def.mp hb
    cases h with
    | some hl ho hcov _ =>
      cases h' with
      | some hl' ho' hcov' _ =>
        subst hl hl'
        exact ⟨hcov' _ (hperm.mem_iff.mpr (List.mem_append_right _ List.mem_cons_self)) _ ho,
          hcov _ (hperm.mem_iff.mp (List.mem_append_right _ List.mem_cons_self)) _ ho'⟩

end EarliestBest
