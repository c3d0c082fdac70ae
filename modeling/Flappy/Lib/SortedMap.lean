/-
Maps as lists of entries with increasing keys.

The order is given by a comparison function, as `bsearch` or `strcmp` give it.
There is one such list for every finite map: `ext`.  The indices at which a
bisection ends are the ones at which an entry is replaced, put in, or taken out.

* `get_insert`, `get_erase` — read over write;
* `Sorted.insert`, `Sorted.erase` — the order is kept;
* `set_found`, `insertIdx_place`, `eraseIdx_found` — the operations by index.
-/
import Flappy.Lib.Bisect
import Mathlib.Data.List.Nodup

namespace SortedMap

open Bisect Std

variable {κ α : Type*} (cmp : κ → κ → Ordering)

/-- The keys increase. -/
def Sorted (l : List (κ × α)) : Prop := l.Pairwise fun a b => cmp a.1 b.1 = .lt

/-- The value under a key. -/
def get (l : List (κ × α)) (key : κ) : Option α :=
  (l.find? fun e => cmp key e.1 = .eq).map Prod.snd

/-- A value put under a key. -/
def insert (key : κ) (x : α) : List (κ × α) → List (κ × α)
  | [] => [(key, x)]
  | e :: l =>
    match cmp key e.1 with
    | .lt => (key, x) :: e :: l
    | .eq => (e.1, x) :: l
    | .gt => e :: insert key x l

/-- A key taken out. -/
def erase (key : κ) (l : List (κ × α)) : List (κ × α) := l.filter fun e => cmp key e.1 ≠ .eq

/-- What the entry at an index says about a key. -/
def sign (l : List (κ × α)) (key : κ) (i : ℕ) : Ordering :=
  (l[i]?.map fun e => cmp key e.1).getD .lt

variable {cmp} {l : List (κ × α)} {key k : κ} {x : α} {e : κ × α}

@[simp] theorem get_nil : get cmp ([] : List (κ × α)) key = none := rfl

theorem get_cons : get cmp (e :: l) key = if cmp key e.1 = .eq then some e.2 else get cmp l key := by
  rw [get, List.find?_cons]
  by_cases h : cmp key e.1 = .eq
  · simp [h]
  · simp [h, get]

@[simp] theorem sign_cons_zero : sign cmp (e :: l) key 0 = cmp key e.1 := rfl

@[simp] theorem sign_cons_succ {i : ℕ} : sign cmp (e :: l) key (i + 1) = sign cmp l key i := by
  rw [sign, List.getElem?_cons_succ, sign]

theorem sign_eq {i : ℕ} (hi : i < l.length) : sign cmp l key i = cmp key l[i].1 := by
  rw [sign, List.getElem?_eq_getElem hi]
  rfl

theorem mem_insert {a : κ × α} (h : a ∈ insert cmp key x l) :
    a = (key, x) ∨ a ∈ l ∨ ∃ b ∈ l, cmp key b.1 = .eq ∧ a = (b.1, x) := by
  induction l with
  | nil => exact Or.inl (List.mem_singleton.mp h)
  | cons e l ih =>
    rw [insert] at h
    split at h
    · rcases List.mem_cons.mp h with rfl | h
      · exact Or.inl rfl
      · exact Or.inr (Or.inl h)
    · rename_i heq
      rcases List.mem_cons.mp h with rfl | h
      · exact Or.inr (Or.inr ⟨e, List.mem_cons_self, heq, rfl⟩)
      · exact Or.inr (Or.inl (List.mem_cons_of_mem _ h))
    · rcases List.mem_cons.mp h with rfl | h
      · exact Or.inr (Or.inl List.mem_cons_self)
      · rcases ih h with rfl | h | ⟨b, hb, heq, rfl⟩
        · exact Or.inl rfl
        · exact Or.inr (Or.inl (List.mem_cons_of_mem _ h))
        · exact Or.inr (Or.inr ⟨b, List.mem_cons_of_mem _ hb, heq, rfl⟩)

theorem Sorted.erase (h : Sorted cmp l) (key : κ) : Sorted cmp (SortedMap.erase cmp key l) :=
  h.sublist List.filter_sublist

theorem get_map_value {β : Type*} (f : α → β) (l : List (κ × α)) (key : κ) :
    get cmp (l.map fun e => (e.1, f e.2)) key = (get cmp l key).map f := by
  induction l with
  | nil => rfl
  | cons e l ih =>
    rw [List.map_cons, get_cons, get_cons, ih]
    by_cases h : cmp key e.1 = .eq
    · rw [if_pos h, if_pos h, Option.map_some]
    · rw [if_neg h, if_neg h]

theorem insertIdx_place {p : ℕ} (hp : p ≤ l.length)
    (h : ∀ i < l.length, sign cmp l key i = if i < p then .gt else .lt) :
    l.insertIdx p (key, x) = insert cmp key x l := by
  induction l generalizing p with
  | nil =>
    obtain rfl := Nat.le_zero.mp hp
    rfl
  | cons e l ih =>
    have h0 := h 0 (Nat.succ_pos _)
    rw [sign_cons_zero] at h0
    rcases p with _ | p
    · rw [if_neg (by omega)] at h0
      rw [insert, h0]
      rfl
    · rw [if_pos (by omega)] at h0
      rw [insert, h0, List.insertIdx_succ_cons]
      show e :: l.insertIdx p (key, x) = e :: insert cmp key x l
      rw [ih (Nat.le_of_succ_le_succ hp)]
      intro i hi
      have := h (i + 1) (Nat.succ_lt_succ hi)
      rw [sign_cons_succ] at this
      rw [this]
      by_cases hip : i < p
      · rw [if_pos hip, if_pos (by omega)]
      · rw [if_neg hip, if_neg (by omega)]

/-- A key that is not there is put in. -/
theorem perm_insert (h : get cmp l key = none) : (insert cmp key x l).Perm ((key, x) :: l) := by
  induction l with
  | nil => exact .refl _
  | cons e l ih =>
    rw [get_cons] at h
    rw [insert]
    split
    · exact .refl _
    · rename_i heq
      rw [if_pos heq] at h
      cases h
    · rename_i hgt
      rw [if_neg (by rw [hgt]; simp)] at h
      exact ((ih h).cons e).trans (.swap _ _ _)

theorem erase_of_get_none (h : get cmp l key = none) : erase cmp key l = l := by
  rw [get, Option.map_eq_none_iff, List.find?_eq_none] at h
  rw [erase, List.filter_eq_self]
  intro a ha
  simpa using h a ha

theorem length_erase_lt (h : get cmp l key ≠ none) : (erase cmp key l).length < l.length := by
  rw [erase, List.length_filter_lt_length_iff_exists]
  obtain ⟨x, hx⟩ := Option.ne_none_iff_exists'.mp h
  rw [get, Option.map_eq_some_iff] at hx
  obtain ⟨a, hfind, -⟩ := hx
  exact ⟨a, List.mem_of_find?_eq_some hfind, by simpa using List.find?_some hfind⟩

section Order

/-- A key above all others goes to the end. -/
theorem insert_last [OrientedCmp cmp] (h : ∀ e ∈ l, cmp e.1 key = .lt) :
    insert cmp key x l = l ++ [(key, x)] := by
  induction l with
  | nil => rfl
  | cons e l ih =>
    have he := OrientedCmp.gt_of_lt (h e List.mem_cons_self)
    rw [insert, he]
    exact congrArg (e :: ·) (ih fun e he => h e (List.mem_cons_of_mem _ he))

theorem Sorted.insert [TransCmp cmp] (h : Sorted cmp l) : Sorted cmp (insert cmp key x l) := by
  induction l with
  | nil => exact List.pairwise_singleton _ _
  | cons e l ih =>
    obtain ⟨he, hl⟩ := List.pairwise_cons.mp h
    rw [SortedMap.insert]
    split
    · rename_i hlt
      refine List.pairwise_cons.mpr ⟨fun a ha => ?_, h⟩
      rcases List.mem_cons.mp ha with rfl | ha
      · exact hlt
      · exact TransCmp.lt_trans hlt (he a ha)
    · exact List.pairwise_cons.mpr ⟨he, hl⟩
    · rename_i hgt
      refine List.pairwise_cons.mpr ⟨fun a ha => ?_, ih hl⟩
      rcases mem_insert ha with rfl | ha | ⟨b, hb, -, rfl⟩
      · exact OrientedCmp.gt_iff_lt.mp hgt
      · exact he a ha
      · exact he b hb

variable [LawfulEqCmp cmp]

theorem get_erase : get cmp (erase cmp key l) k = if cmp k key = .eq then none else get cmp l k := by
  induction l with
  | nil => simp [erase]
  | cons e l ih =>
    rw [erase, List.filter_cons]
    by_cases he : cmp key e.1 = .eq
    · obtain rfl := LawfulEqCmp.compare_eq_iff_eq.mp he
      rw [if_neg (by simp [he]), get_cons]
      refine ih.trans ?_
      by_cases hk : cmp k e.1 = .eq
      · rw [if_pos hk, if_pos hk]
      · rw [if_neg hk, if_neg hk, if_neg hk]
    · rw [if_pos (by simp [he]), get_cons, get_cons]
      by_cases hk : cmp k e.1 = .eq
      · obtain rfl := LawfulEqCmp.compare_eq_iff_eq.mp hk
        have hne : cmp e.1 key ≠ .eq := by
          intro h
          rw [LawfulEqCmp.compare_eq_iff_eq] at h
          exact he (h ▸ hk)
        rw [if_pos hk, if_neg hne, if_pos hk]
      · rw [if_neg hk, if_neg hk]
        exact ih

theorem mem_of_get (h : get cmp l key = some x) : (key, x) ∈ l := by
  rw [get, Option.map_eq_some_iff] at h
  obtain ⟨a, hfind, rfl⟩ := h
  have ha : cmp key a.1 = .eq := by simpa using List.find?_some hfind
  obtain rfl := LawfulEqCmp.compare_eq_iff_eq.mp ha
  exact List.mem_of_find?_eq_some hfind

theorem get_of_missing (h : ∀ i < l.length, sign cmp l key i ≠ .eq) : get cmp l key = none := by
  rw [get, Option.map_eq_none_iff, List.find?_eq_none]
  intro a ha
  obtain ⟨i, hi, rfl⟩ := List.mem_iff_getElem.mp ha
  have := h i hi
  rw [sign_eq hi] at this
  simpa using this

variable [TransCmp cmp]

/-- Read over write. -/
theorem get_insert (h : Sorted cmp l) :
    get cmp (insert cmp key x l) k = if cmp k key = .eq then some x else get cmp l k := by
  induction l with
  | nil => exact get_cons
  | cons e l ih =>
    obtain ⟨-, hl⟩ := List.pairwise_cons.mp h
    rw [insert]
    split
    · exact get_cons
    · rename_i heq
      obtain rfl := LawfulEqCmp.compare_eq_iff_eq.mp heq
      rw [get_cons, get_cons]
      by_cases hk : cmp k e.1 = .eq
      · rw [if_pos hk, if_pos hk]
      · rw [if_neg hk, if_neg hk, if_neg hk]
    · rename_i hgt
      rw [get_cons, get_cons, ih hl]
      by_cases hk : cmp k e.1 = .eq
      · obtain rfl := LawfulEqCmp.compare_eq_iff_eq.mp hk
        have hne : cmp e.1 key ≠ .eq := by
          rw [OrientedCmp.gt_iff_lt.mp hgt]
          simp
        rw [if_pos hk, if_neg hne, if_pos hk]
      · rw [if_neg hk, if_neg hk]

theorem get_of_mem (h : Sorted cmp l) (he : e ∈ l) : get cmp l e.1 = some e.2 := by
  induction l with
  | nil => cases he
  | cons a l ih =>
    obtain ⟨ha, hl⟩ := List.pairwise_cons.mp h
    rw [get_cons]
    rcases List.mem_cons.mp he with rfl | he
    · rw [if_pos ReflCmp.compare_self]
    · have hne : cmp e.1 a.1 ≠ .eq := by
        rw [OrientedCmp.gt_of_lt (ha e he)]
        simp
      rw [if_neg hne]
      exact ih hl he

/-- The keys stay when a value is replaced. -/
theorem keys_insert (h : Sorted cmp l) (hget : get cmp l key ≠ none) :
    (insert cmp key x l).map Prod.fst = l.map Prod.fst := by
  induction l with
  | nil => exact absurd rfl hget
  | cons e l ih =>
    obtain ⟨he, hl⟩ := List.pairwise_cons.mp h
    rw [get_cons] at hget
    rw [insert]
    split
    · rename_i hlt
      rw [if_neg (by rw [hlt]; simp)] at hget
      obtain ⟨v, hv⟩ := Option.ne_none_iff_exists'.mp hget
      have hgt := OrientedCmp.gt_of_lt (he _ (mem_of_get hv))
      rw [hlt] at hgt
      cases hgt
    · rfl
    · rename_i hgt
      rw [if_neg (by rw [hgt]; simp)] at hget
      rw [List.map_cons, List.map_cons, ih hl hget]

/-- **Extensionality**: the list is determined by the map. -/
theorem ext {l' : List (κ × α)} (h : Sorted cmp l) (h' : Sorted cmp l')
    (heq : ∀ k, get cmp l k = get cmp l' k) : l = l' := by
  refine List.Perm.eq_of_pairwise (fun a b _ _ hab hba => ?_) h h' ?_
  · rw [OrientedCmp.gt_of_lt hba] at hab
    cases hab
  · have nodup : ∀ {m : List (κ × α)}, Sorted cmp m → m.Nodup := fun hm =>
      hm.imp fun hab => by
        rintro rfl
        have hself := ReflCmp.compare_self.symm.trans hab
        cases hself
    rw [List.perm_ext_iff_of_nodup (nodup h) (nodup h')]
    intro a
    constructor
    · intro ha
      exact mem_of_get (heq a.1 ▸ get_of_mem h ha)
    · intro ha
      exact mem_of_get ((heq a.1).symm ▸ get_of_mem h' ha)

theorem Sorted.divided (h : Sorted cmp l) (key : κ) : Divided (sign cmp l key) l.length := by
  intro i j hij hj hne
  have hlt : cmp l[i].1 l[j].1 = .lt := List.pairwise_iff_getElem.mp h i j _ hj hij
  rw [sign_eq hj] at hne
  rw [sign_eq (by omega)]
  cases hkey : cmp key l[j].1 with
  | lt => exact absurd hkey hne
  | eq =>
    obtain rfl := LawfulEqCmp.compare_eq_iff_eq.mp hkey
    exact OrientedCmp.gt_of_lt hlt
  | gt => exact TransCmp.gt_trans hkey (OrientedCmp.gt_of_lt hlt)

theorem set_found (h : Sorted cmp l) {i : ℕ} (hi : i < l.length) (heq : sign cmp l key i = .eq) :
    l.set i (l[i].1, x) = insert cmp key x l := by
  induction l generalizing i with
  | nil => cases hi
  | cons e l ih =>
    obtain ⟨he, hl⟩ := List.pairwise_cons.mp h
    rcases i with _ | i
    · rw [sign_cons_zero] at heq
      rw [insert, heq]
      rfl
    · have hlt : i < l.length := Nat.lt_of_succ_lt_succ hi
      have hgt : cmp key e.1 = .gt := by
        rw [sign_eq hi, LawfulEqCmp.compare_eq_iff_eq] at heq
        rw [heq]
        exact OrientedCmp.gt_of_lt (he _ (List.getElem_mem hlt))
      rw [sign_cons_succ] at heq
      rw [insert, hgt]
      exact congrArg (e :: ·) (ih hl hlt heq)

theorem eraseIdx_found (h : Sorted cmp l) {i : ℕ} (hi : i < l.length)
    (heq : sign cmp l key i = .eq) : l.eraseIdx i = erase cmp key l := by
  induction l generalizing i with
  | nil => cases hi
  | cons e l ih =>
    obtain ⟨he, hl⟩ := List.pairwise_cons.mp h
    rw [erase, List.filter_cons]
    rcases i with _ | i
    · rw [sign_cons_zero] at heq
      obtain rfl := LawfulEqCmp.compare_eq_iff_eq.mp heq
      rw [if_neg (by simp [heq]), List.eraseIdx_cons_zero, List.filter_eq_self.mpr]
      intro a ha
      simp [he a ha]
    · have hlt : i < l.length := Nat.lt_of_succ_lt_succ hi
      have hgt : cmp key e.1 = .gt := by
        rw [sign_eq hi, LawfulEqCmp.compare_eq_iff_eq] at heq
        rw [heq]
        exact OrientedCmp.gt_of_lt (he _ (List.getElem_mem hlt))
      rw [sign_cons_succ] at heq
      rw [if_pos (by simp [hgt]), List.eraseIdx_cons_succ, ih hl hlt heq]
      rfl

theorem get_of_found {i : ℕ} (h : Sorted cmp l) (hi : i < l.length)
    (heq : sign cmp l key i = .eq) : get cmp l key = some l[i].2 := by
  rw [sign_eq hi, LawfulEqCmp.compare_eq_iff_eq] at heq
  rw [heq]
  exact get_of_mem h (List.getElem_mem hi)

end Order

end SortedMap
