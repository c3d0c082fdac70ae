/-
Dictionaries with an iteration order.

A property-list dictionary is an array of key/value pairs with distinct keys;
iterating over it visits the pairs in array order.  `Dict` keeps both facts:
the entries are a list, and the keys are distinct by construction.  A new key
goes in front of the first larger one, so a dictionary built by `set` alone is
sorted, but nothing below relies on that: every statement about a loop over a
`Dict` is a statement for every order of its entries.

* `mem_entries_iff` — membership is lookup;
* `get_set_self`, `get_set_ne`, `get_erase_self`, `get_erase_ne` — the usual
  read-over-write equations;
* `get_merge` — the same for `merge`, one dictionary laid over another;
* `foldl_iff_or`, `foldl_iff_and` — what a loop adds, and what it leaves.
-/
import Mathlib.Data.List.Nodup

/-- A dictionary: pairs with distinct keys, in iteration order. -/
structure Dict (κ α : Type*) where
  entries : List (κ × α)
  nodup : (entries.map Prod.fst).Nodup

namespace Dict

variable {κ α : Type*}

def keys (d : Dict κ α) : List κ := d.entries.map Prod.fst

def values (d : Dict κ α) : List α := d.entries.map Prod.snd

def empty : Dict κ α := ⟨[], List.nodup_nil⟩

instance : Inhabited (Dict κ α) := ⟨empty⟩

instance [DecidableEq κ] [DecidableEq α] : DecidableEq (Dict κ α) := fun a b =>
  decidable_of_iff (a.entries = b.entries) <| by
    constructor
    · intro h
      cases a; cases b
      simp_all
    · intro h; rw [h]

theorem eq_empty_iff {d : Dict κ α} : d = empty ↔ ∀ k, k ∉ d.keys := by
  constructor
  · rintro rfl k h
    cases h
  · intro h
    obtain ⟨entries, hnodup⟩ := d
    cases entries with
    | nil => rfl
    | cons e entries => exact absurd List.mem_cons_self (h e.1)

variable [DecidableEq κ]

/-- The value under a key. -/
def get (d : Dict κ α) (k : κ) : Option α := (d.entries.find? fun e => e.1 = k).map Prod.snd

theorem mem_entries_iff {d : Dict κ α} {k : κ} {v : α} :
    (k, v) ∈ d.entries ↔ d.get k = some v := by
  constructor
  · intro h
    rw [get]
    cases hf : d.entries.find? fun e => decide (e.1 = k) with
    | none =>
      rw [List.find?_eq_none] at hf
      exact absurd (hf _ h) (by simp)
    | some e =>
      have hk : e.1 = k := by simpa using List.find?_some hf
      have he : e ∈ d.entries := List.mem_of_find?_eq_some hf
      have : e = (k, v) := List.inj_on_of_nodup_map d.nodup he h hk
      simp [this]
  · intro h
    rw [get, Option.map_eq_some_iff] at h
    obtain ⟨e, hf, rfl⟩ := h
    have hk : e.1 = k := by simpa using List.find?_some hf
    have he : e ∈ d.entries := List.mem_of_find?_eq_some hf
    rw [← hk]
    exact he

theorem get_eq_none_iff {d : Dict κ α} {k : κ} : d.get k = none ↔ k ∉ d.keys := by
  simp only [get, Option.map_eq_none_iff, List.find?_eq_none, decide_eq_true_eq, keys,
    List.mem_map, not_exists, not_and]

theorem mem_keys_iff {d : Dict κ α} {k : κ} : k ∈ d.keys ↔ ∃ v, d.get k = some v := by
  rw [← not_iff_not, ← get_eq_none_iff, Option.eq_none_iff_forall_ne_some, not_exists]

theorem mem_values_of_get {d : Dict κ α} {k : κ} {v : α} (h : d.get k = some v) :
    v ∈ d.values :=
  List.mem_map.mpr ⟨(k, v), mem_entries_iff.mpr h, rfl⟩

theorem mem_values_iff {d : Dict κ α} {v : α} : v ∈ d.values ↔ ∃ k, d.get k = some v := by
  constructor
  · intro h
    obtain ⟨⟨k, w⟩, he, rfl⟩ := List.mem_map.mp h
    exact ⟨k, mem_entries_iff.mp he⟩
  · rintro ⟨k, hk⟩
    exact mem_values_of_get hk

section Label

variable {d : Dict κ α} (label : α → Option κ)

/-- In a dictionary whose values are filed under their labels, the key is the label. -/
theorem label_of_get (h : ∀ e ∈ d.entries, label e.2 = some e.1) {k : κ} {v : α}
    (hget : d.get k = some v) : label v = some k :=
  h (k, v) (mem_entries_iff.mpr hget)

theorem get_of_label (h : ∀ e ∈ d.entries, label e.2 = some e.1) {k : κ} {v : α}
    (hv : v ∈ d.values) (hlabel : label v = some k) : d.get k = some v := by
  obtain ⟨k', hk'⟩ := mem_values_iff.mp hv
  obtain rfl := Option.some.inj (hlabel.symm.trans (label_of_get label h hk'))
  exact hk'

end Label

/-! ### Writing -/

theorem map_fst_modify (l : List (κ × α)) (k : κ) (f : α → α) :
    (l.map fun e => if e.1 = k then (e.1, f e.2) else e).map Prod.fst = l.map Prod.fst := by
  rw [List.map_map]
  refine List.map_congr_left fun e _ => ?_
  by_cases h : e.1 = k <;> simp [h]

/-- Change the value under a key that is already there. -/
def modify (d : Dict κ α) (k : κ) (f : α → α) : Dict κ α where
  entries := d.entries.map fun e => if e.1 = k then (e.1, f e.2) else e
  nodup := by
    rw [map_fst_modify]
    exact d.nodup

/-- Change every value. -/
def mapValues (d : Dict κ α) (f : α → α) : Dict κ α where
  entries := d.entries.map fun e => (e.1, f e.2)
  nodup := by
    rw [List.map_map]
    exact d.nodup

/-- Remove a key. -/
def erase (d : Dict κ α) (k : κ) : Dict κ α where
  entries := d.entries.filter fun e => e.1 ≠ k
  nodup := d.nodup.sublist (List.filter_sublist.map _)

theorem modify_modify (d : Dict κ α) (k : κ) (f g : α → α) :
    (d.modify k f).modify k g = d.modify k (g ∘ f) := by
  rw [modify, modify, modify]
  congr 1
  rw [List.map_map]
  refine List.map_congr_left fun e _ => ?_
  by_cases h : e.1 = k <;> simp [h]

theorem get_mapValues (d : Dict κ α) (f : α → α) (k : κ) :
    (d.mapValues f).get k = (d.get k).map f := by
  rw [get, get, mapValues, List.find?_map, Option.map_map, Option.map_map]
  rfl

theorem get_modify_self (d : Dict κ α) (k : κ) (f : α → α) :
    (d.modify k f).get k = (d.get k).map f := by
  cases h : d.get k with
  | none =>
    rw [Option.map_none, get_eq_none_iff, keys, modify, map_fst_modify]
    exact get_eq_none_iff.mp h
  | some v =>
    rw [Option.map_some, ← mem_entries_iff]
    exact List.mem_map.mpr ⟨(k, v), mem_entries_iff.mpr h, by simp⟩

theorem get_modify_ne (d : Dict κ α) {k k' : κ} (f : α → α) (h : k' ≠ k) :
    (d.modify k f).get k' = d.get k' := by
  rw [get, get, modify, List.find?_map, Option.map_map]
  have hp : ((fun e : κ × α => decide (e.1 = k')) ∘
      fun e => if e.1 = k then (e.1, f e.2) else e) = fun e => decide (e.1 = k') := by
    funext e
    by_cases he : e.1 = k <;> simp [he]
  rw [hp]
  cases hf : d.entries.find? fun e => decide (e.1 = k') with
  | none => rfl
  | some e =>
    have hk : e.1 = k' := by simpa using List.find?_some hf
    simp [hk, h]

@[simp] theorem get_erase_self (d : Dict κ α) (k : κ) : (d.erase k).get k = none := by
  rw [get_eq_none_iff]
  simp [keys, erase]

theorem mem_keys_erase (d : Dict κ α) {k k' : κ} :
    k' ∈ (d.erase k).keys ↔ k' ∈ d.keys ∧ ¬ k' = k := by
  simp [keys, erase]

theorem get_erase_ne (d : Dict κ α) {k k' : κ} (h : k' ≠ k) :
    (d.erase k).get k' = d.get k' := by
  rw [get, get, erase, List.find?_filter]
  congr 2
  funext e
  by_cases he : e.1 = k'
  · simp [he, h]
  · simp [he]

variable [LT κ] [DecidableLT κ]

/-- Put a value under a key, replacing the old one. -/
def set (d : Dict κ α) (k : κ) (v : α) : Dict κ α :=
  if h : k ∈ d.keys then d.modify k fun _ => v
  else
    { entries := (d.entries.takeWhile fun e => e.1 < k) ++ (k, v) ::
        d.entries.dropWhile fun e => e.1 < k
      nodup := by
        have hp : ((d.entries.takeWhile fun e => decide (e.1 < k)) ++ (k, v) ::
            d.entries.dropWhile fun e => decide (e.1 < k)).Perm ((k, v) :: d.entries) := by
          refine List.perm_middle.trans ?_
          rw [List.takeWhile_append_dropWhile]
        rw [(hp.map Prod.fst).nodup_iff, List.map_cons, List.nodup_cons]
        exact ⟨h, d.nodup⟩ }

theorem mem_entries_set (d : Dict κ α) (k : κ) (v : α) {k' : κ} {w : α} :
    (k', w) ∈ (d.set k v).entries ↔ (k' = k ∧ w = v) ∨ (k' ≠ k ∧ (k', w) ∈ d.entries) := by
  rw [set]
  by_cases h : k ∈ d.keys
  · rw [dif_pos h, mem_entries_iff]
    by_cases hk : k' = k
    · subst hk
      rw [get_modify_self]
      obtain ⟨u, hu⟩ := Option.ne_none_iff_exists'.mp (mt get_eq_none_iff.mp (not_not.mpr h))
      simp [hu, eq_comm]
    · rw [get_modify_ne d _ hk, mem_entries_iff]
      simp [hk]
  · rw [dif_neg h]
    have hp : ((d.entries.takeWhile fun e => decide (e.1 < k)) ++ (k, v) ::
        d.entries.dropWhile fun e => decide (e.1 < k)).Perm ((k, v) :: d.entries) := by
      refine List.perm_middle.trans ?_
      rw [List.takeWhile_append_dropWhile]
    rw [hp.mem_iff, List.mem_cons, Prod.mk.injEq]
    by_cases hk : k' = k
    · subst hk
      simp only [true_and, ne_eq, not_true_eq_false, false_and, or_false, or_iff_left_iff_imp]
      intro hm
      exact absurd (List.mem_map.mpr ⟨_, hm, rfl⟩) h
    · simp [hk]

@[simp] theorem get_set_self (d : Dict κ α) (k : κ) (v : α) : (d.set k v).get k = some v := by
  rw [← mem_entries_iff, mem_entries_set]
  exact Or.inl ⟨rfl, rfl⟩

theorem get_set_ne (d : Dict κ α) {k k' : κ} (v : α) (h : k' ≠ k) :
    (d.set k v).get k' = d.get k' := by
  apply Option.ext
  intro w
  rw [← mem_entries_iff, mem_entries_set, mem_entries_iff]
  simp [h]

theorem mem_keys_set (d : Dict κ α) (k : κ) (v : α) {k' : κ} :
    k' ∈ (d.set k v).keys ↔ k' ∈ d.keys ∨ k' = k := by
  rw [mem_keys_iff, mem_keys_iff]
  by_cases h : k' = k
  · subst h
    simp
  · rw [get_set_ne d v h]
    simp [h]

/-- The entries of `e` put into `d`, one after the other. -/
def merge (d e : Dict κ α) : Dict κ α := e.entries.foldl (fun d x => d.set x.1 x.2) d

theorem get_foldl_set (l : List (κ × α)) (hl : (l.map Prod.fst).Nodup) (d : Dict κ α) (k : κ) :
    (l.foldl (fun d x => d.set x.1 x.2) d).get k =
      ((l.find? fun e => e.1 = k).map Prod.snd).or (d.get k) := by
  induction l generalizing d with
  | nil => rfl
  | cons x l ih =>
    rw [List.map_cons, List.nodup_cons] at hl
    rw [List.foldl_cons, ih hl.2, List.find?_cons]
    by_cases h : x.1 = k
    · have hnone : l.find? (fun e => decide (e.1 = k)) = none := by
        rw [List.find?_eq_none]
        intro e he hek
        rw [decide_eq_true_eq] at hek
        exact hl.1 (h ▸ hek ▸ List.mem_map_of_mem he)
      simp [h, hnone]
    · rw [get_set_ne d x.2 (Ne.symm h)]
      simp [h]

theorem get_merge (d e : Dict κ α) (k : κ) : (d.merge e).get k = (e.get k).or (d.get k) :=
  get_foldl_set e.entries e.nodup d k

end Dict

/-! ### Loops -/

/-- What every turn can add, a loop adds if one of its turns does. -/
theorem List.foldl_iff_or {σ β : Type*} {f : σ → β → σ} {Q : σ → Prop} {P : β → Prop}
    (h : ∀ s x, Q (f s x) ↔ Q s ∨ P x) (l : List β) (s : σ) :
    Q (l.foldl f s) ↔ Q s ∨ ∃ x ∈ l, P x := by
  induction l generalizing s with
  | nil => simp
  | cons x l ih =>
    rw [List.foldl_cons, ih, h, or_assoc, List.exists_mem_cons_iff]

/-- What every turn can take away, a loop leaves if none of its turns takes it. -/
theorem List.foldl_iff_and {σ β : Type*} {f : σ → β → σ} {Q : σ → Prop} {P : β → Prop}
    (h : ∀ s x, Q (f s x) ↔ Q s ∧ ¬ P x) (l : List β) (s : σ) :
    Q (l.foldl f s) ↔ Q s ∧ ¬ ∃ x ∈ l, P x := by
  induction l generalizing s with
  | nil => simp
  | cons x l ih =>
    rw [List.foldl_cons, ih, h, and_assoc, List.exists_mem_cons_iff, not_or]
