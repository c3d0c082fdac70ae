/-
Dictionaries (`lib/portableproplib/prop_dictionary.c`).

A dictionary is an array of entries sorted by key, in a block that grows by
sixteen entries at a time.  A key that is missing goes next to the entry at which
the search ended.  An operation that reads an empty slot, or writes outside the
block, has no result; an allocation may fail.

* `lookup_spec`, `get_spec`, `set_spec`, `remove_spec` — the operations on the
  contents;
* `run_refines` — every sequence of operations is one on a finite map.
-/
import Flappy.Lib.Run
import Flappy.Lib.Slots
import Flappy.Lib.SortedMap
import Flappy.Lib.Strncmp
import Mathlib.Algebra.GroupWithZero.Nat
import Mathlib.Logic.Function.Basic

open CStr Slots Bisect

namespace Flappy.Proplib

/-- `EXPAND_STEP`. -/
def expandStep : Nat := 16

/-- `PDK_MAXKEY`, the length for which `PDK_SIZE_128` has room. -/
def maxkey : Nat := 128

/-- `pd_version++`, on a `uint32_t`. -/
def nextVersion (version : Nat) : Nat := (version + 1) % 4294967296

/-- `struct _prop_dictionary`; `pd_capacity` is the length of the block. -/
structure Dictionary (α : Type) where
  array : Block (Str × α)
  count : Nat := 0
  immutable : Bool := false
  version : Nat := 0

/-- Which allocations of an operation succeed. -/
structure Memory where
  keysym : Bool := true
  array : Bool := true

namespace Dictionary

variable {α : Type}

/-- `_prop_dictionary_alloc`. -/
def alloc (capacity : Nat) : Dictionary α := { array := calloc capacity }

/-- `prop_dictionary_create`. -/
def create : Dictionary α := alloc 0

/-- `_prop_dictionary_expand`. -/
def expand (pd : Dictionary α) (capacity : Nat) : Dictionary α :=
  { pd with array := Slots.expand pd.array capacity }

/-- `_prop_dict_lookup`: the index looked at last, and whether the key is there. -/
def lookup (pd : Dictionary α) (key : Str) : Option (Nat × Bool) :=
  search (fun i => (read pd.array i).map fun pde => strcmp key pde.1) 0 0 pd.count

/-- `prop_dictionary_get`. -/
def get (pd : Dictionary α) (key : Str) : Option (Option α) :=
  match pd.lookup key with
  | none => none
  | some (_, false) => some none
  | some (idx, true) => (read pd.array idx).map fun pde => some pde.2

/-- `_prop_dict_keysym_alloc`: a key that is too long has no pool. -/
def keysymAlloc (key : Str) (mem : Memory) : Bool := decide (key.length ≤ maxkey) && mem.keysym

/-- The end of a store that puts a new entry in. -/
def stored (pd : Dictionary α) (array : Block (Str × α)) : Dictionary α :=
  { pd with array := array, count := pd.count + 1, version := nextVersion pd.version }

/-- The entries from `idx` on move one up, and the new one takes the place. -/
def storeAt (pd : Dictionary α) (idx : Nat) (pde : Str × α) : Option (Dictionary α) :=
  match memmove pd.array (idx + 1) idx (pd.count - idx) with
  | none => none
  | some array => (write array idx pde).map pd.stored

/-- The last part of `prop_dictionary_set`: a new entry next to the one at `idx`. -/
def storeBeside (pd : Dictionary α) (idx : Nat) (key : Str) (po : α) : Option (Dictionary α) :=
  if pd.count = 0 then (write pd.array 0 (key, po)).map pd.stored
  else
    match read pd.array idx with
    | none => none
    | some pde =>
      if strcmp key pde.1 = .lt then
        -- the same as below after `idx--`, but for an `idx` of zero
        if idx = 0 then pd.storeAt 0 (key, po) else pd.storeAt (idx - 1 + 1) (key, po)
      else pd.storeAt (idx + 1) (key, po)

/-- `prop_dictionary_set`. -/
def set (pd : Dictionary α) (key : Str) (po : α) (mem : Memory) : Option (Bool × Dictionary α) :=
  if pd.immutable then some (false, pd)
  else
    match pd.lookup key with
    | none => none
    | some (idx, true) =>
      match read pd.array idx with
      | none => none
      | some pde =>
        (write pd.array idx (pde.1, po)).map fun array => (true, { pd with array := array })
    | some (idx, false) =>
      if !keysymAlloc key mem then some (false, pd)
      else if pd.count = pd.array.length then
        if !mem.array then some (false, pd)
        else ((pd.expand (pd.array.length + expandStep)).storeBeside idx key po).map (true, ·)
      else (pd.storeBeside idx key po).map (true, ·)

/-- `prop_dictionary_remove`. -/
def remove (pd : Dictionary α) (key : Str) : Option (Dictionary α) :=
  if pd.immutable then some pd
  else
    match pd.lookup key with
    | none => none
    | some (_, false) => some pd
    | some (idx, true) =>
      (memmove pd.array idx (idx + 1) (pd.count - (idx + 1))).map fun array =>
        { pd with array := array, count := pd.count - 1, version := nextVersion pd.version }

/-- `prop_dictionary_ensure_capacity`. -/
def ensureCapacity (pd : Dictionary α) (capacity : Nat) (mem : Memory) : Bool × Dictionary α :=
  if capacity > pd.array.length then
    if mem.array then (true, pd.expand capacity) else (false, pd)
  else (true, pd)

/-- `prop_dictionary_make_immutable`. -/
def makeImmutable (pd : Dictionary α) : Dictionary α := { pd with immutable := true }

/-- The loop of `prop_dictionary_copy` and `prop_dictionary_all_keys` over the entries. -/
def entriesFrom (pd : Dictionary α) (idx : Nat) : Nat → Option (List (Str × α))
  | 0 => some []
  | n + 1 =>
    match read pd.array idx with
    | none => none
    | some pde => (pd.entriesFrom (idx + 1) n).map (pde :: ·)

/-- The entries, in the order of the array. -/
def entries (pd : Dictionary α) : Option (List (Str × α)) := pd.entriesFrom 0 pd.count

/-- `prop_dictionary_all_keys`. -/
def allKeys (pd : Dictionary α) : Option (List Str) := pd.entries.map (List.map Prod.fst)

/-- `prop_dictionary_copy`; the copy has its own block. -/
def copy (pd : Dictionary α) : Option (Dictionary α) :=
  pd.entries.map fun l =>
    { array := l.map some, count := pd.count, immutable := pd.immutable }

/-- `prop_dictionary_copy_mutable`. -/
def copyMutable (pd : Dictionary α) : Option (Dictionary α) :=
  pd.copy.map fun pd => { pd with immutable := false }

/-! ### The contents -/

/-- The dictionary holds the entries, in the order of their keys. -/
structure Repr (pd : Dictionary α) (l : List (Str × α)) : Prop where
  holds : Holds pd.array l
  count : pd.count = l.length
  sorted : SortedMap.Sorted strcmp l
  keys : ∀ e ∈ l, e.1.length ≤ maxkey

variable {pd : Dictionary α} {l : List (Str × α)}

theorem repr_alloc (capacity : Nat) : Repr (alloc capacity : Dictionary α) [] :=
  ⟨holds_nil _, rfl, List.Pairwise.nil, fun _ he => absurd he List.not_mem_nil⟩

theorem Repr.expand (h : Repr pd l) (capacity : Nat) : Repr (pd.expand capacity) l :=
  ⟨expand_holds h.holds capacity, h.count, h.sorted, h.keys⟩

theorem Repr.room (h : Repr pd l) : pd.count ≤ pd.array.length := by
  rw [h.count]
  exact h.holds.length_le

theorem lookup_spec (h : Repr pd l) (key : Str) :
    ∃ r, pd.lookup key = some r ∧ Answer (SortedMap.sign strcmp l key) l.length r := by
  rw [lookup, h.count]
  refine search_spec (h.sorted.divided key) fun i hi => ?_
  rw [h.holds.read hi, SortedMap.sign_eq hi]
  rfl

/-- Where the search for a key ends, in terms of the contents. -/
theorem lookup_cases (h : Repr pd l) (key : Str) :
    (∃ idx, ∃ hidx : idx < l.length, pd.lookup key = some (idx, true) ∧
      SortedMap.sign strcmp l key idx = .eq ∧ SortedMap.get strcmp l key = some l[idx].2) ∨
    ∃ idx, pd.lookup key = some (idx, false) ∧ SortedMap.get strcmp l key = none ∧
      Answer (SortedMap.sign strcmp l key) l.length (idx, false) := by
  obtain ⟨⟨idx, found⟩, hlookup, hans⟩ := lookup_spec h key
  cases found with
  | true =>
    obtain ⟨hidx, heq⟩ := hans.found rfl
    exact Or.inl ⟨idx, hidx, hlookup, heq, SortedMap.get_of_found h.sorted hidx heq⟩
  | false =>
    refine Or.inr ⟨idx, hlookup, SortedMap.get_of_missing fun i hi => ?_, hans⟩
    rw [hans.missing rfl i hi]
    split <;> simp

theorem get_spec (h : Repr pd l) (key : Str) :
    pd.get key = some (SortedMap.get strcmp l key) := by
  rw [get]
  rcases lookup_cases h key with ⟨idx, hidx, hlookup, -, hget⟩ | ⟨idx, hlookup, hget, -⟩
  · rw [hlookup, hget]
    show (read pd.array idx).map _ = _
    rw [h.holds.read hidx]
    rfl
  · rw [hlookup, hget]

/-- Whether a key can be stored, if the allocations succeed. -/
def Accepts (immutable : Bool) (value : Option α) (key : Str) : Prop :=
  immutable = false ∧ (value ≠ none ∨ key.length ≤ maxkey)

/-- What `prop_dictionary_set` does to the contents. -/
structure SetResult (pd : Dictionary α) (l : List (Str × α)) (key : Str) (po : α) (mem : Memory)
    (ok : Bool) (pd' : Dictionary α) : Prop where
  repr : Repr pd' (if ok then SortedMap.insert strcmp key po l else l)
  immutable : pd'.immutable = pd.immutable
  version : pd'.version =
    if ok = true ∧ SortedMap.get strcmp l key = none then nextVersion pd.version else pd.version
  accepts : ok = true → Accepts pd.immutable (SortedMap.get strcmp l key) key
  refused : ok = false → Accepts pd.immutable (SortedMap.get strcmp l key) key →
    mem.keysym = false ∨ mem.array = false

theorem SetResult.of_refused (h : Repr pd l) {key : Str} {po : α} {mem : Memory}
    (href : Accepts pd.immutable (SortedMap.get strcmp l key) key →
      mem.keysym = false ∨ mem.array = false) : SetResult pd l key po mem false pd where
  repr := h
  immutable := rfl
  version := rfl
  accepts := fun hok => by cases hok
  refused := fun _ => href

/-- A new entry, put in at its place. -/
theorem storeAt_spec (h : Repr pd l) {key : Str} (po : α) {p : Nat} (hp : p ≤ l.length)
    (hroom : pd.count < pd.array.length) (hkey : key.length ≤ maxkey)
    (hsign : ∀ i < l.length, SortedMap.sign strcmp l key i = if i < p then .gt else .lt) :
    ∃ array, pd.storeAt p (key, po) = some (pd.stored array) ∧
      Repr (pd.stored array) (SortedMap.insert strcmp key po l) := by
  have hcount := h.count
  obtain ⟨b₁, b₂, hmove, hwrite, hholds, -⟩ :=
    insert_holds h.holds (by omega) hp (key, po)
  rw [SortedMap.insertIdx_place hp hsign] at hholds
  refine ⟨b₂, ?_, hholds, ?_, h.sorted.insert, ?_⟩
  · rw [storeAt, hcount, hmove]
    show (write b₁ p (key, po)).map _ = _
    rw [hwrite]
    rfl
  · show pd.count + 1 = _
    rw [← SortedMap.insertIdx_place (x := po) hp hsign, List.length_insertIdx_of_le_length hp,
      hcount]
  · intro e he
    rcases SortedMap.mem_insert he with rfl | he | ⟨b, hb, -, rfl⟩
    · exact hkey
    · exact h.keys e he
    · exact h.keys b hb

theorem storeBeside_spec (h : Repr pd l) {key : Str} (po : α) {idx : Nat}
    (hans : Answer (SortedMap.sign strcmp l key) l.length (idx, false))
    (hroom : pd.count < pd.array.length) (hkey : key.length ≤ maxkey) :
    ∃ array, pd.storeBeside idx key po = some (pd.stored array) ∧
      Repr (pd.stored array) (SortedMap.insert strcmp key po l) := by
  have hcount := h.count
  rw [storeBeside]
  by_cases hzero : pd.count = 0
  · obtain rfl := List.length_eq_zero_iff.mp (hcount.symm.trans hzero)
    obtain ⟨array, hwrite, hholds⟩ := write_zero_holds (b := pd.array) (by omega) (key, po)
    refine ⟨array, by rw [if_pos hzero, hwrite]; rfl, hholds, ?_, h.sorted.insert, ?_⟩
    · show pd.count + 1 = 1
      rw [hzero]
    · intro e he
      rw [List.mem_singleton.mp he]
      exact hkey
  · have hidx : idx < l.length := hans.lt (by omega)
    rw [if_neg hzero, h.holds.read hidx]
    have hplace := hans.missing rfl
    have hsign : SortedMap.sign strcmp l key idx = strcmp key l[idx].1 := SortedMap.sign_eq hidx
    rw [place, hsign] at hplace
    show ∃ array, (if strcmp key l[idx].1 = .lt then _ else _) = _ ∧ _
    by_cases hlt : strcmp key l[idx].1 = .lt
    · rw [if_pos hlt] at hplace ⊢
      have hsame : (if idx = 0 then pd.storeAt 0 (key, po) else pd.storeAt (idx - 1 + 1) (key, po)) =
          pd.storeAt idx (key, po) := by
        by_cases h0 : idx = 0
        · rw [if_pos h0, h0]
        · rw [if_neg h0, Nat.sub_one_add_one h0]
      rw [hsame]
      exact storeAt_spec h po (Nat.le_of_lt hidx) hroom hkey hplace
    · rw [if_neg hlt] at hplace ⊢
      exact storeAt_spec h po hidx hroom hkey hplace

/-- The value of a key that is there is replaced; the version stays. -/
theorem replace_spec (h : Repr pd l) {key : Str} (po : α) {idx : Nat} (hidx : idx < l.length)
    (heq : SortedMap.sign strcmp l key idx = .eq) :
    ∃ array, write pd.array idx (l[idx].1, po) = some array ∧
      Repr { pd with array := array } (SortedMap.insert strcmp key po l) := by
  obtain ⟨array, hwrite, hholds, -⟩ := write_holds h.holds hidx (l[idx].1, po)
  have hset : l.set idx (l[idx].1, po) = SortedMap.insert strcmp key po l :=
    SortedMap.set_found h.sorted hidx heq
  refine ⟨array, hwrite, hset ▸ hholds, ?_, h.sorted.insert, ?_⟩
  · rw [← hset, List.length_set]
    exact h.count
  · intro e he
    rw [← hset] at he
    rcases List.mem_or_eq_of_mem_set he with he | rfl
    · exact h.keys e he
    · exact h.keys l[idx] (List.getElem_mem hidx)

/-- **`prop_dictionary_set`.** -/
theorem set_spec (h : Repr pd l) (key : Str) (po : α) (mem : Memory) :
    ∃ ok pd', pd.set key po mem = some (ok, pd') ∧ SetResult pd l key po mem ok pd' := by
  rw [set]
  by_cases himm : pd.immutable = true
  · rw [if_pos himm]
    refine ⟨false, pd, rfl, .of_refused h ?_⟩
    rintro ⟨hfalse, -⟩
    rw [himm] at hfalse
    cases hfalse
  · rw [if_neg himm]
    rw [Bool.not_eq_true] at himm
    rcases lookup_cases h key with ⟨idx, hidx, hlookup, heq, hget⟩ | ⟨idx, hlookup, hget, hans⟩
    · -- the key is there: its object is replaced in its slot
      obtain ⟨array, hwrite, hrepr⟩ := replace_spec h po hidx heq
      refine ⟨true, { pd with array := array }, ?_, hrepr, rfl, ?_, ?_, ?_⟩
      · simp only [hlookup, h.holds.read hidx, hwrite, Option.map_some]
      · rw [hget, if_neg (by simp)]
      · intro _
        exact ⟨himm, Or.inl (by rw [hget]; simp)⟩
      · intro hok
        cases hok
    · have hsome : ∀ array, Repr (pd.stored array) (SortedMap.insert strcmp key po l) →
          key.length ≤ maxkey → SetResult pd l key po mem true (pd.stored array) :=
        fun array hrepr hkey =>
          ⟨hrepr, rfl, (if_pos ⟨rfl, hget⟩).symm, fun _ => ⟨himm, Or.inr hkey⟩,
            fun hok => by cases hok⟩
      simp only [hlookup]
      -- a new key needs a keysym, and may need a larger array
      by_cases hkey : key.length ≤ maxkey
      · cases hmem : mem.keysym with
        | false =>
          refine ⟨false, pd, by rw [if_pos (by simp [keysymAlloc, hmem])], .of_refused h ?_⟩
          exact fun _ => Or.inl hmem
        | true =>
          rw [if_neg (by simp [keysymAlloc, hkey, hmem])]
          by_cases hfull : pd.count = pd.array.length
          · rw [if_pos hfull]
            cases harray : mem.array with
            | false =>
              exact ⟨false, pd, rfl, .of_refused h fun _ => Or.inr harray⟩
            | true =>
              have hexp := h.expand (pd.array.length + expandStep)
              obtain ⟨array, hstore, hrepr⟩ := storeBeside_spec hexp po hans (by
                show pd.count < (Slots.expand pd.array _).length
                rw [length_expand, expandStep]
                omega) hkey
              exact ⟨true, pd.stored array, by rw [hstore]; rfl, hsome array hrepr hkey⟩
          · rw [if_neg hfull]
            have hroom := h.room
            obtain ⟨array, hstore, hrepr⟩ := storeBeside_spec h po hans (by omega) hkey
            exact ⟨true, pd.stored array, by rw [hstore]; rfl, hsome array hrepr hkey⟩
      · refine ⟨false, pd, by rw [if_pos (by simp [keysymAlloc, hkey])], .of_refused h ?_⟩
        rintro ⟨-, hval | hlen⟩
        · exact absurd hget hval
        · exact absurd hlen hkey

/-- **`prop_dictionary_remove`.** -/
theorem remove_spec (h : Repr pd l) (key : Str) :
    ∃ pd', pd.remove key = some pd' ∧
      Repr pd' (if pd.immutable then l else SortedMap.erase strcmp key l) ∧
      pd'.immutable = pd.immutable ∧
      pd'.version = if pd.immutable = false ∧ SortedMap.get strcmp l key ≠ none then
        nextVersion pd.version else pd.version := by
  rw [remove]
  by_cases himm : pd.immutable = true
  · rw [if_pos himm]
    exact ⟨pd, rfl, by rw [if_pos himm]; exact h, rfl, by rw [if_neg (by simp [himm])]⟩
  · rw [if_neg himm, if_neg himm]
    rw [Bool.not_eq_true] at himm
    rcases lookup_cases h key with ⟨idx, hidx, hlookup, heq, hget⟩ | ⟨idx, hlookup, hget, -⟩
    · obtain ⟨array, hmove, hholds, -⟩ := erase_holds h.holds hidx
      rw [hlookup]
      refine ⟨{ pd with array := array, count := pd.count - 1, version := nextVersion pd.version },
        ?_, ⟨?_, ?_, h.sorted.erase key, ?_⟩, rfl, ?_⟩
      · show (memmove pd.array idx (idx + 1) (pd.count - (idx + 1))).map _ = _
        rw [h.count, hmove]
        rfl
      · rw [← SortedMap.eraseIdx_found h.sorted hidx heq]
        exact hholds
      · show pd.count - 1 = _
        rw [← SortedMap.eraseIdx_found h.sorted hidx heq, List.length_eraseIdx_of_lt hidx, h.count]
      · intro e he
        exact h.keys e (List.mem_of_mem_filter he)
      · rw [if_pos ⟨himm, by rw [hget]; simp⟩]
    · rw [hlookup]
      refine ⟨pd, rfl, ?_, rfl, ?_⟩
      · rw [SortedMap.erase_of_get_none hget]
        exact h
      · rw [if_neg (by simp [hget])]

theorem entriesFrom_spec (h : Repr pd l) (n : Nat) {idx : Nat} (hn : idx + n = l.length) :
    pd.entriesFrom idx n = some (l.drop idx) := by
  induction n generalizing idx with
  | zero =>
    rw [entriesFrom, List.drop_eq_nil_of_le (by omega)]
  | succ n ih =>
    have hidx : idx < l.length := by omega
    rw [entriesFrom, h.holds.read hidx]
    show (pd.entriesFrom (idx + 1) n).map _ = _
    rw [ih (by omega), List.drop_eq_getElem_cons hidx]
    rfl

theorem entries_spec (h : Repr pd l) : pd.entries = some l := by
  rw [entries, h.count, entriesFrom_spec h _ (Nat.zero_add _), List.drop_zero]

/-- A copy has the same contents. -/
theorem copy_spec (h : Repr pd l) :
    ∃ pd', pd.copy = some pd' ∧ Repr pd' l ∧ pd'.immutable = pd.immutable ∧ pd'.version = 0 := by
  rw [copy, entries_spec h]
  refine ⟨_, rfl, ⟨?_, h.count, h.sorted, h.keys⟩, rfl, rfl⟩
  intro i x hx
  show (l.map some)[i]? = _
  rw [List.getElem?_map, hx]
  rfl

theorem ensureCapacity_spec (h : Repr pd l) (capacity : Nat) (mem : Memory) :
    Repr (pd.ensureCapacity capacity mem).2 l ∧
      (pd.ensureCapacity capacity mem).2.immutable = pd.immutable ∧
      (pd.ensureCapacity capacity mem).2.version = pd.version := by
  rw [ensureCapacity]
  split
  · split
    · exact ⟨h.expand capacity, rfl, rfl⟩
    · exact ⟨h, rfl, rfl⟩
  · exact ⟨h, rfl, rfl⟩

/-! ### Runs -/

/-- The operations that change a dictionary. -/
inductive Op (α : Type) where
  | set (key : Str) (po : α) (mem : Memory)
  | remove (key : Str)
  | ensureCapacity (capacity : Nat) (mem : Memory)
  | makeImmutable
  /-- The dictionary is replaced by its copy, or its mutable copy. -/
  | copy (mutable : Bool)

/-- An operation, with its return value (`true` where it has none). -/
def Op.exec (pd : Dictionary α) : Op α → Option (Bool × Dictionary α)
  | .set key po mem => pd.set key po mem
  | .remove key => (pd.remove key).map (true, ·)
  | .ensureCapacity capacity mem => some (pd.ensureCapacity capacity mem)
  | .makeImmutable => some (true, pd.makeImmutable)
  | .copy mutable => (if mutable then pd.copyMutable else pd.copy).map (true, ·)

/-- What a dictionary is for: a finite map that may be frozen. -/
structure Model (α : Type) where
  value : Str → Option α := fun _ => none
  frozen : Bool := false

/-- An operation on the map; `ok` is what the operation answered. -/
def Op.apply (m : Model α) (ok : Bool) : Op α → Model α
  | .set key po _ => if ok then { m with value := Function.update m.value key (some po) } else m
  | .remove key => if m.frozen then m else { m with value := Function.update m.value key none }
  | .ensureCapacity _ _ => m
  | .makeImmutable => { m with frozen := true }
  | .copy mutable => if mutable then { m with frozen := false } else m

/-- A step of the dictionary, and of the map beside it. -/
def step (s : Dictionary α × Model α) (op : Op α) : Option (Dictionary α × Model α) :=
  (op.exec s.1).map fun r => (r.2, op.apply s.2 r.1)

/-- The dictionary is the map. -/
structure Refines (pd : Dictionary α) (m : Model α) : Prop where
  frozen : pd.immutable = m.frozen
  version : pd.version < 4294967296
  contents : ∃ l, Repr pd l ∧ ∀ key, SortedMap.get strcmp l key = m.value key

theorem refines_alloc (capacity : Nat) : Refines (alloc capacity : Dictionary α) {} :=
  ⟨rfl, by show 0 < _; omega, [], repr_alloc capacity, fun _ => rfl⟩

theorem nextVersion_lt (version : Nat) : nextVersion version < 4294967296 :=
  Nat.mod_lt _ (by omega)

theorem value_update {l : List (Str × α)} {value : Str → Option α} {key : Str} {v : Option α}
    (hget : ∀ k, SortedMap.get strcmp l k = value k) (k : Str) :
    (if strcmp k key = .eq then v else SortedMap.get strcmp l k) =
      Function.update value key v k := by
  by_cases hk : k = key
  · rw [if_pos (strcmp_eq.mpr hk), hk, Function.update_self]
  · rw [if_neg (mt strcmp_eq.mp hk), Function.update_of_ne hk, hget]

/-- **One operation.** -/
theorem step_refines {pd : Dictionary α} {m : Model α} (h : Refines pd m) (op : Op α) :
    ∃ s', step (pd, m) op = some s' ∧ Refines s'.1 s'.2 := by
  obtain ⟨hfrozen, hversion, l, hrepr, hget⟩ := h
  cases op with
  | set key po mem =>
    obtain ⟨ok, pd', hset, hres⟩ := set_spec hrepr key po mem
    refine ⟨_, by rw [step, Op.exec, hset]; rfl, ?_⟩
    have hrepr' := hres.repr
    have hversion' : pd'.version < 4294967296 := by
      rw [hres.version]
      split
      · exact nextVersion_lt _
      · exact hversion
    cases ok with
    | false => exact ⟨hres.immutable.trans hfrozen, hversion', l, hrepr', hget⟩
    | true =>
      refine ⟨hres.immutable.trans hfrozen, hversion', _, hrepr', fun k => ?_⟩
      exact (SortedMap.get_insert hrepr.sorted).trans (value_update hget k)
  | remove key =>
    obtain ⟨pd', hremove, hrepr', himm, hv⟩ := remove_spec hrepr key
    have hversion' : pd'.version < 4294967296 := by
      rw [hv]
      split
      · exact nextVersion_lt _
      · exact hversion
    refine ⟨_, by rw [step, Op.exec, hremove]; rfl, ?_⟩
    -- a frozen dictionary refuses in both
    show Refines pd' (if m.frozen then m else _)
    cases hf : m.frozen with
    | true =>
      rw [hfrozen, hf] at hrepr'
      exact ⟨himm.trans hfrozen, hversion', l, hrepr', hget⟩
    | false =>
      rw [hfrozen, hf] at hrepr'
      refine ⟨himm.trans (hfrozen.trans hf), hversion', _, hrepr', fun k => ?_⟩
      exact SortedMap.get_erase.trans (value_update hget k)
  | ensureCapacity capacity mem =>
    obtain ⟨hrepr', himm, hv⟩ := ensureCapacity_spec hrepr capacity mem
    exact ⟨_, rfl, himm.trans hfrozen, by rw [hv]; exact hversion, l, hrepr', hget⟩
  | makeImmutable =>
    exact ⟨_, rfl, rfl, hversion, l, ⟨hrepr.holds, hrepr.count, hrepr.sorted, hrepr.keys⟩, hget⟩
  | copy mutable =>
    obtain ⟨pd', hcopy, hrepr', himm, hv⟩ := copy_spec hrepr
    have hversion' : pd'.version < 4294967296 := by
      rw [hv]
      omega
    cases mutable with
    | false =>
      exact ⟨_, by rw [step, Op.exec, if_neg Bool.false_ne_true, hcopy]; rfl,
        himm.trans hfrozen, hversion', l, hrepr', hget⟩
    | true =>
      refine ⟨_, by rw [step, Op.exec, if_pos rfl, copyMutable, hcopy]; rfl, ?_⟩
      exact ⟨rfl, hversion', l, ⟨hrepr'.holds, hrepr'.count, hrepr'.sorted, hrepr'.keys⟩, hget⟩

/-- **Every sequence of operations on a dictionary is one on a finite map**: no operation
reads or writes outside the entries, each key is found as the map has it, the keys come in
their order, and a key is stored unless the dictionary is immutable, the key is too long or
an allocation fails. -/
theorem run_refines (capacity : Nat) (ops : List (Op α)) :
    ∃ pd m, Run.run step ((alloc capacity : Dictionary α), {}) ops = some (pd, m) ∧
      (∀ key, pd.get key = some (m.value key)) ∧
      (∃ keys, pd.allKeys = some keys ∧ keys.Pairwise (fun a b => strcmp a b = .lt) ∧
        (∀ key, key ∈ keys ↔ m.value key ≠ none) ∧
        pd.count = keys.length ∧ pd.count ≤ pd.array.length) ∧
      ∀ key po mem, ∃ ok pd', pd.set key po mem = some (ok, pd') ∧
        (ok = true → Accepts m.frozen (m.value key) key) ∧
        (ok = false → Accepts m.frozen (m.value key) key →
          mem.keysym = false ∨ mem.array = false) := by
  obtain ⟨⟨pd, m⟩, hrun, hfrozen, -, l, hrepr, hget⟩ :=
    Run.exists_run (I := fun s : Dictionary α × Model α => Refines s.1 s.2)
      (s := (alloc capacity, {})) (fun s op h => step_refines h op) (refines_alloc capacity) ops
  refine ⟨pd, m, hrun, fun key => ?_, ⟨l.map Prod.fst, ?_, ?_, fun key => ?_, ?_, hrepr.room⟩, ?_⟩
  · rw [get_spec hrepr, hget]
  · rw [allKeys, entries_spec hrepr]
    rfl
  · exact List.pairwise_map.mpr hrepr.sorted
  · rw [← hget, List.mem_map]
    constructor
    · rintro ⟨e, he, rfl⟩
      rw [SortedMap.get_of_mem hrepr.sorted he]
      simp
    · intro hne
      obtain ⟨x, hx⟩ := Option.ne_none_iff_exists'.mp hne
      exact ⟨(key, x), SortedMap.mem_of_get hx, rfl⟩
  · rw [List.length_map, hrepr.count]
  · intro key po mem
    obtain ⟨ok, pd', hset, hres⟩ := set_spec hrepr key po mem
    have haccepts := hres.accepts
    have hrefused := hres.refused
    rw [hget, hfrozen] at haccepts hrefused
    exact ⟨ok, pd', hset, haccepts, hrefused⟩

end Dictionary

end Flappy.Proplib
