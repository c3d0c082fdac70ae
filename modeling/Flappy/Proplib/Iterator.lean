/-
Iterators over a dictionary (`_prop_dictionary_iterator_next_object_locked` and its
like in `lib/portableproplib/prop_dictionary.c`).

An iterator keeps an index and the version of the dictionary it was reset at.
Storing a value under a key that is there leaves the version; a key that is put in
or removed moves it on, and the iterator has ended.

* `next_spec` — one call, by whether the keys have changed;
* `iteration_spec` — an iterator among other operations.
-/
import Flappy.Proplib.Dictionary

open CStr Slots

namespace Flappy.Proplib

/-- `struct _prop_dictionary_iterator`. -/
structure Iterator where
  index : Nat
  version : Nat
deriving DecidableEq, Repr

namespace Dictionary

variable {α : Type}

/-- `_prop_dictionary_iterator_reset_locked`. -/
def iterator (pd : Dictionary α) : Iterator := { index := 0, version := pd.version }

/-- `_prop_dictionary_iterator_next_object_locked`; the assertion is the third branch. -/
def next (pd : Dictionary α) (pdi : Iterator) : Option (Option Str × Iterator) :=
  if pd.version ≠ pdi.version then some (none, pdi)
  else if pdi.index = pd.count then some (none, pdi)
  else if pdi.index > pd.count then none
  else (read pd.array pdi.index).map fun pde => (some pde.1, { pdi with index := pdi.index + 1 })

/-- What happens while an iterator is in use. -/
inductive Event (α : Type) where
  | next
  | op (op : Op α)

/-- A dictionary with an iterator over it: the keys it has given since its reset, and how
often the number of keys has changed. -/
structure Iteration (α : Type) where
  pd : Dictionary α
  pdi : Iterator
  given : List Str := []
  changes : Nat := 0

/-- A step; a copy is another dictionary. -/
def Iteration.step (s : Iteration α) : Event α → Option (Iteration α)
  | .next => (s.pd.next s.pdi).map fun r => { s with pdi := r.2, given := s.given ++ r.1.toList }
  | .op (.copy _) => some s
  | .op o => (o.exec s.pd).map fun r =>
    { s with
      pd := r.2
      changes := if r.2.count = s.pd.count then s.changes else s.changes + 1 }

/-! ### The version -/

/-- What an operation does to the keys and to the version. -/
structure KeysAfter (pd : Dictionary α) (l : List (Str × α)) (pd' : Dictionary α)
    (l' : List (Str × α)) : Prop where
  repr : Repr pd' l'
  keys : l'.map Prod.fst = l.map Prod.fst ∧ pd'.version = pd.version ∨
    l'.length ≠ l.length ∧ pd'.version = nextVersion pd.version

variable {pd : Dictionary α} {l : List (Str × α)}

/-- The version moves on exactly with the number of keys. -/
theorem exec_keys (h : Repr pd l) (o : Op α) (hcopy : ∀ b, o ≠ .copy b) :
    ∃ ok pd' l', o.exec pd = some (ok, pd') ∧ KeysAfter pd l pd' l' := by
  cases o with
  | set key po mem =>
    obtain ⟨ok, pd', hset, hres⟩ := set_spec h key po mem
    refine ⟨ok, pd', _, hset, hres.repr, ?_⟩
    rw [hres.version]
    cases ok with
    | false => exact Or.inl ⟨rfl, rfl⟩
    | true =>
      by_cases hget : SortedMap.get strcmp l key = none
      · refine Or.inr ⟨?_, if_pos ⟨rfl, hget⟩⟩
        rw [if_pos rfl, (SortedMap.perm_insert hget).length_eq, List.length_cons]
        omega
      · refine Or.inl ⟨?_, if_neg fun hboth => hget hboth.2⟩
        rw [if_pos rfl, SortedMap.keys_insert h.sorted hget]
  | remove key =>
    obtain ⟨pd', hremove, hrepr, -, hversion⟩ := remove_spec h key
    refine ⟨true, pd', _, by rw [Op.exec, hremove]; rfl, hrepr, ?_⟩
    rw [hversion]
    cases pd.immutable with
    | true => exact Or.inl ⟨rfl, rfl⟩
    | false =>
      by_cases hget : SortedMap.get strcmp l key = none
      · refine Or.inl ⟨?_, if_neg fun hboth => hboth.2 hget⟩
        rw [if_neg Bool.false_ne_true, SortedMap.erase_of_get_none hget]
      · refine Or.inr ⟨?_, if_pos ⟨rfl, hget⟩⟩
        rw [if_neg Bool.false_ne_true]
        exact Nat.ne_of_lt (SortedMap.length_erase_lt hget)
  | ensureCapacity capacity mem =>
    obtain ⟨hrepr, -, hversion⟩ := ensureCapacity_spec h capacity mem
    exact ⟨_, _, l, rfl, hrepr, Or.inl ⟨rfl, hversion⟩⟩
  | makeImmutable => exact ⟨_, _, l, rfl, ⟨h.holds, h.count, h.sorted, h.keys⟩, Or.inl ⟨rfl, rfl⟩⟩
  | copy mutable => exact absurd rfl (hcopy mutable)

/-- What the iterator has done since its reset, at which the keys were `start`. -/
structure Iterating (start : List Str) (s : Iteration α) : Prop where
  contents : ∃ l, Repr s.pd l ∧ (s.changes = 0 → l.map Prod.fst = start)
  version : s.pd.version = (s.pdi.version + s.changes) % 4294967296
  bound : s.pdi.version < 4294967296
  given : s.given = start.take s.pdi.index
  index : s.pdi.index ≤ start.length

theorem nextVersion_add {version changes : Nat} :
    nextVersion ((version + changes) % 4294967296) = (version + (changes + 1)) % 4294967296 := by
  rw [nextVersion, Nat.mod_add_mod, Nat.add_assoc]

/-- While fewer than `2^32` changes have happened, the version tells whether there was one. -/
theorem Iterating.version_eq_iff {start : List Str} {s : Iteration α} (h : Iterating start s)
    (hfew : s.changes < 4294967296) : s.pd.version = s.pdi.version ↔ s.changes = 0 := by
  have hv := h.version
  have hb := h.bound
  constructor
  · intro heq
    rw [heq] at hv
    omega
  · intro h0
    rw [h0] at hv
    omega

/-- **A call of the iterator.** -/
theorem next_spec {start : List Str} {s : Iteration α} (h : Iterating start s)
    (hfew : s.changes < 4294967296) :
    ∃ pdi, s.pd.next s.pdi =
        some (if s.changes = 0 then start[s.pdi.index]? else none, pdi) ∧
      pdi.version = s.pdi.version ∧
      pdi.index = s.pdi.index + (if s.changes = 0 then start[s.pdi.index]? else none).toList.length := by
  obtain ⟨l, hrepr, hkeys⟩ := h.contents
  have hversion := h.version_eq_iff hfew
  rw [next]
  by_cases h0 : s.changes = 0
  · obtain rfl := hkeys h0
    have hlen : (l.map Prod.fst).length = s.pd.count := by rw [List.length_map, hrepr.count]
    have hindex := h.index
    rw [if_neg (by simp [hversion, h0]), if_pos h0]
    by_cases hend : s.pdi.index = s.pd.count
    · rw [if_pos hend, List.getElem?_eq_none (by omega)]
      exact ⟨s.pdi, rfl, rfl, rfl⟩
    · have hlt : s.pdi.index < l.length := by rw [← hrepr.count]; omega
      rw [if_neg hend, if_neg (by omega), hrepr.holds.read hlt, List.getElem?_map,
        List.getElem?_eq_getElem hlt]
      exact ⟨_, rfl, rfl, rfl⟩
  · rw [if_pos (by simp [hversion, h0]), if_neg h0]
    exact ⟨s.pdi, rfl, rfl, rfl⟩

theorem iterating_reset {l : List (Str × α)} (h : Repr pd l) (hversion : pd.version < 4294967296) :
    Iterating (l.map Prod.fst) { pd := pd, pdi := pd.iterator } where
  contents := ⟨l, h, fun _ => rfl⟩
  version := (Nat.mod_eq_of_lt hversion).symm
  bound := hversion
  given := rfl
  index := Nat.zero_le _

/-- The step of an operation other than a copy. -/
theorem exec_iterating {start : List Str} {s : Iteration α} (h : Iterating start s) (o : Op α)
    (hcopy : ∀ b, o ≠ .copy b) :
    ∃ s', ((o.exec s.pd).map fun r =>
        { s with
          pd := r.2
          changes := if r.2.count = s.pd.count then s.changes else s.changes + 1 }) = some s' ∧
      Iterating start s' ∧ s'.changes ≤ s.changes + 1 := by
  obtain ⟨l, hrepr, hkeys⟩ := h.contents
  obtain ⟨ok, pd', l', hexec, hrepr', hafter⟩ := exec_keys hrepr o hcopy
  refine ⟨_, by rw [hexec]; rfl, ?_⟩
  rcases hafter with ⟨hsame, hversion⟩ | ⟨hother, hversion⟩
  · have hcount : pd'.count = s.pd.count := by
      rw [hrepr'.count, hrepr.count, ← List.length_map Prod.fst, hsame, List.length_map]
    simp only [if_pos hcount]
    refine ⟨⟨⟨l', hrepr', ?_⟩, ?_, h.bound, h.given, h.index⟩, Nat.le_succ _⟩
    · rw [hsame]
      exact hkeys
    · rw [hversion]
      exact h.version
  · have hcount : pd'.count ≠ s.pd.count := by
      rw [hrepr'.count, hrepr.count]
      exact hother
    simp only [if_neg hcount]
    refine ⟨⟨⟨l', hrepr', ?_⟩, ?_, h.bound, h.given, h.index⟩, Nat.le_refl _⟩
    · intro h0
      cases h0
    · rw [hversion, h.version, nextVersion_add]

/-- One event; `changes` grows by one at most. -/
theorem step_iterating {start : List Str} {s : Iteration α} (h : Iterating start s)
    (hfew : s.changes < 4294967296) (e : Event α) :
    ∃ s', s.step e = some s' ∧ Iterating start s' ∧ s'.changes ≤ s.changes + 1 := by
  cases e with
  | next =>
    obtain ⟨pdi, hnext, hversion, hindex⟩ := next_spec h hfew
    refine ⟨_, by rw [Iteration.step, hnext]; rfl, ?_⟩
    refine ⟨⟨h.contents, ?_, ?_, ?_, ?_⟩, Nat.le_succ _⟩
    · rw [hversion]
      exact h.version
    · rw [hversion]
      exact h.bound
    · -- a key is given as long as nothing has changed
      show s.given ++ _ = start.take pdi.index
      rw [hindex, h.given]
      by_cases h0 : s.changes = 0
      · rw [if_pos h0]
        cases hget : start[s.pdi.index]? with
        | none => exact List.append_nil _
        | some key =>
          obtain ⟨hlt, rfl⟩ := List.getElem?_eq_some_iff.mp hget
          exact List.take_append_getElem hlt
      · rw [if_neg h0]
        exact List.append_nil _
    · rw [hindex]
      by_cases h0 : s.changes = 0
      · rw [if_pos h0]
        cases hget : start[s.pdi.index]? with
        | none => exact h.index
        | some key =>
          obtain ⟨hlt, -⟩ := List.getElem?_eq_some_iff.mp hget
          exact hlt
      · rw [if_neg h0]
        exact h.index
  | op o =>
    cases o with
    | copy b => exact ⟨s, rfl, h, Nat.le_succ _⟩
    | set key po mem => exact exec_iterating h (.set key po mem) (fun b hb => by cases hb)
    | remove key => exact exec_iterating h (.remove key) (fun b hb => by cases hb)
    | ensureCapacity capacity mem =>
      exact exec_iterating h (.ensureCapacity capacity mem) (fun b hb => by cases hb)
    | makeImmutable => exact exec_iterating h .makeImmutable (fun b hb => by cases hb)

theorem run_iterating {start : List Str} {s : Iteration α} (h : Iterating start s)
    (es : List (Event α)) (hfew : s.changes + es.length < 4294967296) :
    ∃ s', Run.run Iteration.step s es = some s' ∧ Iterating start s' ∧
      s'.changes < 4294967296 := by
  induction es generalizing s with
  | nil => exact ⟨s, rfl, h, hfew⟩
  | cons e es ih =>
    rw [List.length_cons] at hfew
    obtain ⟨s₁, hstep, h₁, hle⟩ := step_iterating h (by omega) e
    obtain ⟨s', hrun, h', hlt⟩ := ih h₁ (by omega)
    exact ⟨s', Run.run_cons_eq_some.mpr ⟨s₁, hstep, hrun⟩, h', hlt⟩

/-- **An iterator among other operations**, fewer than `2^32` of them, on a dictionary however
it was made: it gives the keys that the dictionary had when it was reset, in their order and
each one once; it goes on as long as no key is put in or removed, and has ended from then on. -/
theorem iteration_spec (capacity : Nat) (ops : List (Op α)) (es : List (Event α))
    (hfew : es.length < 4294967296) :
    ∃ pd m keys s, Run.run step ((alloc capacity : Dictionary α), {}) ops = some (pd, m) ∧
      pd.allKeys = some keys ∧
      Run.run Iteration.step { pd := pd, pdi := pd.iterator } es = some s ∧
      s.given <+: keys ∧
      ∃ pdi, s.pd.next s.pdi = some (if s.changes = 0 then keys[s.given.length]? else none, pdi) := by
  obtain ⟨⟨pd, m⟩, hops, -, hversion, l, hrepr, -⟩ :=
    Run.exists_run (I := fun s : Dictionary α × Model α => Refines s.1 s.2)
      (s := (alloc capacity, {})) (fun s op h => step_refines h op) (refines_alloc capacity) ops
  obtain ⟨s, hrun, hs, hlt⟩ :=
    run_iterating (iterating_reset hrepr hversion) es (by simpa using hfew)
  obtain ⟨pdi, hnext, -, -⟩ := next_spec hs hlt
  have hgiven : s.given.length = s.pdi.index := by
    rw [hs.given, List.length_take, Nat.min_eq_left hs.index]
  refine ⟨pd, m, l.map Prod.fst, s, hops, ?_, hrun, ?_, pdi, ?_⟩
  · rw [allKeys, entries_spec hrepr]
    rfl
  · rw [hs.given]
    exact List.take_prefix _ _
  · rw [hgiven]
    exact hnext

/-- An iterator over two keys, of which one is removed after the first has been given. -/
theorem iteration_spec_removal :
    ∃ pd m keys s, Run.run step ((alloc 0 : Dictionary Nat), {})
        [.set ['a'] 1 {}, .set ['b'] 2 {}] = some (pd, m) ∧
      pd.allKeys = some keys ∧
      Run.run Iteration.step { pd := pd, pdi := pd.iterator } [.next, .op (.remove ['b'])] = some s ∧
      s.given <+: keys ∧
      ∃ pdi, s.pd.next s.pdi = some (if s.changes = 0 then keys[s.given.length]? else none, pdi) :=
  iteration_spec 0 [.set ['a'] 1 {}, .set ['b'] 2 {}] [.next, .op (.remove ['b'])] (by decide)

end Dictionary

end Flappy.Proplib
