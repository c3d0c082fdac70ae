/-
Dictionaries and their documents (`_prop_dictionary_externalize` and its callers in
`lib/portableproplib/prop_dictionary.c`).

A dictionary is written by an iterator over its keys, each looked up again; the text is
that of its contents.  So the document of a dictionary, whatever was done to it before,
gives the values that were stored last.

* `externalize_spec` — the loop writes the contents;
* `set_contents` — the reader stores as `prop_dictionary_set` does;
* `history_rewritten` — from the operations to the dictionary that is read.
-/
import Flappy.Proplib.Accepted
import Flappy.Proplib.Iterator

open CStr Slots

namespace Flappy.Proplib

/-- An object that can be stored. -/
structure Value where
  obj : Obj
  wf : obj.WF

namespace Dictionary

/-! ### The writer -/

/-- A turn of the loop of `_prop_dictionary_externalize`, on the iterator and the text. -/
def externTurn (pd : Dictionary Value) (depth : Nat) (s : Iterator × Str) :
    (Iterator × Str) ⊕ Option Str :=
  match pd.next s.1 with
  | none => .inr none
  | some (none, _) => .inr (some s.2)
  | some (some pdk, pdi) =>
    match pd.get pdk with
    | some (some po) =>
      .inl (pdi, s.2 ++ (startTag depth "key".toList ++ (encodedCstring pdk ++
        (endTag "key".toList ++ potExtern depth po.obj))))
    | _ => .inr none

theorem next_lt {α : Type} {pd : Dictionary α} {pdi pdi' : Iterator} {pdk : Str}
    (h : pd.next pdi = some (some pdk, pdi')) :
    pdi.index < pd.count ∧ pdi'.index = pdi.index + 1 := by
  rw [next] at h
  split_ifs at h with hversion hend habove
  · cases h
  · cases h
  · obtain ⟨pde, -, heq⟩ := Option.map_eq_some_iff.mp h
    obtain rfl := (Prod.mk.inj heq).2
    exact ⟨by omega, rfl⟩

def externMeasure (pd : Dictionary Value) (depth : Nat) : Loop.Measure (pd.externTurn depth) where
  size s := pd.count - s.1.index
  lt := by
    rintro ⟨pdi, text⟩ s' h
    rw [externTurn] at h
    split at h
    · cases h
    · cases h
    · rename_i pdk pdi' hnext
      obtain ⟨hlt, hindex⟩ : pdi.index < pd.count ∧ pdi'.index = pdi.index + 1 := next_lt hnext
      split at h
      · obtain rfl := Sum.inl.inj h
        show pd.count - pdi'.index < pd.count - pdi.index
        omega
      · cases h

/-- `_prop_dictionary_externalize`. -/
def externDict (pd : Dictionary Value) (depth : Nat) : Option Str :=
  if pd.count = 0 then some (emptyTag depth "dict".toList)
  else
    (Loop.run (pd.externMeasure (depth + 1)) (pd.iterator, [])).map fun text =>
      startTag depth "dict".toList ++ '\n' :: (text ++ (tabs depth ++ endTag "dict".toList))

/-- `prop_dictionary_externalize`. -/
def externalize (pd : Dictionary Value) : Option Str :=
  (pd.externDict 0).map fun text =>
    plistXmlHeader ++ (startTag 0 "plist version=\"1.0\"".toList ++
      '\n' :: (text ++ endTag "plist".toList))

/-- The contents of a dictionary, as an object has them. -/
def contents (l : List (Str × Value)) : List (Str × Obj) := l.map fun e => (e.1, e.2.obj)

variable {pd : Dictionary Value} {l : List (Str × Value)}

theorem get_contents (l : List (Str × Value)) (key : Str) :
    SortedMap.get strcmp (contents l) key = (SortedMap.get strcmp l key).map Value.obj :=
  SortedMap.get_map_value _ _ _

theorem Repr.wf (h : Repr pd l) : (Obj.dict (contents l)).WF := by
  refine .dict (List.pairwise_map.mpr h.sorted) (fun e he => ?_) fun e he => ?_
  · obtain ⟨a, ha, rfl⟩ := List.mem_map.mp he
    exact h.keys a ha
  · obtain ⟨a, -, rfl⟩ := List.mem_map.mp he
    exact a.2.wf

/-- The loop writes the entries from the index of the iterator on. -/
theorem externRun_spec (h : Repr pd l) (depth : Nat) (n : Nat) {idx : Nat} (hn : idx + n = l.length)
    (text : Str) :
    Loop.run (pd.externMeasure depth) (⟨idx, pd.version⟩, text) =
      some (text ++ externEntries depth (contents (l.drop idx))) := by
  induction n generalizing idx text with
  | zero =>
    have hnext : pd.next ⟨idx, pd.version⟩ = some (none, ⟨idx, pd.version⟩) := by
      rw [next, if_neg (by simp), if_pos (by rw [h.count]; omega)]
    have hturn : pd.externTurn depth (⟨idx, pd.version⟩, text) = .inr (some text) := by
      rw [externTurn, hnext]
    rw [Loop.run_inr hturn, List.drop_eq_nil_of_le (by omega)]
    simp [contents, externEntries]
  | succ n ih =>
    have hidx : idx < l.length := by omega
    have hcount := h.count
    have hnext : pd.next ⟨idx, pd.version⟩ = some (some l[idx].1, ⟨idx + 1, pd.version⟩) := by
      rw [next, if_neg (by simp), if_neg (by simp only; omega), if_neg (by simp only; omega),
        h.holds.read hidx]
      rfl
    have hget : pd.get l[idx].1 = some (some l[idx].2) := by
      rw [get_spec h, SortedMap.get_of_mem h.sorted (List.getElem_mem hidx)]
    have hturn : pd.externTurn depth (⟨idx, pd.version⟩, text) =
        .inl (⟨idx + 1, pd.version⟩, text ++ (startTag depth "key".toList ++
          (encodedCstring l[idx].1 ++ (endTag "key".toList ++ potExtern depth l[idx].2.obj)))) := by
      simp only [externTurn, hnext, hget]
    rw [Loop.run_inl hturn, ih (by omega), List.drop_eq_getElem_cons hidx]
    simp only [contents, List.map_cons, externEntries, List.append_assoc]

theorem externDict_spec (h : Repr pd l) (depth : Nat) :
    pd.externDict depth = some (potExtern depth (.dict (contents l))) := by
  rw [externDict, potExtern, h.count]
  by_cases hl : l = []
  · subst hl
    rfl
  · have hlen : l.length ≠ 0 := mt List.length_eq_zero_iff.mp hl
    rw [if_neg hlen, if_neg (by simpa [contents] using hl)]
    have hrun := externRun_spec h (depth + 1) l.length (Nat.zero_add _) []
    rw [List.drop_zero, List.nil_append] at hrun
    rw [iterator, hrun]
    rfl

/-- The document of a dictionary is that of its contents. -/
theorem externalize_spec (h : Repr pd l) :
    pd.externalize = some (Proplib.externalize (.dict (contents l))) := by
  rw [externalize, externDict_spec h]
  rfl

/-! ### The reader -/

/-- The reader stores a value in the contents as `prop_dictionary_set` does in a dictionary. -/
theorem set_contents {pd : Dictionary Obj} {l : List (Str × Obj)} (h : Repr pd l)
    (hmutable : pd.immutable = false) (key : Str) (po : Obj) :
    ∃ pd', pd.set key po {} = some ((setContents l key po).isSome, pd') ∧
      Repr pd' ((setContents l key po).getD l) := by
  obtain ⟨ok, pd', hset, hres⟩ := set_spec h key po {}
  have hshort : SortedMap.get strcmp l key ≠ none → key.length ≤ maxkey := fun hget => by
    obtain ⟨x, hx⟩ := Option.ne_none_iff_exists'.mp hget
    exact h.keys (key, x) (SortedMap.mem_of_get hx)
  refine ⟨pd', ?_⟩
  by_cases hkey : key.length ≤ maxkey
  · have hok : ok = true := by
      by_contra hno
      have hrefused := hres.refused (Bool.eq_false_iff.mpr hno) ⟨hmutable, Or.inr hkey⟩
      exact hrefused.elim (by simp) (by simp)
    subst hok
    rw [setContents, if_pos hkey]
    exact ⟨hset, hres.repr⟩
  · have hok : ok = false := by
      by_contra hyes
      rw [Bool.not_eq_false] at hyes
      exact hkey ((hres.accepts hyes).2.elim hshort id)
    subst hok
    rw [setContents, if_neg hkey]
    exact ⟨hset, hres.repr⟩

theorem readable_contents :
    (Obj.dict (contents l)).readable = true ↔ ∀ e ∈ l, e.2.obj.readable = true := by
  rw [Obj.readable]
  induction l with
  | nil => simp [contents, readableEntries]
  | cons e l ih =>
    rw [contents] at ih
    simp only [contents, List.map_cons, readableEntries, Bool.and_eq_true, ih,
      List.forall_mem_cons]

/-- The contents after some operations, beside the map. -/
theorem exists_history {α : Type} (capacity : Nat) (ops : List (Op α)) :
    ∃ pd m l, Run.run step ((alloc capacity : Dictionary α), {}) ops = some (pd, m) ∧ Repr pd l ∧
      ∀ key, SortedMap.get strcmp l key = m.value key := by
  obtain ⟨⟨pd, m⟩, hrun, -, -, l, hrepr, hget⟩ :=
    Run.exists_run (I := fun s : Dictionary α × Model α => Refines s.1 s.2)
      (s := (alloc capacity, {})) (fun s op h => step_refines h op) (refines_alloc capacity) ops
  exact ⟨pd, m, l, hrun, hrepr, hget⟩

/-- **What was stored is read back**: after any operations, the dictionary has a document, and
the dictionary that is read from it has, under each key, the value that the map has. Only
data that is empty, anywhere in a value, makes the document unreadable. -/
theorem history_rewritten (capacity : Nat) (ops : List (Op Value)) :
    ∃ pd m xml, Run.run step ((alloc capacity : Dictionary Value), {}) ops = some (pd, m) ∧
      pd.externalize = some xml ∧
      ((∀ key po, m.value key = some po → po.obj.readable = true) →
        ∃ entries, dictionaryInternalize xml = some (.dict entries) ∧
          ∀ key, SortedMap.get strcmp entries key = (m.value key).map fun po => po.obj.norm) ∧
      ((∃ key po, m.value key = some po ∧ po.obj.readable = false) →
        dictionaryInternalize xml = none) := by
  obtain ⟨pd, m, l, hrun, hrepr, hget⟩ := exists_history capacity ops
  have hread := genericInternalize_externalize hrepr.wf
  have hvalue : ∀ e ∈ l, m.value e.1 = some e.2 := fun e he => by
    rw [← hget, SortedMap.get_of_mem hrepr.sorted he]
  refine ⟨pd, m, _, hrun, externalize_spec hrepr, fun hreadable => ?_, ?_⟩
  · have hall : (Obj.dict (contents l)).readable = true :=
      readable_contents.mpr fun e he => hreadable e.1 e.2 (hvalue e he)
    rw [hall, if_pos rfl] at hread
    refine ⟨normEntries (contents l), hread, fun key => ?_⟩
    rw [normEntries_eq_map, SortedMap.get_map_value, get_contents, hget, Option.map_map]
    rfl
  · rintro ⟨key, po, hkey, hpo⟩
    have hmem : (key, po) ∈ l := SortedMap.mem_of_get ((hget key).trans hkey)
    have hnot : (Obj.dict (contents l)).readable = false := by
      rw [Bool.eq_false_iff]
      intro hall
      have hreadable := readable_contents.mp hall (key, po) hmem
      rw [hpo] at hreadable
      cases hreadable
    rw [hnot] at hread
    exact hread

theorem normEntries_contents_eq_iff {l₁ l₂ : List (Str × Value)}
    (h₁ : SortedMap.Sorted strcmp l₁) (h₂ : SortedMap.Sorted strcmp l₂) :
    normEntries (contents l₁) = normEntries (contents l₂) ↔
      ∀ key, (SortedMap.get strcmp l₁ key).map (fun po => po.obj.norm) =
        (SortedMap.get strcmp l₂ key).map fun po => po.obj.norm := by
  have hget : ∀ (l : List (Str × Value)) (key : Str),
      SortedMap.get strcmp (normEntries (contents l)) key =
        (SortedMap.get strcmp l key).map fun po => po.obj.norm := fun l key => by
    rw [normEntries_eq_map, SortedMap.get_map_value, get_contents, Option.map_map]
    rfl
  have hsorted : ∀ {l : List (Str × Value)}, SortedMap.Sorted strcmp l →
      SortedMap.Sorted strcmp (normEntries (contents l)) := fun h => by
    rw [normEntries_eq_map]
    exact List.pairwise_map.mpr (List.pairwise_map.mpr h)
  constructor
  · intro heq key
    rw [← hget, ← hget, heq]
  · intro heq
    refine SortedMap.ext (hsorted h₁) (hsorted h₂) fun key => ?_
    rw [hget, hget, heq]

variable {identical : List Compared × Compared → Bool}

/-- **Whether two dictionaries are equal depends on their maps alone**: not on the order in
which keys were stored and removed, on what else they held, or on their capacities. -/
theorem histories_equal (hsame : ∀ s, identical s = true → s.2.obj1 = s.2.obj2)
    (capacity₁ capacity₂ : Nat) (ops₁ ops₂ : List (Op Value)) :
    ∃ pd₁ m₁ l₁ pd₂ m₂ l₂,
      Run.run step ((alloc capacity₁ : Dictionary Value), {}) ops₁ = some (pd₁, m₁) ∧
      Run.run step ((alloc capacity₂ : Dictionary Value), {}) ops₂ = some (pd₂, m₂) ∧
      pd₁.entries = some l₁ ∧ pd₂.entries = some l₂ ∧
      (objectEquals identical (.dict (contents l₁)) (.dict (contents l₂)) = true ↔
        ∀ key, (m₁.value key).map (fun po => po.obj.norm) =
          (m₂.value key).map fun po => po.obj.norm) := by
  obtain ⟨pd₁, m₁, l₁, hrun₁, hrepr₁, hget₁⟩ := exists_history capacity₁ ops₁
  obtain ⟨pd₂, m₂, l₂, hrun₂, hrepr₂, hget₂⟩ := exists_history capacity₂ ops₂
  refine ⟨pd₁, m₁, l₁, pd₂, m₂, l₂, hrun₁, hrun₂, entries_spec hrepr₁, entries_spec hrepr₂, ?_⟩
  rw [objectEquals_rest hsame, rest_fresh, Obj.norm, Obj.norm, Obj.dict.injEq,
    normEntries_contents_eq_iff hrepr₁.sorted hrepr₂.sorted]
  simp only [hget₁, hget₂]

/-- Two orders of storing, with a removal in one of them. -/
theorem histories_equal_order :
    ∃ pd₁ m₁ l₁ pd₂ m₂ l₂,
      Run.run step ((alloc 0 : Dictionary Value), {})
        [.set ['a'] ⟨.bool true, .bool⟩ {}, .set ['b'] ⟨.string ['x'], .string⟩ {}] =
          some (pd₁, m₁) ∧
      Run.run step ((alloc 16 : Dictionary Value), {})
        [.set ['b'] ⟨.string ['x'], .string⟩ {}, .set ['c'] ⟨.bool false, .bool⟩ {},
          .remove ['c'], .set ['a'] ⟨.bool true, .bool⟩ {}] = some (pd₂, m₂) ∧
      pd₁.entries = some l₁ ∧ pd₂.entries = some l₂ ∧
      (objectEquals (fun _ => false) (.dict (contents l₁)) (.dict (contents l₂)) = true ↔
        ∀ key, (m₁.value key).map (fun po => po.obj.norm) =
          (m₂.value key).map fun po => po.obj.norm) :=
  histories_equal (fun _ h => by cases h) 0 16
    [.set ['a'] ⟨.bool true, .bool⟩ {}, .set ['b'] ⟨.string ['x'], .string⟩ {}]
    [.set ['b'] ⟨.string ['x'], .string⟩ {}, .set ['c'] ⟨.bool false, .bool⟩ {}, .remove ['c'],
      .set ['a'] ⟨.bool true, .bool⟩ {}]

end Dictionary

end Flappy.Proplib
