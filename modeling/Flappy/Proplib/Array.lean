/-
Arrays (`lib/portableproplib/prop_array.c`).

The objects stand at the start of a block that grows by sixteen at a time.  The loops
that make room at the front, or close a gap, move one object a turn.  An index that an
assertion rules out has no result, and neither has an access outside the objects.

* `shiftRight_eq`, `shiftLeft_eq` — the loops move the objects as `memmove` would;
* `exec_spec` — one operation, on the objects as a list;
* `run_list` — every sequence of operations is one on a list, up to an index that is
  ruled out.
-/
import Flappy.Proplib.Dictionary

open Slots

namespace Flappy.Proplib

/-- `struct _prop_array`; `pa_capacity` is the length of the block. -/
structure PropArray (α : Type) where
  array : Block α
  count : Nat := 0
  immutable : Bool := false
  version : Nat := 0

namespace PropArray

variable {α : Type}

/-- `_prop_array_alloc`. -/
def alloc (capacity : Nat) : PropArray α := { array := calloc capacity }

/-- `_prop_array_expand`. -/
def expand (pa : PropArray α) (capacity : Nat) : PropArray α :=
  { pa with array := Slots.expand pa.array capacity }

/-- `prop_array_get`. -/
def get (pa : PropArray α) (idx : Nat) : Option (Option α) :=
  if idx ≥ pa.count then some none else (read pa.array idx).map some

/-- The test at the start of `_prop_array_add` and `_prop_array_add_first`: the array with room
for one more object; `mem` tells whether an allocation succeeds. -/
def room (pa : PropArray α) (mem : Bool) : Option (PropArray α) :=
  if pa.immutable then none
  else if pa.count = pa.array.length then
    if mem then some (pa.expand (pa.array.length + expandStep)) else none
  else some pa

/-- An object has been put into the block. -/
def stored (pa : PropArray α) (array : Block α) : PropArray α :=
  { pa with array := array, count := pa.count + 1, version := nextVersion pa.version }

/-- `_prop_array_add`. -/
def add (pa : PropArray α) (po : α) (mem : Bool) : Option (Bool × PropArray α) :=
  match pa.room mem with
  | none => some (false, pa)
  | some pa => (write pa.array pa.count po).map fun array => (true, pa.stored array)

/-- The loop of `_prop_array_add_first`: the objects below `cnt` move one up, the last first. -/
def shiftRight (array : Block α) : Nat → Option (Block α)
  | 0 => some array
  | cnt + 1 =>
    match read array cnt with
    | none => none
    | some opo => (write array (cnt + 1) opo).bind fun array => shiftRight array cnt

/-- `_prop_array_add_first`. -/
def addFirst (pa : PropArray α) (po : α) (mem : Bool) : Option (Bool × PropArray α) :=
  match pa.room mem with
  | none => some (false, pa)
  | some pa =>
    if pa.count = 0 then (write pa.array pa.count po).map fun array => (true, pa.stored array)
    else
      (shiftRight pa.array pa.count).bind fun array =>
        (write array 0 po).map fun array => (true, pa.stored array)

/-- `prop_array_set`; an index behind the count fails an assertion. -/
def set (pa : PropArray α) (idx : Nat) (po : α) (mem : Bool) : Option (Bool × PropArray α) :=
  if pa.immutable then some (false, pa)
  else if idx = pa.count then pa.add po mem
  else if idx < pa.count then
    (write pa.array idx po).map fun array =>
      (true, { pa with array := array, version := nextVersion pa.version })
  else none

/-- The loop of `prop_array_remove`: so many objects behind `idx` move one down, the first
first. -/
def shiftLeft (array : Block α) (idx : Nat) : Nat → Option (Block α)
  | 0 => some array
  | n + 1 =>
    match read array (idx + 1) with
    | none => none
    | some po => (write array idx po).bind fun array => shiftLeft array (idx + 1) n

/-- `prop_array_remove`; the index is asserted before the flag is looked at. -/
def remove (pa : PropArray α) (idx : Nat) : Option (PropArray α) :=
  if idx < pa.count then
    if pa.immutable then some pa
    else
      (shiftLeft pa.array idx (pa.count - (idx + 1))).map fun array =>
        { pa with array := array, count := pa.count - 1, version := nextVersion pa.version }
  else none

/-- `prop_array_ensure_capacity`. -/
def ensureCapacity (pa : PropArray α) (capacity : Nat) (mem : Bool) : Bool × PropArray α :=
  if capacity > pa.array.length then
    if mem then (true, pa.expand capacity) else (false, pa)
  else (true, pa)

/-- The loop of `prop_array_copy`. -/
def objectsFrom (pa : PropArray α) (idx : Nat) : Nat → Option (List α)
  | 0 => some []
  | n + 1 =>
    match read pa.array idx with
    | none => none
    | some po => (pa.objectsFrom (idx + 1) n).map (po :: ·)

/-- The objects, in the order of the block. -/
def objects (pa : PropArray α) : Option (List α) := pa.objectsFrom 0 pa.count

/-- `prop_array_copy`; the copy has its own block. -/
def copy (pa : PropArray α) : Option (PropArray α) :=
  pa.objects.map fun l =>
    { array := l.map some, count := pa.count, immutable := pa.immutable }

/-- `prop_array_copy_mutable`. -/
def copyMutable (pa : PropArray α) : Option (PropArray α) :=
  pa.copy.map fun pa => { pa with immutable := false }

/-! ### The loops -/

/-- The slots below `n` are in use. -/
def Full (b : Block α) (n : Nat) : Prop := ∀ i < n, (read b i).isSome

theorem full_of_holds {b : Block α} {l : List α} (h : Holds b l) : Full b l.length := by
  intro i hi
  rw [h.read hi]
  rfl

theorem getElem?_of_read {b : Block α} {i : Nat} {x : α} (h : read b i = some x) :
    b[i]? = some (some x) := by
  rw [Slots.read, Option.join_eq_some_iff] at h
  exact h

/-- A slot after the loop that makes room at the front. -/
theorem shiftRight_spec {b : Block α} {n : Nat} (hfull : Full b n) (hn : n < b.length) :
    ∃ b', shiftRight b n = some b' ∧ b'.length = b.length ∧
      ∀ i, b'[i]? = if 1 ≤ i ∧ i < 1 + n then b[i - 1]? else b[i]? := by
  induction n generalizing b with
  | zero => exact ⟨b, rfl, rfl, fun i => (if_neg (by omega)).symm⟩
  | succ n ih =>
    obtain ⟨x, hx⟩ := Option.isSome_iff_exists.mp (hfull n (Nat.lt_succ_self n))
    have hfull' : Full (b.set (n + 1) (some x)) n := by
      intro i hi
      have hi' := hfull i (by omega)
      rw [Slots.read] at hi' ⊢
      rwa [List.getElem?_set_ne (by omega)]
    obtain ⟨b', hrun, hlen, hget⟩ := ih hfull' (by rw [List.length_set]; omega)
    rw [List.length_set] at hlen
    refine ⟨b', ?_, hlen, fun i => ?_⟩
    · rw [shiftRight, hx]
      simp only [write_eq hn, Option.bind_some, hrun]
    · rw [hget, List.getElem?_set, List.getElem?_set]
      by_cases hlast : i = n + 1
      · subst hlast
        rw [if_neg (by omega), if_pos rfl, if_pos hn, if_pos (by omega)]
        exact (getElem?_of_read hx).symm
      · by_cases hmid : 1 ≤ i ∧ i < 1 + n
        · rw [if_pos hmid, if_neg (by omega), if_pos (by omega)]
        · rw [if_neg hmid, if_neg (Ne.symm hlast), if_neg (by omega)]

/-- The loop that makes room at the front is a `memmove`. -/
theorem shiftRight_eq {b : Block α} {n : Nat} (hfull : Full b n) (hn : n < b.length) :
    shiftRight b n = memmove b 1 0 n := by
  obtain ⟨b', hrun, -, hget⟩ := shiftRight_spec hfull hn
  obtain ⟨b'', hmove⟩ : ∃ b'', memmove b 1 0 n = some b'' := exists_memmove b (by omega) (by omega)
  rw [hrun, hmove]
  refine congrArg some (List.ext_getElem? fun i => ?_)
  rw [hget, getElem?_memmove hmove]
  rfl

/-- A slot after the loop that closes a gap. -/
theorem shiftLeft_spec {b : Block α} {idx n : Nat} (hfull : Full b (idx + 1 + n))
    (hn : idx + n < b.length) :
    ∃ b', shiftLeft b idx n = some b' ∧
      ∀ i, b'[i]? = if idx ≤ i ∧ i < idx + n then b[i + 1]? else b[i]? := by
  induction n generalizing b idx with
  | zero => exact ⟨b, rfl, fun i => (if_neg (by omega)).symm⟩
  | succ n ih =>
    obtain ⟨x, hx⟩ := Option.isSome_iff_exists.mp (hfull (idx + 1) (by omega))
    have hidx : idx < b.length := by omega
    have hfull' : Full (b.set idx (some x)) (idx + 1 + 1 + n) := by
      intro i hi
      rw [Slots.read, List.getElem?_set]
      by_cases heq : idx = i
      · rw [if_pos heq, if_pos hidx]
        rfl
      · rw [if_neg heq]
        exact hfull i (by omega)
    obtain ⟨b', hrun, hget⟩ := ih hfull' (by rw [List.length_set]; omega)
    refine ⟨b', ?_, fun i => ?_⟩
    · rw [shiftLeft, hx]
      simp only [write_eq hidx, Option.bind_some, hrun]
    · rw [hget, List.getElem?_set, List.getElem?_set]
      by_cases hfirst : i = idx
      · subst hfirst
        rw [if_neg (by omega), if_pos rfl, if_pos hidx, if_pos (by omega)]
        exact (getElem?_of_read hx).symm
      · by_cases hmid : idx + 1 ≤ i ∧ i < idx + 1 + n
        · rw [if_pos hmid, if_neg (by omega), if_pos (by omega)]
        · rw [if_neg hmid, if_neg (Ne.symm hfirst), if_neg (by omega)]

/-- The loop that closes a gap is a `memmove`. -/
theorem shiftLeft_eq {b : Block α} {idx n : Nat} (hfull : Full b (idx + 1 + n))
    (hn : idx + n < b.length) : shiftLeft b idx n = memmove b idx (idx + 1) n := by
  obtain ⟨b', hrun, hget⟩ := shiftLeft_spec hfull hn
  have hlen : idx + 1 + n ≤ b.length := by omega
  obtain ⟨b'', hmove⟩ : ∃ b'', memmove b idx (idx + 1) n = some b'' :=
    exists_memmove b hlen (by omega)
  rw [hrun, hmove]
  refine congrArg some (List.ext_getElem? fun i => ?_)
  rw [hget, getElem?_memmove hmove]
  by_cases hmid : idx ≤ i ∧ i < idx + n
  · rw [if_pos hmid, if_pos hmid]
    congr 1
    omega
  · rw [if_neg hmid, if_neg hmid]

/-! ### The operations -/

/-- The array holds the list. -/
structure Repr (pa : PropArray α) (l : List α) : Prop where
  holds : Holds pa.array l
  count : pa.count = l.length

variable {pa : PropArray α} {l : List α}

theorem repr_alloc (capacity : Nat) : Repr (alloc capacity : PropArray α) [] :=
  ⟨holds_nil _, rfl⟩

theorem Repr.expand (h : Repr pa l) (capacity : Nat) : Repr (pa.expand capacity) l :=
  ⟨expand_holds h.holds capacity, h.count⟩

theorem get_spec (h : Repr pa l) (idx : Nat) : pa.get idx = some l[idx]? := by
  rw [get, h.count]
  by_cases hidx : idx < l.length
  · rw [if_neg (by omega), h.holds.read hidx, List.getElem?_eq_getElem hidx]
    rfl
  · rw [if_pos (by omega), List.getElem?_eq_none (by omega)]

/-- Whether there is room: only an immutable array and a failing allocation have none. -/
theorem room_spec (h : Repr pa l) (mem : Bool) :
    (pa.room mem = none ∧ (pa.immutable = true ∨ mem = false)) ∨
      ∃ pa', pa.room mem = some pa' ∧ Repr pa' l ∧ l.length < pa'.array.length ∧
        pa.immutable = false ∧ pa'.immutable = false := by
  have hle := h.holds.length_le
  have hcount := h.count
  rw [room]
  cases himm : pa.immutable with
  | true => exact Or.inl ⟨if_pos rfl, Or.inl rfl⟩
  | false =>
    rw [if_neg Bool.false_ne_true]
    by_cases hfull : pa.count = pa.array.length
    · rw [if_pos hfull]
      cases mem with
      | false => exact Or.inl ⟨rfl, Or.inr rfl⟩
      | true =>
        refine Or.inr ⟨_, rfl, h.expand _, ?_, rfl, himm⟩
        show l.length < (Slots.expand pa.array _).length
        rw [length_expand, expandStep]
        omega
    · rw [if_neg hfull]
      exact Or.inr ⟨pa, rfl, h, by omega, rfl, himm⟩

/-- What an operation answers and leaves: `ok` and the list behind it, unless it is refused. -/
structure Result (pa : PropArray α) (l l' : List α) (mem ok : Bool) (pa' : PropArray α) :
    Prop where
  repr : Repr pa' (if ok then l' else l)
  immutable : pa'.immutable = pa.immutable
  done : ok = true → pa.immutable = false
  refused : ok = false → pa.immutable = true ∨ mem = false

theorem Result.of_refused (h : Repr pa l) (l' : List α) {mem : Bool}
    (href : pa.immutable = true ∨ mem = false) : Result pa l l' mem false pa where
  repr := h
  immutable := rfl
  done hok := by cases hok
  refused _ := href

theorem write_end {b : Block α} {l : List α} (h : Holds b l) (hroom : l.length < b.length)
    (po : α) : ∃ b', write b l.length po = some b' ∧ Holds b' (l ++ [po]) := by
  refine ⟨_, write_eq hroom po, ?_⟩
  intro i y hy
  rw [List.getElem?_set]
  by_cases hi : i = l.length
  · subst hi
    rw [List.getElem?_concat_length] at hy
    rw [if_pos rfl, if_pos hroom, Option.some.inj hy]
  · have hlt : i < l.length := by
      obtain ⟨hi', -⟩ := List.getElem?_eq_some_iff.mp hy
      rw [List.length_append, List.length_singleton] at hi'
      omega
    rw [List.getElem?_append_left hlt] at hy
    rw [if_neg (Ne.symm hi)]
    exact h i y hy

theorem add_spec (h : Repr pa l) (po : α) (mem : Bool) :
    ∃ ok pa', pa.add po mem = some (ok, pa') ∧ Result pa l (l ++ [po]) mem ok pa' := by
  rw [add]
  obtain ⟨hroom, href⟩ | ⟨pa₁, hroom, hrepr, hlt, himm, himm₁⟩ := room_spec h mem
  · rw [hroom]
    exact ⟨false, pa, rfl, .of_refused h _ href⟩
  · obtain ⟨b', hwrite, hholds⟩ := write_end hrepr.holds hlt po
    simp only [hroom, hrepr.count, hwrite]
    refine ⟨true, _, rfl, ⟨hholds, ?_⟩, himm₁.trans himm.symm, fun _ => himm, fun hno => by cases hno⟩
    rw [stored, hrepr.count, if_pos rfl, List.length_append, List.length_singleton]

theorem addFirst_spec (h : Repr pa l) (po : α) (mem : Bool) :
    ∃ ok pa', pa.addFirst po mem = some (ok, pa') ∧ Result pa l (po :: l) mem ok pa' := by
  rw [addFirst]
  obtain ⟨hroom, href⟩ | ⟨pa₁, hroom, hrepr, hlt, himm, himm₁⟩ := room_spec h mem
  · rw [hroom]
    exact ⟨false, pa, rfl, .of_refused h _ href⟩
  · simp only [hroom, hrepr.count]
    by_cases hl : l.length = 0
    · obtain rfl := List.length_eq_zero_iff.mp hl
      obtain ⟨b', hwrite, hholds⟩ := write_zero_holds hlt po
      rw [if_pos hl, List.length_nil, hwrite]
      refine ⟨true, _, rfl, ⟨hholds, ?_⟩, himm₁.trans himm.symm, fun _ => himm,
        fun hno => by cases hno⟩
      rw [stored, hrepr.count]
      rfl
    · obtain ⟨b₁, b₂, hmove, hwrite, hholds, -⟩ := insert_holds hrepr.holds hlt (Nat.zero_le _) po
      rw [Nat.sub_zero, Nat.zero_add] at hmove
      rw [if_neg hl, shiftRight_eq (full_of_holds hrepr.holds) hlt, hmove, Option.bind_some, hwrite]
      refine ⟨true, _, rfl, ⟨hholds, ?_⟩, himm₁.trans himm.symm, fun _ => himm,
        fun hno => by cases hno⟩
      rw [stored, hrepr.count]
      rfl

theorem set_spec (h : Repr pa l) {idx : Nat} (po : α) (mem : Bool)
    (hidx : pa.immutable = true ∨ idx ≤ l.length) :
    ∃ ok pa', pa.set idx po mem = some (ok, pa') ∧
      Result pa l (l.take idx ++ po :: l.drop (idx + 1)) mem ok pa' := by
  rw [set]
  cases himm : pa.immutable with
  | true =>
    rw [if_pos rfl]
    exact ⟨false, pa, rfl, .of_refused h _ (Or.inl himm)⟩
  | false =>
    have hle : idx ≤ l.length := hidx.resolve_left (by rw [himm]; exact Bool.false_ne_true)
    rw [if_neg Bool.false_ne_true, h.count]
    by_cases hend : idx = l.length
    · subst hend
      rw [if_pos rfl, List.take_length, List.drop_eq_nil_of_le (Nat.le_succ _)]
      exact add_spec h po mem
    · have hlt : idx < l.length := by omega
      obtain ⟨b', hwrite, hholds, -⟩ := write_holds h.holds hlt po
      have hset : l.set idx po = l.take idx ++ po :: l.drop (idx + 1) := by
        rw [List.set_eq_take_append_cons_drop, if_pos hlt]
      rw [if_neg hend, if_pos hlt, hwrite, ← hset]
      refine ⟨true, _, rfl, ⟨hholds, ?_⟩, himm.symm, fun _ => himm, fun hno => by cases hno⟩
      rw [if_pos rfl, List.length_set]

theorem remove_spec (h : Repr pa l) {idx : Nat} (hidx : idx < l.length) :
    ∃ pa', pa.remove idx = some pa' ∧ Repr pa' (if pa.immutable then l else l.eraseIdx idx) ∧
      pa'.immutable = pa.immutable := by
  rw [remove, h.count, if_pos hidx]
  cases himm : pa.immutable with
  | true =>
    rw [if_pos rfl, if_pos rfl]
    exact ⟨pa, rfl, h, himm⟩
  | false =>
    have hle := h.holds.length_le
    have hfull : Full pa.array (idx + 1 + (l.length - (idx + 1))) := by
      rw [Nat.add_sub_cancel' hidx]
      exact full_of_holds h.holds
    obtain ⟨b', hmove, hholds, -⟩ := erase_holds h.holds hidx
    rw [if_neg Bool.false_ne_true, if_neg Bool.false_ne_true, shiftLeft_eq hfull (by omega), hmove]
    refine ⟨_, rfl, ⟨hholds, ?_⟩, rfl⟩
    show l.length - 1 = _
    rw [List.length_eraseIdx_of_lt hidx]

theorem objectsFrom_spec (h : Repr pa l) (n : Nat) {idx : Nat} (hn : idx + n = l.length) :
    pa.objectsFrom idx n = some (l.drop idx) := by
  induction n generalizing idx with
  | zero =>
    rw [objectsFrom, List.drop_eq_nil_of_le (by omega)]
  | succ n ih =>
    have hidx : idx < l.length := by omega
    simp only [objectsFrom, h.holds.read hidx, ih (show idx + 1 + n = l.length by omega),
      Option.map_some]
    rw [List.drop_eq_getElem_cons hidx]

theorem copy_spec (h : Repr pa l) :
    ∃ pa', pa.copy = some pa' ∧ Repr pa' l ∧ pa'.immutable = pa.immutable := by
  rw [copy, objects, h.count, objectsFrom_spec h _ (Nat.zero_add _), List.drop_zero]
  refine ⟨_, rfl, ⟨?_, rfl⟩, rfl⟩
  intro i x hx
  show (l.map some)[i]? = _
  rw [List.getElem?_map, hx]
  rfl

/-! ### Runs -/

/-- The operations that change an array. -/
inductive Op (α : Type) where
  | add (po : α) (mem : Bool)
  | addFirst (po : α) (mem : Bool)
  | set (idx : Nat) (po : α) (mem : Bool)
  | remove (idx : Nat)
  | ensureCapacity (capacity : Nat) (mem : Bool)
  | makeImmutable
  /-- The array is replaced by its copy, or its mutable copy. -/
  | copy (mutable : Bool)

/-- An operation, with its return value (`true` where it has none). -/
def Op.exec (pa : PropArray α) : Op α → Option (Bool × PropArray α)
  | .add po mem => pa.add po mem
  | .addFirst po mem => pa.addFirst po mem
  | .set idx po mem => pa.set idx po mem
  | .remove idx => (pa.remove idx).map (true, ·)
  | .ensureCapacity capacity mem => some (pa.ensureCapacity capacity mem)
  | .makeImmutable => some (true, { pa with immutable := true })
  | .copy mutable => (if mutable then pa.copyMutable else pa.copy).map (true, ·)

/-- What an array is for: a list that may be frozen. -/
structure Items (α : Type) where
  items : List α := []
  frozen : Bool := false

/-- The index of an operation is in the list, or just behind it. -/
def Op.Within (m : Items α) : Op α → Prop
  | .set idx _ _ => m.frozen = true ∨ idx ≤ m.items.length
  | .remove idx => idx < m.items.length
  | _ => True

/-- An operation on the list; `ok` is what the operation answered. -/
def Op.apply (m : Items α) (ok : Bool) : Op α → Items α
  | .add po _ => if ok then { m with items := m.items ++ [po] } else m
  | .addFirst po _ => if ok then { m with items := po :: m.items } else m
  | .set idx po _ =>
    if ok then { m with items := m.items.take idx ++ po :: m.items.drop (idx + 1) } else m
  | .remove idx => if m.frozen then m else { m with items := m.items.eraseIdx idx }
  | .ensureCapacity _ _ => m
  | .makeImmutable => { m with frozen := true }
  | .copy mutable => if mutable then { m with frozen := false } else m

/-- A step of the array, and of the list beside it. -/
def step (s : PropArray α × Items α) (op : Op α) : Option (PropArray α × Items α) :=
  (op.exec s.1).map fun r => (r.2, op.apply s.2 r.1)

/-- The array is the list. -/
structure Refines (pa : PropArray α) (m : Items α) : Prop where
  repr : Repr pa m.items
  frozen : pa.immutable = m.frozen

/-- The array behind an operation that may be refused. -/
theorem Result.refines {m : Items α} {l' : List α} {mem ok : Bool} {pa' : PropArray α}
    (hres : Result pa m.items l' mem ok pa') (hfrozen : pa.immutable = m.frozen) :
    Refines pa' (if ok then { m with items := l' } else m) := by
  have hrepr := hres.repr
  cases ok with
  | false => exact ⟨hrepr, hres.immutable.trans hfrozen⟩
  | true => exact ⟨hrepr, hres.immutable.trans hfrozen⟩

/-- **One operation.** -/
theorem exec_spec {m : Items α} (h : Refines pa m) {op : Op α} (hop : op.Within m) :
    ∃ s', step (pa, m) op = some s' ∧ Refines s'.1 s'.2 := by
  obtain ⟨hrepr, hfrozen⟩ := h
  cases op with
  | add po mem =>
    obtain ⟨ok, pa', hadd, hres⟩ := add_spec hrepr po mem
    exact ⟨_, by rw [step, Op.exec, hadd]; rfl, hres.refines hfrozen⟩
  | addFirst po mem =>
    obtain ⟨ok, pa', hadd, hres⟩ := addFirst_spec hrepr po mem
    exact ⟨_, by rw [step, Op.exec, hadd]; rfl, hres.refines hfrozen⟩
  | set idx po mem =>
    have hidx : pa.immutable = true ∨ idx ≤ m.items.length := by
      rw [hfrozen]
      exact hop
    obtain ⟨ok, pa', hset, hres⟩ := set_spec hrepr po mem hidx
    exact ⟨_, by rw [step, Op.exec, hset]; rfl, hres.refines hfrozen⟩
  | remove idx =>
    obtain ⟨pa', hremove, hrepr', himm⟩ := remove_spec hrepr hop
    refine ⟨_, by rw [step, Op.exec, hremove]; rfl, ?_⟩
    -- a frozen array refuses in both
    show Refines pa' (if m.frozen then m else _)
    rw [hfrozen] at hrepr'
    cases hf : m.frozen with
    | true =>
      rw [hf] at hrepr'
      exact ⟨hrepr', himm.trans hfrozen⟩
    | false =>
      rw [hf] at hrepr'
      exact ⟨hrepr', himm.trans (hfrozen.trans hf)⟩
  | ensureCapacity capacity mem =>
    refine ⟨_, rfl, ?_⟩
    show Refines (pa.ensureCapacity capacity mem).2 m
    rw [ensureCapacity]
    split
    · split
      · exact ⟨hrepr.expand _, hfrozen⟩
      · exact ⟨hrepr, hfrozen⟩
    · exact ⟨hrepr, hfrozen⟩
  | makeImmutable => exact ⟨_, rfl, ⟨hrepr.holds, hrepr.count⟩, rfl⟩
  | copy mutable =>
    obtain ⟨pa', hcopy, hrepr', himm⟩ := copy_spec hrepr
    cases mutable with
    | false =>
      exact ⟨_, by rw [step, Op.exec, if_neg Bool.false_ne_true, hcopy]; rfl, hrepr',
        himm.trans hfrozen⟩
    | true =>
      refine ⟨_, by rw [step, Op.exec, if_pos rfl, copyMutable, hcopy]; rfl, ?_⟩
      exact ⟨⟨hrepr'.holds, hrepr'.count⟩, rfl⟩

/-- **Every sequence of operations on an array is one on a list**, as far as the indices are
in it: no operation reads or writes outside the objects, each index gives the object that the
list has there, and an operation is refused only for an immutable array or a failing
allocation.  The first index that is ruled out is all that ends a run. -/
theorem run_list (capacity : Nat) (ops : List (Op α)) :
    (∃ pa m, Run.run step ((alloc capacity : PropArray α), {}) ops = some (pa, m) ∧
      (∀ idx, pa.get idx = some m.items[idx]?) ∧ pa.count = m.items.length ∧
      pa.count ≤ pa.array.length ∧
      ∀ po mem, ∃ ok pa', pa.add po mem = some (ok, pa') ∧
        (ok = true → m.frozen = false) ∧ (ok = false → m.frozen = true ∨ mem = false)) ∨
    ∃ before op after pa m, ops = before ++ op :: after ∧
      Run.run step ((alloc capacity : PropArray α), {}) before = some (pa, m) ∧
      pa.count = m.items.length ∧ ¬ op.Within m := by
  have hstart : Refines (alloc capacity : PropArray α) {} := ⟨repr_alloc capacity, rfl⟩
  obtain ⟨⟨pa, m⟩, hrun, hrefines⟩ | ⟨before, op, after, ⟨pa, m⟩, hops, hrun, hrefines, hno⟩ :=
    Run.exists_run_or (fun s op => op.Within s.2)
      (I := fun s : PropArray α × Items α => Refines s.1 s.2) (s := (alloc capacity, {}))
      (fun s op h hop => exec_spec h hop) hstart ops
  · have hrepr := hrefines.repr
    refine Or.inl ⟨pa, m, hrun, get_spec hrepr, hrepr.count, ?_, fun po mem => ?_⟩
    · rw [hrepr.count]
      exact hrepr.holds.length_le
    · obtain ⟨ok, pa', hadd, hres⟩ := add_spec hrepr po mem
      have hdone := hres.done
      have hrefused := hres.refused
      rw [hrefines.frozen] at hdone hrefused
      exact ⟨ok, pa', hadd, hdone, hrefused⟩
  · exact Or.inr ⟨before, op, after, pa, m, hops, hrun, hrefines.repr.count, hno⟩

end PropArray

end Flappy.Proplib
