/-
Comparing objects (`prop_object_equals` and what it calls in `lib/portableproplib`).

The pairs of containers that are being compared stand on a stack, each with the index
of its next pair of children.  Two pointers that are the same settle a comparison at
once; which are the same is a parameter, of which the result does not depend.

* `tells_compare` — one pair, told apart by its contents;
* `left_turn`, `left_result` — what is left to compare is the same after every turn;
* `objectEquals_iff` — the objects with the same contents are equal, where a number
  that is signed is equal to the same one unsigned.
-/
import Flappy.Lib.Loop
import Flappy.Proplib.Externalize

open CStr

namespace Flappy.Proplib

/-- `prop_type_t`. -/
inductive PropType where
  | bool
  | number
  | string
  | data
  | array
  | dictionary
deriving DecidableEq, Repr

/-- `prop_object_type`. -/
def Obj.type : Obj → PropType
  | .bool _ => .bool
  | .number _ => .number
  | .string _ => .string
  | .data _ => .data
  | .array _ => .array
  | .dict _ => .dictionary

/-- `_prop_object_equals_rv_t`, with the pair that is compared next. -/
inductive EqualsRv where
  | false_
  | true_
  | recurse (next1 next2 : Obj)

/-- Two objects that are being compared, and the stored index. -/
structure Compared where
  obj1 : Obj
  obj2 : Obj
  idx : Nat := 0

def EqualsRv.ofBool (b : Bool) : EqualsRv := if b then .true_ else .false_

/-! ### The types -/

/-- `_prop_number_equals`.  There is one object for a number, so that the pointers of two
numbers of the same sign tell whether they are equal. -/
def numberEquals (num1 num2 : Number) : Bool :=
  if num1 = num2 then true
  else
    match num1, num2 with
    | .unsigned v1 _, .signed v2 _ =>
      if v1 > llongMax then false else if v2 < 0 then false else decide ((v1 : Int) = v2)
    | .signed v1 _, .unsigned v2 _ =>
      if v1 < 0 then false else if v2 > llongMax then false else decide (v1 = v2)
    | _, _ => false

/-- `_prop_string_equals`. -/
def stringEquals (str1 str2 : Str) : Bool :=
  if str1.length ≠ str2.length then false else decide (strcmp str1 str2 = .eq)

/-- `_prop_data_equals`. -/
def dataEquals (pd1 pd2 : List Byte) : Bool :=
  if pd1.length ≠ pd2.length then false
  else if pd1.length = 0 then true
  else decide (pd1 = pd2)

/-- `_prop_array_equals`, behind the comparison of the pointers. -/
def arrayEquals (array1 array2 : List Obj) (idx : Nat) : EqualsRv :=
  if array1.length ≠ array2.length then .false_
  else
    match array1[idx]?, array2[idx]? with
    | some next1, some next2 => .recurse next1 next2
    | _, _ => .true_

/-- `_prop_dictionary_equals`, behind the comparison of the pointers. -/
def dictEquals (dict1 dict2 : List (Str × Obj)) (idx : Nat) : EqualsRv :=
  if dict1.length ≠ dict2.length then .false_
  else
    match dict1[idx]?, dict2[idx]? with
    | some e1, some e2 => if e1.1 = e2.1 then .recurse e1.2 e2.2 else .false_
    | _, _ => .true_

/-- `pot_equals`, by the type of the objects.  Those of different types have been told apart
in front of it. -/
def potEquals (c : Compared) : EqualsRv :=
  match c.obj1, c.obj2 with
  | .bool b1, .bool b2 => .ofBool (b1 = b2)
  | .number num1, .number num2 => .ofBool (numberEquals num1 num2)
  | .string str1, .string str2 => .ofBool (stringEquals str1 str2)
  | .data pd1, .data pd2 => .ofBool (dataEquals pd1 pd2)
  | .array array1, .array array2 => arrayEquals array1 array2 c.idx
  | .dict dict1, .dict dict2 => dictEquals dict1 dict2 c.idx
  | _, _ => .false_

/-! ### The loop -/

/-- What is known of a pair: from its types, its pointers, or its contents. -/
def compare (same : Bool) (c : Compared) : EqualsRv :=
  if c.obj1.type ≠ c.obj2.type then .false_ else if same then .true_ else potEquals c

variable {identical : List Compared × Compared → Bool}

/-- A turn of `prop_object_equals_with_error`, from `start_subtree` or `continue_subtree` on.
`identical` tells whether the two pointers are the same. -/
def equalsTurn (identical : List Compared × Compared → Bool) (s : List Compared × Compared) :
    (List Compared × Compared) ⊕ Bool :=
  match compare (identical s) s.2 with
  | .false_ => .inr false
  | .true_ =>
    match s.1 with
    | [] => .inr true
    | c :: stack => .inl (stack, c)
  | .recurse next1 next2 =>
    .inl ({ s.2 with idx := s.2.idx + 1 } :: s.1, { obj1 := next1, obj2 := next2 })

mutual

/-- The turns that the comparison of an object with another one takes, at most. -/
def Obj.size : Obj → Nat
  | .array elems => 1 + sizeElems elems
  | .dict entries => 1 + sizeEntries entries
  | _ => 1

def sizeElems : List Obj → Nat
  | [] => 0
  | o :: elems => 1 + o.size + sizeElems elems

def sizeEntries : List (Str × Obj) → Nat
  | [] => 0
  | (_, o) :: entries => 1 + o.size + sizeEntries entries

end

/-- The turns that a pair takes from its index on. -/
def Compared.left (c : Compared) : Nat :=
  match c.obj1 with
  | .array elems => 1 + sizeElems (elems.drop c.idx)
  | .dict entries => 1 + sizeEntries (entries.drop c.idx)
  | _ => 1

theorem left_pos (c : Compared) : 0 < c.left := by
  unfold Compared.left
  split <;> omega

theorem left_fresh (obj1 obj2 : Obj) : ({ obj1, obj2 } : Compared).left = obj1.size := by
  cases obj1 <;> simp [Compared.left, Obj.size]

theorem sizeElems_drop {elems : List Obj} {idx : Nat} {o : Obj} (h : elems[idx]? = some o) :
    sizeElems (elems.drop idx) = 1 + o.size + sizeElems (elems.drop (idx + 1)) := by
  obtain ⟨hidx, rfl⟩ := List.getElem?_eq_some_iff.mp h
  rw [List.drop_eq_getElem_cons hidx, sizeElems]

theorem sizeEntries_drop {entries : List (Str × Obj)} {idx : Nat} {key : Str} {o : Obj}
    (h : entries[idx]? = some (key, o)) :
    sizeEntries (entries.drop idx) = 1 + o.size + sizeEntries (entries.drop (idx + 1)) := by
  obtain ⟨hidx, hget⟩ := List.getElem?_eq_some_iff.mp h
  rw [List.drop_eq_getElem_cons hidx, hget, sizeEntries]

theorem arrayEquals_recurse {array1 array2 : List Obj} {idx : Nat} {next1 next2 : Obj}
    (h : arrayEquals array1 array2 idx = .recurse next1 next2) :
    array1.length = array2.length ∧ array1[idx]? = some next1 ∧ array2[idx]? = some next2 := by
  rw [arrayEquals] at h
  split at h
  · cases h
  · rename_i hlen
    split at h
    · rename_i h₁ h₂
      cases h
      exact ⟨Decidable.not_not.mp hlen, h₁, h₂⟩
    · cases h

theorem dictEquals_recurse {dict1 dict2 : List (Str × Obj)} {idx : Nat} {next1 next2 : Obj}
    (h : dictEquals dict1 dict2 idx = .recurse next1 next2) :
    dict1.length = dict2.length ∧
      ∃ key, dict1[idx]? = some (key, next1) ∧ dict2[idx]? = some (key, next2) := by
  rw [dictEquals] at h
  split at h
  · cases h
  · rename_i hlen
    split at h
    · rename_i e1 e2 h₁ h₂
      split at h
      · rename_i hkey
        cases h
        refine ⟨Decidable.not_not.mp hlen, e1.1, h₁, ?_⟩
        rw [h₂, hkey]
      · cases h
    · cases h

/-- Going to a pair of children leaves less. -/
theorem left_recurse {c : Compared} {same : Bool} {next1 next2 : Obj}
    (h : compare same c = .recurse next1 next2) :
    next1.size + ({ c with idx := c.idx + 1 } : Compared).left < c.left := by
  rw [compare] at h
  split at h
  · cases h
  · split at h
    · cases h
    · obtain ⟨obj1, obj2, idx⟩ := c
      unfold potEquals EqualsRv.ofBool at h
      split at h
      all_goals try (split at h <;> cases h)
      · rename_i array1 array2 h₁ h₂
        obtain rfl : obj1 = .array array1 := h₁
        obtain ⟨-, hnext, -⟩ := arrayEquals_recurse h
        simp only [Compared.left, sizeElems_drop hnext]
        omega
      · rename_i dict1 dict2 h₁ h₂
        obtain rfl : obj1 = .dict dict1 := h₁
        obtain ⟨-, key, hnext, -⟩ := dictEquals_recurse h
        simp only [Compared.left, sizeEntries_drop hnext]
        omega
      · cases h

def equalsMeasure (identical : List Compared × Compared → Bool) :
    Loop.Measure (equalsTurn identical) where
  size s := (s.1.map Compared.left).sum + s.2.left
  lt := by
    rintro ⟨stack, c⟩ s' h
    rw [equalsTurn] at h
    split at h
    · cases h
    · split at h
      · cases h
      · rename_i c' stack' hstack
        obtain rfl := Sum.inl.inj h
        obtain rfl : stack = c' :: stack' := hstack
        have hpos := left_pos c
        simp only [List.map_cons, List.sum_cons]
        omega
    · rename_i next1 next2 hrec
      obtain rfl := Sum.inl.inj h
      have hlt : next1.size + ({ c with idx := c.idx + 1 } : Compared).left < c.left :=
        left_recurse hrec
      have hfresh := left_fresh next1 next2
      simp only [List.map_cons, List.sum_cons, hfresh]
      omega

/-- `prop_object_equals`. -/
def objectEquals (identical : List Compared × Compared → Bool) (obj1 obj2 : Obj) : Bool :=
  Loop.run (equalsMeasure identical) ([], { obj1, obj2 })

/-! ### What is equal -/

theorem normElems_eq_map (elems : List Obj) : normElems elems = elems.map Obj.norm := by
  induction elems with
  | nil => rfl
  | cons o elems ih => rw [normElems, ih, List.map_cons]

theorem normEntries_eq_map (entries : List (Str × Obj)) :
    normEntries entries = entries.map fun e => (e.1, e.2.norm) := by
  induction entries with
  | nil => rfl
  | cons e entries ih => rw [normEntries, ih, List.map_cons]

theorem numberEquals_iff {num1 num2 : Number} :
    numberEquals num1 num2 = true ↔ num1.norm = num2.norm := by
  by_cases hne : num1 = num2
  · simp [numberEquals, hne]
  · unfold numberEquals
    rw [if_neg hne]
    cases num1 with
    | signed v1 range1 =>
      cases num2 with
      | signed v2 range2 => simpa [Number.norm] using hne
      | unsigned v2 range2 =>
        by_cases hfits : v2 ≤ llongMax
        · simp only [Number.norm, dif_pos hfits, Number.signed.injEq]
          split_ifs <;> simp <;> omega
        · simp only [Number.norm, dif_neg hfits]
          split_ifs <;> simp
          omega
    | unsigned v1 range1 =>
      cases num2 with
      | signed v2 range2 =>
        by_cases hfits : v1 ≤ llongMax
        · simp only [Number.norm, dif_pos hfits, Number.signed.injEq]
          split_ifs <;> simp <;> omega
        · simp only [Number.norm, dif_neg hfits]
          split_ifs <;> simp
          omega
      | unsigned v2 range2 =>
        have hvalue : v1 ≠ v2 := fun h => hne (by subst h; rfl)
        simp only [Number.norm]
        split_ifs <;> simp <;> omega

theorem stringEquals_iff {str1 str2 : Str} : stringEquals str1 str2 = true ↔ str1 = str2 := by
  rw [stringEquals]
  split
  · rename_i hlen
    simp only [Bool.false_eq_true, false_iff]
    rintro rfl
    exact hlen rfl
  · rw [decide_eq_true_eq, strcmp_eq]

theorem dataEquals_iff {pd1 pd2 : List Byte} : dataEquals pd1 pd2 = true ↔ pd1 = pd2 := by
  rw [dataEquals]
  split
  · rename_i hlen
    simp only [Bool.false_eq_true, false_iff]
    rintro rfl
    exact hlen rfl
  · rename_i hlen
    split
    · rename_i hzero
      rw [Decidable.not_not, hzero] at hlen
      obtain rfl := List.length_eq_zero_iff.mp hzero
      obtain rfl := List.length_eq_zero_iff.mp hlen.symm
      simp
    · exact decide_eq_true_iff

/-- The pair is equal from its index on. -/
def Compared.Rest (c : Compared) : Prop :=
  match c.obj1, c.obj2 with
  | .array array1, .array array2 =>
    array1.length = array2.length ∧
      (array1.drop c.idx).map Obj.norm = (array2.drop c.idx).map Obj.norm
  | .dict dict1, .dict dict2 =>
    dict1.length = dict2.length ∧
      normEntries (dict1.drop c.idx) = normEntries (dict2.drop c.idx)
  | obj1, obj2 => obj1.norm = obj2.norm

theorem rest_fresh (obj1 obj2 : Obj) :
    ({ obj1, obj2 } : Compared).Rest ↔ obj1.norm = obj2.norm := by
  unfold Compared.Rest
  split
  · rename_i array1 array2 h₁ h₂
    obtain rfl : obj1 = .array array1 := h₁
    obtain rfl : obj2 = .array array2 := h₂
    simp only [List.drop_zero, Obj.norm, normElems_eq_map, Obj.array.injEq, and_iff_right_iff_imp]
    intro h
    simpa using congrArg List.length h
  · rename_i dict1 dict2 h₁ h₂
    obtain rfl : obj1 = .dict dict1 := h₁
    obtain rfl : obj2 = .dict dict2 := h₂
    simp only [List.drop_zero, Obj.norm, normEntries_eq_map, Obj.dict.injEq, and_iff_right_iff_imp]
    intro h
    simpa using congrArg List.length h
  · exact Iff.rfl

/-- What a function of a type gives, given what is left of the pair. -/
def EqualsRv.Tells (rv : EqualsRv) (c : Compared) : Prop :=
  match rv with
  | .false_ => ¬ c.Rest
  | .true_ => c.Rest
  | .recurse next1 next2 =>
    c.Rest ↔ next1.norm = next2.norm ∧ ({ c with idx := c.idx + 1 } : Compared).Rest

theorem tells_ofBool {b : Bool} {c : Compared} (h : b = true ↔ c.Rest) :
    (EqualsRv.ofBool b).Tells c := by
  cases b with
  | false => exact fun hrest => Bool.false_ne_true (h.mpr hrest)
  | true => exact h.mp rfl

theorem tells_array (array1 array2 : List Obj) (idx : Nat) :
    (arrayEquals array1 array2 idx).Tells ⟨.array array1, .array array2, idx⟩ := by
  rw [arrayEquals]
  split
  · rename_i hlen
    exact fun hrest => hlen hrest.1
  · rename_i hlen
    rw [Decidable.not_not] at hlen
    split
    · rename_i next1 next2 h₁ h₂
      obtain ⟨hidx₁, rfl⟩ := List.getElem?_eq_some_iff.mp h₁
      obtain ⟨hidx₂, rfl⟩ := List.getElem?_eq_some_iff.mp h₂
      simp only [EqualsRv.Tells, Compared.Rest, List.drop_eq_getElem_cons hidx₁,
        List.drop_eq_getElem_cons hidx₂, List.map_cons, List.cons.injEq, hlen, true_and]
    · rename_i hnone
      have hidx : array1.length ≤ idx := by
        by_contra hlt
        rw [Nat.not_le] at hlt
        exact hnone _ _ (List.getElem?_eq_getElem hlt) (List.getElem?_eq_getElem (hlen ▸ hlt))
      refine ⟨hlen, ?_⟩
      rw [List.drop_eq_nil_of_le hidx, List.drop_eq_nil_of_le (hlen ▸ hidx)]

theorem tells_dict (dict1 dict2 : List (Str × Obj)) (idx : Nat) :
    (dictEquals dict1 dict2 idx).Tells ⟨.dict dict1, .dict dict2, idx⟩ := by
  rw [dictEquals]
  split
  · rename_i hlen
    exact fun hrest => hlen hrest.1
  · rename_i hlen
    rw [Decidable.not_not] at hlen
    split
    · rename_i e1 e2 h₁ h₂
      obtain ⟨hidx₁, rfl⟩ := List.getElem?_eq_some_iff.mp h₁
      obtain ⟨hidx₂, rfl⟩ := List.getElem?_eq_some_iff.mp h₂
      have hrest : (Compared.Rest ⟨.dict dict1, .dict dict2, idx⟩) ↔
          (dict1[idx].1 = dict2[idx].1 ∧ dict1[idx].2.norm = dict2[idx].2.norm) ∧
            Compared.Rest ⟨.dict dict1, .dict dict2, idx + 1⟩ := by
        simp only [Compared.Rest, List.drop_eq_getElem_cons hidx₁, List.drop_eq_getElem_cons hidx₂,
          normEntries_eq_map, List.map_cons, List.cons.injEq, Prod.mk.injEq, hlen, true_and]
      split
      · rename_i hkey
        rw [and_iff_right hkey] at hrest
        exact hrest
      · rename_i hkey
        exact fun h => hkey (hrest.mp h).1.1
    · rename_i hnone
      have hidx : dict1.length ≤ idx := by
        by_contra hlt
        rw [Nat.not_le] at hlt
        exact hnone _ _ (List.getElem?_eq_getElem hlt) (List.getElem?_eq_getElem (hlen ▸ hlt))
      refine ⟨hlen, ?_⟩
      rw [List.drop_eq_nil_of_le hidx, List.drop_eq_nil_of_le (hlen ▸ hidx)]

theorem Compared.Rest.refl (obj : Obj) (idx : Nat) : Compared.Rest ⟨obj, obj, idx⟩ := by
  cases obj with
  | array elems => exact ⟨rfl, rfl⟩
  | dict entries => exact ⟨rfl, rfl⟩
  | _ => rfl

/-- One pair is told apart or equal as far as its contents say, whatever the pointers. -/
theorem tells_compare {same : Bool} {c : Compared} (hsame : same = true → c.obj1 = c.obj2) :
    (compare same c).Tells c := by
  obtain ⟨obj1, obj2, idx⟩ := c
  rw [compare]
  split
  · -- objects of different types
    rename_i htype
    intro hrest
    cases obj1 <;> cases obj2 <;> first | exact htype rfl | cases hrest
  · rename_i htype
    rw [Decidable.not_not] at htype
    split
    · rename_i hptr
      -- the same object on both sides
      obtain rfl : obj1 = obj2 := hsame hptr
      exact .refl obj1 idx
    · cases obj1 with
      | bool b1 =>
        cases obj2 with
        | bool b2 => exact tells_ofBool (by simp [Compared.Rest, Obj.norm])
        | _ => cases htype
      | number num1 =>
        cases obj2 with
        | number num2 =>
          exact tells_ofBool (by simp [Compared.Rest, Obj.norm, numberEquals_iff])
        | _ => cases htype
      | string str1 =>
        cases obj2 with
        | string str2 => exact tells_ofBool (by simp [Compared.Rest, Obj.norm, stringEquals_iff])
        | _ => cases htype
      | data pd1 =>
        cases obj2 with
        | data pd2 => exact tells_ofBool (by simp [Compared.Rest, Obj.norm, dataEquals_iff])
        | _ => cases htype
      | array array1 =>
        cases obj2 with
        | array array2 => exact tells_array array1 array2 idx
        | _ => cases htype
      | dict dict1 =>
        cases obj2 with
        | dict dict2 => exact tells_dict dict1 dict2 idx
        | _ => cases htype

/-- The pairs of a state are equal in what is left of them. -/
def Left (s : List Compared × Compared) : Prop := s.2.Rest ∧ ∀ c ∈ s.1, c.Rest

theorem left_turn {s s' : List Compared × Compared}
    (hsame : identical s = true → s.2.obj1 = s.2.obj2) (h : equalsTurn identical s = .inl s') :
    Left s' ↔ Left s := by
  have htells := tells_compare hsame
  rw [equalsTurn] at h
  split at h
  · cases h
  · rename_i hrv
    rw [hrv] at htells
    split at h
    · cases h
    · rename_i c stack hstack
      obtain rfl := Sum.inl.inj h
      simp only [Left, hstack, List.forall_mem_cons]
      exact (and_iff_right htells).symm
  · rename_i next1 next2 hrv
    rw [hrv] at htells
    obtain rfl := Sum.inl.inj h
    simp only [Left, List.forall_mem_cons, rest_fresh]
    rw [← and_assoc]
    exact and_congr_left' htells.symm

theorem left_result {s : List Compared × Compared} {b : Bool}
    (hsame : identical s = true → s.2.obj1 = s.2.obj2) (h : equalsTurn identical s = .inr b) :
    b = true ↔ Left s := by
  have htells := tells_compare hsame
  rw [equalsTurn] at h
  split at h
  · rename_i hrv
    rw [hrv] at htells
    obtain rfl := Sum.inr.inj h
    simp only [Bool.false_eq_true, false_iff]
    exact fun hleft => htells hleft.1
  · rename_i hrv
    rw [hrv] at htells
    split at h
    · rename_i hstack
      obtain rfl := Sum.inr.inj h
      simp only [true_iff, Left, hstack]
      exact ⟨htells, fun c hc => by cases hc⟩
    · cases h
  · cases h

/-- The loop compares what is left of the first pair, all of it. -/
theorem objectEquals_rest (hsame : ∀ s, identical s = true → s.2.obj1 = s.2.obj2)
    (obj1 obj2 : Obj) :
    objectEquals identical obj1 obj2 = true ↔ ({ obj1, obj2 } : Compared).Rest := by
  have hstart : Left ([], { obj1, obj2 }) ↔ ({ obj1, obj2 } : Compared).Rest :=
    and_iff_left fun c hc => by cases hc
  rw [← hstart]
  exact Loop.run_induction (P := fun s => Left s ↔ Left ([], { obj1, obj2 }))
    (Q := fun b => b = true ↔ Left ([], { obj1, obj2 }))
    (fun s s' hs h => (left_turn (hsame s) h).trans hs)
    (fun s b hs h => (left_result (hsame s) h).trans hs) Iff.rfl

/-- **Two objects are equal if they have the same contents**, up to the signs of numbers that
fit both, and whatever they share: a pointer that is the same only ends a comparison early. -/
theorem objectEquals_iff (hsame : ∀ s, identical s = true → s.2.obj1 = s.2.obj2)
    (obj1 obj2 : Obj) : objectEquals identical obj1 obj2 = true ↔ obj1.norm = obj2.norm :=
  (objectEquals_rest hsame obj1 obj2).trans (rest_fresh obj1 obj2)

/-- Equal strings share their object; the numbers are of either sign. -/
theorem objectEquals_shared :
    objectEquals
      (fun s =>
        match s.2.obj1, s.2.obj2 with
        | .string str1, .string str2 => decide (str1 = str2)
        | _, _ => false)
      (.array [.string ['a'], .number (.signed 5 (by decide))])
      (.array [.string ['a'], .number (.unsigned 5 (by decide))]) = true := by
  refine (objectEquals_iff (fun s h => ?_) _ _).mpr rfl
  split at h
  · rename_i h₁ h₂
    rw [h₁, h₂, of_decide_eq_true h]
  · cases h

end Flappy.Proplib
