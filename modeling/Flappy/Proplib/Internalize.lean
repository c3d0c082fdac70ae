/-
Reading the external form (`_prop_generic_internalize` and what it calls in
`lib/portableproplib`).

The reader has one tag in its context and the text behind it.  The containers that
are being read stand on a stack; an element that is finished, or that cannot be read,
goes to the one on top.  What an end tag names inside an array is read as an element.

* `byTag` — the loop; every turn that goes on has read a tag;
* `dictionaryInternalize`, `arrayInternalize` — the functions of the library.
-/
import Flappy.Lib.Loop
import Flappy.Proplib.Externalize

open CStr

namespace Flappy.Proplib

/-- `_prop_tag_type_t`. -/
inductive TagType where
  | start
  | end_
  | either
deriving DecidableEq, Repr

/-- `struct _prop_object_internalize_context`: the text that is left, and the last tag. -/
structure Ctx where
  cp : Str
  tagname : Str
  /-- The attribute with its value. -/
  tagattr : Option (Str × Str) := none
  isEmptyElement : Bool := false
  tagType : TagType := .start
deriving DecidableEq, Repr

/-! ### Tags -/

/-- `_prop_object_internalize_skip_comment`. -/
def skipComment : Str → Option Str
  | [] => none
  | c :: cp =>
    if ['-', '-', '>'].isPrefixOf (c :: cp) then some (cp.drop 2) else skipComment cp

/-- The characters of a tag's name. -/
def isNameChar (c : Char) : Bool := !isSpace c && c ≠ '/' && c ≠ '>'

/-- The attribute of a tag, from behind the name and one space on. -/
def findAttr (cp : Str) : Option (Str × Str × Str) :=
  let cp := cp.dropWhile isSpace
  match cp.dropWhile fun c => !isSpace c && c ≠ '=' with
  | _ :: '"' :: rest =>
    match rest.dropWhile (· ≠ '"') with
    | '"' :: '>' :: rest' =>
      some (cp.takeWhile fun c => !isSpace c && c ≠ '=', rest.takeWhile (· ≠ '"'), rest')
    | _ => none
  | _ => none

/-- The rest of `_prop_object_internalize_find_tag`, from the name of the tag on. -/
def findName (cp : Str) (tag : Option Str) (type : TagType) : Option Ctx :=
  let name := cp.takeWhile isNameChar
  if tag.all (· = name) then
    match cp.dropWhile isNameChar with
    | '/' :: '>' :: rest =>
      if type = .start then some { cp := rest, tagname := name, isEmptyElement := true } else none
    | '/' :: _ => none
    | '>' :: rest => some { cp := rest, tagname := name, tagType := type }
    | _ :: rest =>
      (findAttr rest).map fun r =>
        { cp := r.2.2, tagname := name, tagattr := some (r.1, r.2.1), tagType := type }
    | [] => none
  else none

theorem length_skipComment {cp rest : Str} (h : skipComment cp = some rest) :
    rest.length < cp.length := by
  induction cp with
  | nil => cases h
  | cons c cp ih =>
    rw [skipComment] at h
    split at h
    · obtain rfl := Option.some.inj h
      rw [List.length_drop, List.length_cons]
      omega
    · exact Nat.lt_succ_of_lt (ih h)

/-- `_prop_object_internalize_find_tag`: the next tag, past comments. -/
def findTag (cp : Str) (tag : Option Str) (type : TagType) : Option Ctx :=
  match _h : cp.dropWhile isSpace with
  | '<' :: '!' :: rest =>
    if ['-', '-'].isPrefixOf rest && type ≠ .end_ then
      match _h' : skipComment (rest.drop 2) with
      | some rest' => findTag rest' tag type
      | none => none
    else none
  | '<' :: '/' :: rest => if type = .start then none else findName rest tag .end_
  | '<' :: rest => if type = .end_ then none else findName rest tag .start
  | _ => none
termination_by cp.length
decreasing_by
  have hspace := List.length_dropWhile_le isSpace cp
  have hcomment := length_skipComment _h'
  rw [_h] at hspace
  simp only [List.length_cons, List.length_drop] at hspace hcomment
  omega

/-! ### Strings -/

/-- The entities, without the ampersand. -/
def entities : List (Str × Char) :=
  [("amp;".toList, '&'), ("lt;".toList, '<'), ("gt;".toList, '>'), ("apos;".toList, '\''),
    ("quot;".toList, '"')]

/-- One character of an encoded string. -/
def decodeChar : Str → Option (Char × Str)
  | [] => none
  | c :: src =>
    if c = '&' then
      (entities.find? fun e => e.1.isPrefixOf src).map fun e => (e.2, src.drop e.1.length)
    else some (c, src)

theorem length_decodeChar {src rest : Str} {c : Char} (h : decodeChar src = some (c, rest)) :
    rest.length < src.length := by
  rcases src with _ | ⟨a, src⟩
  · cases h
  · rw [decodeChar] at h
    split at h
    · rw [Option.map_eq_some_iff] at h
      obtain ⟨e, -, he⟩ := h
      obtain rfl := (Prod.mk.inj he).2
      rw [List.length_drop, List.length_cons]
      omega
    · obtain rfl := (Prod.mk.inj (Option.some.inj h)).2
      exact Nat.lt_succ_self _

/-- `_prop_object_internalize_decode_string`: the string, and the text from the tag behind it
on.  Where there is a target, it has to fit. -/
def decodeString (targsize : Option Nat) (tarindex : Nat) (src : Str) : Option (Str × Str) :=
  if src.head? = some '<' then some ([], src)
  else
    match h : decodeChar src with
    | none => none
    | some (c, rest) =>
      if room targsize tarindex then
        (decodeString targsize (tarindex + 1) rest).map fun r => (c :: r.1, r.2)
      else none
termination_by src.length
decreasing_by exact length_decodeChar h

/-! ### The types -/

/-- `_prop_bool_internalize`. -/
def boolInternalize (ctx : Ctx) : Option (Obj × Ctx) :=
  if ctx.tagattr.isSome || !ctx.isEmptyElement then none
  else some (.bool (decide (ctx.tagname = "true".toList)), ctx)

/-- `_prop_number_internalize_signed`. -/
def numberInternalizeSigned (cp : Str) : Option (Number × Str) :=
  if ((strtoll cp).1 = llongMax ∨ (strtoll cp).1 = -(llongMax + 1 : Nat)) ∧ (strtoll cp).2.1 then none
  else some (.signed (strtoll cp).1 (strtoll_range cp), (strtoll cp).2.2)

/-- `_prop_number_internalize_unsigned`. -/
def numberInternalizeUnsigned (cp : Str) : Option (Number × Str) :=
  if (strtoull cp).1 = ullongMax ∧ (strtoull cp).2.1 then none
  else some (.unsigned (strtoull cp).1 (strtoull_range cp), (strtoull cp).2.2)

/-- The choice in `_prop_number_internalize`. -/
def numberInternalizeValue (cp : Str) : Option (Number × Str) :=
  if cp.head? = some '-' then numberInternalizeSigned cp
  else if ['0', 'x'].isPrefixOf cp then numberInternalizeUnsigned cp
  else (numberInternalizeSigned cp).or (numberInternalizeUnsigned cp)

/-- `_prop_number_internalize`. -/
def numberInternalize (ctx : Ctx) : Option (Obj × Ctx) :=
  if ctx.tagattr.isSome || ctx.isEmptyElement then none
  else
    (numberInternalizeValue ctx.cp).bind fun r =>
      (findTag r.2 (some "integer".toList) .end_).map fun ctx => (.number r.1, ctx)

/-- `_prop_string_internalize`. -/
def stringInternalize (ctx : Ctx) : Option (Obj × Ctx) :=
  if ctx.isEmptyElement then some (.string [], ctx)
  else if ctx.tagattr.isSome then none
  else
    (decodeString none 0 ctx.cp).bind fun r =>
      (decodeString (some r.1.length) 0 ctx.cp).bind fun r' =>
        if r'.1.length ≠ r.1.length then none
        else
          (findTag r'.2 (some "string".toList) .end_).map fun ctx => (.string r'.1, ctx)

/-- The size of the data: from its attribute, or by a first run of the decoder. -/
def dataSize (ctx : Ctx) : Option Nat :=
  match ctx.tagattr with
  | none => (decode none ctx.cp).map fun r => r.1.length
  | some (name, val) =>
    if name ≠ "size".toList ∨ val = [] then none
    else if ((strtoull val).1 = sizeMax ∧ (strtoull val).2.1) ∨ (strtoull val).2.2 ≠ [] then none
    else some (strtoull val).1

/-- The size that is allocated, less the extra byte. -/
def clampSize (len : Nat) : Nat := if len ≥ sizeMax then 1 else len

/-- `_prop_data_internalize`. -/
def dataInternalize (ctx : Ctx) : Option (Obj × Ctx) :=
  if ctx.isEmptyElement then none
  else
    (dataSize ctx).bind fun len =>
      (decode (some (clampSize len + 1)) ctx.cp).bind fun r =>
        if r.1.length ≠ clampSize len then none
        else (findTag r.2 (some "data".toList) .end_).map fun ctx => (.data r.1, ctx)

/-! ### The containers -/

/-- A container on the stack; a dictionary waits for the value of `tmpkey`. -/
inductive Frame where
  | array (elems : List Obj)
  | dict (entries : List (Str × Obj)) (tmpkey : Str)

/-- What an internalizer leaves: an object or `NULL`, or a container that waits for the
element whose tag is in the context. -/
inductive Outcome where
  | finished (obj : Option Obj) (ctx : Ctx)
  | child (frame : Frame) (ctx : Ctx)

/-- The outcome of an internalizer that needs no stack. -/
def Outcome.leaf (ctx : Ctx) (r : Option (Obj × Ctx)) : Outcome :=
  match r with
  | none => .finished none ctx
  | some (obj, ctx) => .finished (some obj) ctx

/-- `_prop_array_internalize_body`. -/
def arrayInternalizeBody (elems : List Obj) (ctx : Ctx) : Outcome :=
  match findTag ctx.cp none .either with
  | none => .finished none ctx
  | some ctx =>
    if ctx.tagname = "array".toList ∧ ctx.tagType = .end_ then .finished (some (.array elems)) ctx
    else .child (.array elems) ctx

/-- `_prop_array_internalize`. -/
def arrayInternalize (ctx : Ctx) : Outcome :=
  if ctx.tagattr.isSome then .finished none ctx
  else if ctx.isEmptyElement then .finished (some (.array [])) ctx
  else arrayInternalizeBody [] ctx

/-- The key of an entry, and the tag of its value. -/
def keyInternalize (ctx : Ctx) : Option (Str × Ctx) :=
  if ctx.tagname = "key".toList ∧ ctx.tagType = .start ∧ ctx.isEmptyElement = false then
    (decodeString (some maxkey) 0 ctx.cp).bind fun r =>
      (findTag r.2 (some "key".toList) .end_).bind fun ctx =>
        (findTag ctx.cp none .start).map fun ctx => (r.1, ctx)
  else none

/-- `_prop_dictionary_internalize_body`. -/
def dictionaryInternalizeBody (entries : List (Str × Obj)) (ctx : Ctx) : Outcome :=
  match findTag ctx.cp none .either with
  | none => .finished none ctx
  | some ctx =>
    if ctx.tagname = "dict".toList ∧ ctx.tagType = .end_ then .finished (some (.dict entries)) ctx
    else
      match keyInternalize ctx with
      | none => .finished none ctx
      | some (key, ctx) => .child (.dict entries key) ctx

/-- `_prop_dictionary_internalize`. -/
def dictionaryInternalizeElement (ctx : Ctx) : Outcome :=
  if ctx.tagattr.isSome then .finished none ctx
  else if ctx.isEmptyElement then .finished (some (.dict [])) ctx
  else dictionaryInternalizeBody [] ctx

/-- `prop_dictionary_set`, on the contents. -/
def setContents (entries : List (Str × Obj)) (key : Str) (po : Obj) : Option (List (Str × Obj)) :=
  if key.length ≤ maxkey then some (SortedMap.insert strcmp key po entries) else none

/-- `_prop_array_internalize_continue` and `_prop_dictionary_internalize_continue`. -/
def Frame.resume (frame : Frame) (child : Option Obj) (ctx : Ctx) : Outcome :=
  match child, frame with
  | none, _ => .finished none ctx
  | some child, .array elems => arrayInternalizeBody (elems ++ [child]) ctx
  | some child, .dict entries tmpkey =>
    match setContents entries tmpkey child with
    | none => .finished none ctx
    | some entries => dictionaryInternalizeBody entries ctx

/-- `_prop_object_internalizer_table`; `none` for a tag that is not in it. -/
def internalizer (ctx : Ctx) : Option Outcome :=
  if ctx.tagname = "array".toList then some (arrayInternalize ctx)
  else if ctx.tagname = "true".toList ∨ ctx.tagname = "false".toList then
    some (.leaf ctx (boolInternalize ctx))
  else if ctx.tagname = "data".toList then some (.leaf ctx (dataInternalize ctx))
  else if ctx.tagname = "dict".toList then some (dictionaryInternalizeElement ctx)
  else if ctx.tagname = "integer".toList then some (.leaf ctx (numberInternalize ctx))
  else if ctx.tagname = "string".toList then some (.leaf ctx (stringInternalize ctx))
  else none

/-- The inner loop of `_prop_object_internalize_by_tag`: a finished object goes to the
container on top of the stack. -/
def unwind : List Frame → Outcome → (List Frame × Ctx) ⊕ (Option Obj × Ctx)
  | stack, .child frame ctx => .inl (frame :: stack, ctx)
  | [], .finished obj ctx => .inr (obj, ctx)
  | frame :: stack, .finished obj ctx => unwind stack (frame.resume obj ctx)

/-- A turn of `_prop_object_internalize_by_tag`, from `match_start` on. -/
def turn (s : List Frame × Ctx) : (List Frame × Ctx) ⊕ (Option Obj × Ctx) :=
  match internalizer s.2 with
  | none => .inr (none, s.2)
  | some outcome => unwind s.1 outcome

/-! ### The text that is left -/

theorem length_findAttr {cp : Str} {r : Str × Str × Str} (h : findAttr cp = some r) :
    r.2.2.length < cp.length := by
  simp only [findAttr] at h
  have hspace := List.length_dropWhile_le isSpace cp
  have hname := List.length_dropWhile_le (fun c => !isSpace c && decide (c ≠ '='))
    (cp.dropWhile isSpace)
  split at h
  · rename_i rest heq
    have hval := List.length_dropWhile_le (fun c => decide (c ≠ '"')) rest
    rw [heq] at hname
    split at h
    · rename_i rest' heq'
      obtain rfl := Option.some.inj h
      rw [heq'] at hval
      simp only [List.length_cons] at hname hval ⊢
      omega
    · cases h
  · cases h

theorem length_findName {cp : Str} {tag : Option Str} {type : TagType} {ctx : Ctx}
    (h : findName cp tag type = some ctx) : ctx.cp.length < cp.length := by
  simp only [findName] at h
  have hname := List.length_dropWhile_le isNameChar cp
  split at h
  · split at h
    · rename_i heq
      rw [heq] at hname
      split at h
      · obtain rfl := Option.some.inj h
        simp only [List.length_cons] at hname ⊢
        omega
      · cases h
    · cases h
    · rename_i heq
      rw [heq] at hname
      obtain rfl := Option.some.inj h
      exact hname
    · rename_i heq
      rw [heq] at hname
      obtain ⟨r, hr, rfl⟩ := Option.map_eq_some_iff.mp h
      have hattr := length_findAttr hr
      simp only [List.length_cons] at hname ⊢
      omega
    · cases h
  · cases h

theorem length_findTag {cp : Str} {tag : Option Str} {type : TagType} {ctx : Ctx}
    (h : findTag cp tag type = some ctx) : ctx.cp.length < cp.length := by
  fun_induction findTag cp tag type with
  | case1 cp rest heq hcomment rest' hskip ih =>
    have hlen := List.length_dropWhile_le isSpace cp
    have hdrop := length_skipComment hskip
    rw [heq] at hlen
    simp only [List.length_cons, List.length_drop] at hlen hdrop
    exact (ih h).trans (by omega)
  | case2 cp rest heq hcomment hskip => cases h
  | case3 cp rest heq hcomment => cases h
  | case4 cp rest heq htype => cases h
  | case5 cp rest heq htype =>
    have hlen := List.length_dropWhile_le isSpace cp
    rw [heq] at hlen
    simp only [List.length_cons] at hlen
    exact (length_findName h).trans (by omega)
  | case6 cp rest hbang hslash heq htype => cases h
  | case7 cp rest hbang hslash heq htype =>
    have hlen := List.length_dropWhile_le isSpace cp
    rw [heq] at hlen
    exact (length_findName h).trans hlen
  | case8 => cases h

theorem length_decodeString {targsize : Option Nat} {tarindex : Nat} {src : Str} {r : Str × Str}
    (h : decodeString targsize tarindex src = some r) : r.2.length ≤ src.length := by
  fun_induction decodeString targsize tarindex src generalizing r with
  | case1 tarindex src hstop =>
    obtain rfl := Option.some.inj h
    exact Nat.le_refl _
  | case2 tarindex src hstop hchar => cases h
  | case3 tarindex src hstop c rest hchar hroom ih =>
    obtain ⟨r', hr', rfl⟩ := Option.map_eq_some_iff.mp h
    exact (ih hr').trans (Nat.le_of_lt (length_decodeChar hchar))
  | case4 tarindex src hstop c rest hchar hroom => cases h

theorem length_numberInternalizeValue {cp : Str} {r : Number × Str}
    (h : numberInternalizeValue cp = some r) : r.2.length ≤ cp.length := by
  have hsigned : ∀ {r}, numberInternalizeSigned cp = some r → r.2.length ≤ cp.length := by
    intro r h
    rw [numberInternalizeSigned] at h
    split at h
    · cases h
    · obtain rfl := Option.some.inj h
      rw [strtoll_rest]
      exact length_scanNumber cp
  have hunsigned : ∀ {r}, numberInternalizeUnsigned cp = some r → r.2.length ≤ cp.length := by
    intro r h
    rw [numberInternalizeUnsigned] at h
    split at h
    · cases h
    · obtain rfl := Option.some.inj h
      rw [strtoull_rest]
      exact length_scanNumber cp
  rw [numberInternalizeValue] at h
  split at h
  · exact hsigned h
  · split at h
    · exact hunsigned h
    · rcases Option.or_eq_some_iff.mp h with h | ⟨-, h⟩
      · exact hsigned h
      · exact hunsigned h

/-- An outcome with no more text than `n`; where an element follows, its tag has been read. -/
def Outcome.Within (n : Nat) : Outcome → Prop
  | .finished _ ctx => ctx.cp.length ≤ n
  | .child _ ctx => ctx.cp.length < n

theorem Outcome.within_leaf {ctx : Ctx} {r : Option (Obj × Ctx)}
    (h : ∀ o ctx', r = some (o, ctx') → ctx'.cp.length ≤ ctx.cp.length) :
    (Outcome.leaf ctx r).Within ctx.cp.length := by
  rcases r with _ | ⟨o, ctx'⟩
  · exact Nat.le_refl _
  · exact h o ctx' rfl

theorem length_boolInternalize {ctx ctx' : Ctx} {o : Obj} (h : boolInternalize ctx = some (o, ctx')) :
    ctx'.cp.length ≤ ctx.cp.length := by
  rw [boolInternalize] at h
  split at h
  · cases h
  · obtain rfl := (Prod.mk.inj (Option.some.inj h)).2
    exact Nat.le_refl _

theorem length_numberInternalize {ctx ctx' : Ctx} {o : Obj}
    (h : numberInternalize ctx = some (o, ctx')) : ctx'.cp.length ≤ ctx.cp.length := by
  rw [numberInternalize] at h
  split at h
  · cases h
  · obtain ⟨r, hvalue, hmap⟩ := Option.bind_eq_some_iff.mp h
    obtain ⟨c, htag, heq⟩ := Option.map_eq_some_iff.mp hmap
    obtain rfl := (Prod.mk.inj heq).2
    exact (Nat.le_of_lt (length_findTag htag)).trans (length_numberInternalizeValue hvalue)

theorem length_stringInternalize {ctx ctx' : Ctx} {o : Obj}
    (h : stringInternalize ctx = some (o, ctx')) : ctx'.cp.length ≤ ctx.cp.length := by
  rw [stringInternalize] at h
  split at h
  · obtain rfl := (Prod.mk.inj (Option.some.inj h)).2
    exact Nat.le_refl _
  · split at h
    · cases h
    · obtain ⟨r, -, h⟩ := Option.bind_eq_some_iff.mp h
      obtain ⟨r', hdecode, h⟩ := Option.bind_eq_some_iff.mp h
      split at h
      · cases h
      · obtain ⟨c, htag, heq⟩ := Option.map_eq_some_iff.mp h
        obtain rfl := (Prod.mk.inj heq).2
        exact (Nat.le_of_lt (length_findTag htag)).trans (length_decodeString hdecode)

theorem length_dataInternalize {ctx ctx' : Ctx} {o : Obj}
    (h : dataInternalize ctx = some (o, ctx')) : ctx'.cp.length ≤ ctx.cp.length := by
  rw [dataInternalize] at h
  split at h
  · cases h
  · obtain ⟨len, -, h⟩ := Option.bind_eq_some_iff.mp h
    obtain ⟨r, hdecode, h⟩ := Option.bind_eq_some_iff.mp h
    split at h
    · cases h
    · obtain ⟨c, htag, heq⟩ := Option.map_eq_some_iff.mp h
      obtain rfl := (Prod.mk.inj heq).2
      exact (Nat.le_of_lt (length_findTag htag)).trans (length_decode hdecode)

theorem within_arrayInternalizeBody (elems : List Obj) (ctx : Ctx) :
    (arrayInternalizeBody elems ctx).Within ctx.cp.length := by
  rw [arrayInternalizeBody]
  split
  · exact Nat.le_refl _
  · rename_i htag
    have hlt := length_findTag htag
    split
    · exact Nat.le_of_lt hlt
    · exact hlt

theorem length_keyInternalize {ctx ctx' : Ctx} {key : Str}
    (h : keyInternalize ctx = some (key, ctx')) : ctx'.cp.length < ctx.cp.length := by
  rw [keyInternalize] at h
  split at h
  · obtain ⟨r, hdecode, h⟩ := Option.bind_eq_some_iff.mp h
    obtain ⟨c, hend, h⟩ := Option.bind_eq_some_iff.mp h
    obtain ⟨c', hstart, heq⟩ := Option.map_eq_some_iff.mp h
    obtain rfl := (Prod.mk.inj heq).2
    exact (length_findTag hstart).trans ((length_findTag hend).trans_le (length_decodeString hdecode))
  · cases h

theorem within_dictionaryInternalizeBody (entries : List (Str × Obj)) (ctx : Ctx) :
    (dictionaryInternalizeBody entries ctx).Within ctx.cp.length := by
  rw [dictionaryInternalizeBody]
  split
  · exact Nat.le_refl _
  · rename_i htag
    have hlt := length_findTag htag
    split
    · exact Nat.le_of_lt hlt
    · split
      · exact Nat.le_of_lt hlt
      · rename_i hkey
        exact (length_keyInternalize hkey).trans hlt

theorem within_resume (frame : Frame) (child : Option Obj) (ctx : Ctx) :
    (frame.resume child ctx).Within ctx.cp.length := by
  unfold Frame.resume
  split
  · exact Nat.le_refl _
  · exact within_arrayInternalizeBody _ _
  · split
    · exact Nat.le_refl _
    · exact within_dictionaryInternalizeBody _ _

theorem within_internalizer {ctx : Ctx} {outcome : Outcome} (h : internalizer ctx = some outcome) :
    outcome.Within ctx.cp.length := by
  rw [internalizer] at h
  split_ifs at h
  all_goals obtain rfl := Option.some.inj h
  · rw [arrayInternalize]
    split_ifs
    · exact Nat.le_refl _
    · exact Nat.le_refl _
    · exact within_arrayInternalizeBody _ _
  · exact Outcome.within_leaf fun _ _ => length_boolInternalize
  · exact Outcome.within_leaf fun _ _ => length_dataInternalize
  · rw [dictionaryInternalizeElement]
    split_ifs
    · exact Nat.le_refl _
    · exact Nat.le_refl _
    · exact within_dictionaryInternalizeBody _ _
  · exact Outcome.within_leaf fun _ _ => length_numberInternalize
  · exact Outcome.within_leaf fun _ _ => length_stringInternalize

theorem length_unwind {stack : List Frame} {outcome : Outcome} {n : Nat} (h : outcome.Within n)
    {s : List Frame × Ctx} (hs : unwind stack outcome = .inl s) : s.2.cp.length < n := by
  induction stack generalizing outcome n with
  | nil =>
    cases outcome with
    | child frame ctx =>
      obtain rfl := Sum.inl.inj hs
      exact h
    | finished obj ctx => cases hs
  | cons frame stack ih =>
    cases outcome with
    | child frame ctx =>
      obtain rfl := Sum.inl.inj hs
      exact h
    | finished obj ctx => exact (ih (within_resume frame obj ctx) hs).trans_le h

/-- A turn that goes on has read a tag. -/
theorem length_turn {s s' : List Frame × Ctx} (h : turn s = .inl s') :
    s'.2.cp.length < s.2.cp.length := by
  rw [turn] at h
  split at h
  · cases h
  · rename_i houtcome
    exact length_unwind (within_internalizer houtcome) h

/-! ### The reader -/

def turnMeasure : Loop.Measure turn where
  size s := s.2.cp.length
  lt := length_turn

/-- `_prop_object_internalize_by_tag`, with a stack. -/
def byTagOn (stack : List Frame) (ctx : Ctx) : Option Obj × Ctx := Loop.run turnMeasure (stack, ctx)

/-- `_prop_object_internalize_by_tag`. -/
def byTag (ctx : Ctx) : Option Obj × Ctx := byTagOn [] ctx

/-- The loop of `_prop_object_internalize_context_alloc` over the preamble. -/
def skipPreamble (xml : Str) : Option Str :=
  match _h : xml.dropWhile isSpace with
  | '<' :: rest =>
    if "?xml ".toList.isPrefixOf rest || "!DOCTYPE plist".toList.isPrefixOf rest then
      match _h' : rest.dropWhile (· ≠ '>') with
      | _ :: xml' => skipPreamble xml'
      | [] => none
    else if "<!--".toList.isPrefixOf rest then
      match _h' : skipComment (rest.drop 3) with
      | some xml' => skipPreamble xml'
      | none => none
    else some ('<' :: rest)
  | _ => none
termination_by xml.length
decreasing_by
  · have hspace := List.length_dropWhile_le isSpace xml
    have hname := List.length_dropWhile_le (fun c => decide (c ≠ '>')) rest
    rw [_h] at hspace
    rw [_h'] at hname
    simp only [List.length_cons] at hspace hname
    omega
  · have hspace := List.length_dropWhile_le isSpace xml
    have hcomment := length_skipComment _h'
    rw [_h] at hspace
    simp only [List.length_cons, List.length_drop] at hspace hcomment
    omega

/-- `_prop_generic_internalize`. -/
def genericInternalize (xml masterTag : Str) : Option Obj :=
  (skipPreamble xml).bind fun cp =>
    (findTag cp (some "plist".toList) .start).bind fun ctx =>
      if ctx.isEmptyElement then none
      else if ctx.tagattr.any (·.1 ≠ "version".toList) then none
      else
        (findTag ctx.cp (some masterTag) .start).bind fun ctx =>
          match byTag ctx with
          | (none, _) => none
          | (some obj, ctx) => (findTag ctx.cp (some "plist".toList) .end_).map fun _ => obj

/-- `prop_dictionary_internalize`. -/
def dictionaryInternalize (xml : Str) : Option Obj := genericInternalize xml "dict".toList

/-- `prop_array_internalize`. -/
def arrayInternalizeText (xml : Str) : Option Obj := genericInternalize xml "array".toList

end Flappy.Proplib
