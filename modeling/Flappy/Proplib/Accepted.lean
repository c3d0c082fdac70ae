/-
What the reader accepts.

Every container on the stack is well formed, and the one at the bottom is of the type
that its tag has named; so is the object that comes out.

* `accepted_byTag` — the loop, whatever the text;
* `potExtern_norm` — an object and what is read of it have the same text;
* `written_read`, `read_written` — from objects to texts and back, and from texts.
-/
import Flappy.Proplib.Equals
import Flappy.Proplib.RoundTrip

open CStr

namespace Flappy.Proplib

/-- The container as far as it has been read. -/
def Frame.obj : Frame → Obj
  | .array elems => .array elems
  | .dict entries _ => .dict entries

/-- An outcome for an element of the tag `t`. -/
def Outcome.Good (t : Str) : Outcome → Prop
  | .finished obj _ => ∀ o, obj = some o → o.WF ∧ o.tag = t
  | .child frame _ => frame.obj.WF ∧ frame.obj.tag = t

theorem good_none (t : Str) (ctx : Ctx) : (Outcome.finished none ctx).Good t := by
  intro o ho
  cases ho

theorem good_some {t : Str} {o : Obj} (hwf : o.WF) (htag : o.tag = t) (ctx : Ctx) :
    (Outcome.finished (some o) ctx).Good t := by
  intro o' ho
  obtain rfl := Option.some.inj ho
  exact ⟨hwf, htag⟩

theorem good_leaf {t : Str} {ctx : Ctx} {r : Option (Obj × Ctx)}
    (h : ∀ o ctx', r = some (o, ctx') → o.WF ∧ o.tag = t) : (Outcome.leaf ctx r).Good t := by
  rcases r with _ | ⟨o, ctx'⟩
  · exact good_none t ctx
  · exact good_some (h o ctx' rfl).1 (h o ctx' rfl).2 ctx'

/-! ### Values -/

theorem accepted_bool {ctx ctx' : Ctx} {o : Obj}
    (htag : ctx.tagname = "true".toList ∨ ctx.tagname = "false".toList)
    (h : boolInternalize ctx = some (o, ctx')) : o.WF ∧ o.tag = ctx.tagname := by
  rw [boolInternalize] at h
  split at h
  · cases h
  · obtain rfl := (Prod.mk.inj (Option.some.inj h)).1
    refine ⟨.bool, ?_⟩
    rcases htag with htag | htag <;> rw [htag] <;> rfl

theorem accepted_number {ctx ctx' : Ctx} {o : Obj} (h : numberInternalize ctx = some (o, ctx')) :
    o.WF ∧ o.tag = "integer".toList := by
  rw [numberInternalize] at h
  split at h
  · cases h
  · obtain ⟨r, -, hmap⟩ := Option.bind_eq_some_iff.mp h
    obtain ⟨c, -, heq⟩ := Option.map_eq_some_iff.mp hmap
    obtain rfl := (Prod.mk.inj heq).1
    exact ⟨.number, rfl⟩

theorem accepted_string {ctx ctx' : Ctx} {o : Obj} (h : stringInternalize ctx = some (o, ctx')) :
    o.WF ∧ o.tag = "string".toList := by
  rw [stringInternalize] at h
  split at h
  · obtain rfl := (Prod.mk.inj (Option.some.inj h)).1
    exact ⟨.string, rfl⟩
  · split at h
    · cases h
    · obtain ⟨r, -, h⟩ := Option.bind_eq_some_iff.mp h
      obtain ⟨r', -, h⟩ := Option.bind_eq_some_iff.mp h
      split at h
      · cases h
      · obtain ⟨c, -, heq⟩ := Option.map_eq_some_iff.mp h
        obtain rfl := (Prod.mk.inj heq).1
        exact ⟨.string, rfl⟩

theorem clampSize_lt (len : Nat) : clampSize len < sizeMax := by
  rw [clampSize]
  split
  · decide
  · omega

/-- The size that has been read is the one that was allocated. -/
theorem accepted_data {ctx ctx' : Ctx} {o : Obj} (h : dataInternalize ctx = some (o, ctx')) :
    o.WF ∧ o.tag = "data".toList := by
  rw [dataInternalize] at h
  split at h
  · cases h
  · obtain ⟨len, -, h⟩ := Option.bind_eq_some_iff.mp h
    obtain ⟨r, -, h⟩ := Option.bind_eq_some_iff.mp h
    split at h
    · cases h
    · rename_i hlen
      obtain ⟨c, -, heq⟩ := Option.map_eq_some_iff.mp h
      obtain rfl := (Prod.mk.inj heq).1
      rw [Decidable.not_not] at hlen
      exact ⟨.data (hlen ▸ clampSize_lt len), rfl⟩

/-! ### Containers -/

theorem good_arrayBody {elems : List Obj} (h : ∀ o ∈ elems, o.WF) (ctx : Ctx) :
    (arrayInternalizeBody elems ctx).Good "array".toList := by
  rw [arrayInternalizeBody]
  split
  · exact good_none _ _
  · split
    · exact good_some (.array h) rfl _
    · exact ⟨.array h, rfl⟩

theorem good_dictionaryBody {entries : List (Str × Obj)} (h : (Obj.dict entries).WF) (ctx : Ctx) :
    (dictionaryInternalizeBody entries ctx).Good "dict".toList := by
  rw [dictionaryInternalizeBody]
  split
  · exact good_none _ _
  · split
    · exact good_some h rfl _
    · split
      · exact good_none _ _
      · exact ⟨h, rfl⟩

theorem wf_dict_nil : (Obj.dict []).WF :=
  .dict .nil (fun _ h => by cases h) fun _ h => by cases h

theorem good_internalizer {ctx : Ctx} {outcome : Outcome} (h : internalizer ctx = some outcome) :
    outcome.Good ctx.tagname := by
  rw [internalizer] at h
  split_ifs at h with harray hbool hdata hdict hnumber hstring
  all_goals obtain rfl := Option.some.inj h
  · rw [harray, arrayInternalize]
    have hnil : ∀ o ∈ ([] : List Obj), o.WF := fun _ h => by cases h
    split_ifs
    · exact good_none _ _
    · exact good_some (.array hnil) rfl _
    · exact good_arrayBody hnil _
  · exact good_leaf fun _ _ => accepted_bool hbool
  · rw [hdata]
    exact good_leaf fun _ _ => accepted_data
  · rw [hdict, dictionaryInternalizeElement]
    split_ifs
    · exact good_none _ _
    · exact good_some wf_dict_nil rfl _
    · exact good_dictionaryBody wf_dict_nil _
  · rw [hnumber]
    exact good_leaf fun _ _ => accepted_number
  · rw [hstring]
    exact good_leaf fun _ _ => accepted_string

theorem wf_setContents {entries entries' : List (Str × Obj)} {key : Str} {po : Obj}
    (h : (Obj.dict entries).WF) (hpo : po.WF) (hset : setContents entries key po = some entries') :
    (Obj.dict entries').WF := by
  rw [setContents] at hset
  split at hset
  · rename_i hkey
    obtain rfl := Option.some.inj hset
    cases h with
    | dict hsorted hkeys hvalues =>
      refine .dict hsorted.insert (fun e he => ?_) fun e he => ?_
      · rcases SortedMap.mem_insert he with rfl | he | ⟨b, hb, -, rfl⟩
        · exact hkey
        · exact hkeys e he
        · exact hkeys b hb
      · rcases SortedMap.mem_insert he with rfl | he | ⟨b, hb, -, rfl⟩
        · exact hpo
        · exact hvalues e he
        · exact hpo
  · cases hset

theorem good_resume {frame : Frame} (h : frame.obj.WF) {child : Option Obj}
    (hchild : ∀ o, child = some o → o.WF) (ctx : Ctx) :
    (frame.resume child ctx).Good frame.obj.tag := by
  cases child with
  | none => exact good_none _ _
  | some o =>
    have ho := hchild o rfl
    cases frame with
    | array elems =>
      cases h with
      | array helems =>
        refine good_arrayBody (fun o' ho' => ?_) ctx
        rcases List.mem_append.mp ho' with ho' | ho'
        · exact helems o' ho'
        · rw [List.mem_singleton.mp ho']
          exact ho
    | dict entries tmpkey =>
      simp only [Frame.resume]
      split
      · exact good_none _ _
      · rename_i hset
        exact good_dictionaryBody (wf_setContents h ho hset) ctx

/-! ### The loop -/

/-- The tag of the element at the bottom of the stack. -/
def bottom : List Frame → Str → Str
  | [], t => t
  | frame :: stack, _ => bottom stack frame.obj.tag

/-- What is being read is the element `t`, and is well formed so far. -/
def Reading (t : Str) (s : List Frame × Ctx) : Prop :=
  (∀ frame ∈ s.1, frame.obj.WF) ∧ bottom s.1 s.2.tagname = t

/-- The same of the end of a turn, or of the object that has come out. -/
def Turned (t : Str) : (List Frame × Ctx) ⊕ (Option Obj × Ctx) → Prop
  | .inl s => Reading t s
  | .inr r => ∀ o, r.1 = some o → o.WF ∧ o.tag = t

theorem turned_unwind {stack : List Frame} {outcome : Outcome} {u : Str}
    (hstack : ∀ frame ∈ stack, frame.obj.WF) (hgood : outcome.Good u) :
    Turned (bottom stack u) (unwind stack outcome) := by
  induction stack generalizing outcome u with
  | nil =>
    cases outcome with
    | child frame ctx =>
      obtain ⟨hwf, rfl⟩ := hgood
      exact ⟨List.forall_mem_singleton.mpr hwf, rfl⟩
    | finished obj ctx => exact hgood
  | cons frame stack ih =>
    obtain ⟨hframe, hstack'⟩ := List.forall_mem_cons.mp hstack
    cases outcome with
    | child child ctx =>
      obtain ⟨hwf, rfl⟩ := hgood
      exact ⟨List.forall_mem_cons.mpr ⟨hwf, hstack⟩, rfl⟩
    | finished obj ctx =>
      exact ih hstack' (good_resume hframe (fun o ho => (hgood o ho).1) ctx)

theorem turned_turn {t : Str} {s : List Frame × Ctx} (h : Reading t s) : Turned t (turn s) := by
  obtain ⟨stack, ctx⟩ := s
  obtain ⟨hstack, rfl⟩ := h
  rw [turn]
  cases hint : internalizer ctx with
  | none =>
    intro o ho
    cases ho
  | some outcome => exact turned_unwind hstack (good_internalizer hint)

/-- The object that comes out is well formed and of the type its tag names. -/
theorem accepted_byTag {ctx : Ctx} {o : Obj} (h : (byTag ctx).1 = some o) :
    o.WF ∧ o.tag = ctx.tagname := by
  have hstart : Reading ctx.tagname ([], ctx) := by
    refine ⟨fun frame hframe => ?_, rfl⟩
    cases hframe
  have hend : Turned ctx.tagname (.inr (Loop.run turnMeasure ([], ctx))) := by
    refine Loop.run_induction (Q := fun r => Turned ctx.tagname (.inr r)) (fun s s' hs hturn => ?_)
      (fun s r hs hturn => ?_) hstart
    · have hturned := turned_turn hs
      rw [hturn] at hturned
      exact hturned
    · have hturned := turned_turn hs
      rw [hturn] at hturned
      exact hturned
  exact hend o h

theorem findName_tagname {cp tag : Str} {type : TagType} {ctx : Ctx}
    (h : findName cp (some tag) type = some ctx) : ctx.tagname = tag := by
  simp only [findName, Option.all_some, decide_eq_true_eq] at h
  split at h
  · rename_i hname
    split at h
    · split at h
      · obtain rfl := Option.some.inj h
        exact hname.symm
      · cases h
    · cases h
    · obtain rfl := Option.some.inj h
      exact hname.symm
    · obtain ⟨r, -, rfl⟩ := Option.map_eq_some_iff.mp h
      exact hname.symm
    · cases h
  · cases h

/-- The tag that is found is the one that was looked for. -/
theorem findTag_tagname {cp tag : Str} {type : TagType} {ctx : Ctx}
    (h : findTag cp (some tag) type = some ctx) : ctx.tagname = tag := by
  generalize hexp : some tag = expected at h
  fun_induction findTag cp expected type with
  | case1 cp rest heq hcomment rest' hskip ih => exact ih h
  | case2 => cases h
  | case3 => cases h
  | case4 => cases h
  | case5 => exact findName_tagname (hexp ▸ h)
  | case6 => cases h
  | case7 => exact findName_tagname (hexp ▸ h)
  | case8 => cases h

theorem accepted_document {xml tag : Str} {o : Obj} (h : genericInternalize xml tag = some o) :
    o.WF ∧ o.tag = tag := by
  obtain ⟨cp, -, h⟩ := Option.bind_eq_some_iff.mp h
  obtain ⟨ctx, -, h⟩ := Option.bind_eq_some_iff.mp h
  split at h
  · cases h
  · split at h
    · cases h
    · obtain ⟨ctx', htag, h⟩ := Option.bind_eq_some_iff.mp h
      split at h
      · cases h
      · rename_i obj ctx'' hread
        obtain ⟨c, -, rfl⟩ := Option.map_eq_some_iff.mp h
        have haccepted : obj.WF ∧ obj.tag = ctx'.tagname := accepted_byTag (by rw [hread])
        rw [findTag_tagname htag] at haccepted
        exact haccepted

/-! ### What is read of an object -/

theorem text_norm (pnv : Number) : pnv.norm.text = pnv.text := by
  cases pnv with
  | signed v range => rfl
  | unsigned v range =>
    rw [Number.norm]
    split
    · rw [Number.text, Number.text, decide_eq_false (by omega)]
      rfl
    · rfl

theorem number_norm_norm (pnv : Number) : pnv.norm.norm = pnv.norm := by
  cases pnv with
  | signed v range => rfl
  | unsigned v range =>
    by_cases hfits : v ≤ llongMax
    · rw [Number.norm, dif_pos hfits, Number.norm]
    · rw [Number.norm, dif_neg hfits, Number.norm, dif_neg hfits]

theorem norm_norm {o : Obj} (h : o.WF) : o.norm.norm = o.norm := by
  induction h with
  | bool => rfl
  | @number pnv => exact congrArg Obj.number (number_norm_norm pnv)
  | string => rfl
  | data => rfl
  | array _ ih =>
    simp only [Obj.norm, normElems_eq_map, List.map_map]
    exact congrArg Obj.array (List.map_congr_left ih)
  | dict _ _ _ ih =>
    simp only [Obj.norm, normEntries_eq_map, List.map_map]
    exact congrArg Obj.dict (List.map_congr_left fun e he => Prod.ext rfl (ih e he))

theorem externElems_norm {elems : List Obj}
    (h : ∀ o ∈ elems, ∀ depth, potExtern depth o.norm = potExtern depth o) (depth : Nat) :
    externElems depth (normElems elems) = externElems depth elems := by
  induction elems with
  | nil => rfl
  | cons o elems ih =>
    obtain ⟨ho, helems⟩ := List.forall_mem_cons.mp h
    rw [normElems, externElems, externElems, ho, ih helems]

theorem externEntries_norm {entries : List (Str × Obj)}
    (h : ∀ e ∈ entries, ∀ depth, potExtern depth e.2.norm = potExtern depth e.2) (depth : Nat) :
    externEntries depth (normEntries entries) = externEntries depth entries := by
  induction entries with
  | nil => rfl
  | cons e entries ih =>
    obtain ⟨he, hentries⟩ := List.forall_mem_cons.mp h
    rw [normEntries, externEntries, externEntries, he, ih hentries]

theorem potExtern_norm {o : Obj} (h : o.WF) (depth : Nat) : potExtern depth o.norm = potExtern depth o := by
  induction h generalizing depth with
  | bool => rfl
  | number =>
    rw [Obj.norm, potExtern, potExtern, text_norm]
  | string => rfl
  | data => rfl
  | @array elems _ ih =>
    rw [Obj.norm, potExtern, potExtern, externElems_norm ih, normElems_eq_map, List.isEmpty_map]
  | @dict entries _ _ _ ih =>
    rw [Obj.norm, potExtern, potExtern, externEntries_norm ih, normEntries_eq_map, List.isEmpty_map]

variable {identical : List Compared × Compared → Bool}

/-- **An object is read back equal to what it was**, and well formed; an object with empty data
in it is written, but not read. -/
theorem written_read {o : Obj} (h : o.WF)
    (hsame : ∀ s, identical s = true → s.2.obj1 = s.2.obj2) :
    (o.readable = true → ∃ o', genericInternalize (externalize o) o.tag = some o' ∧ o'.WF ∧
      objectEquals identical o' o = true) ∧
    (o.readable = false → genericInternalize (externalize o) o.tag = none) := by
  have hread := genericInternalize_externalize h
  constructor
  · intro hreadable
    rw [hreadable, if_pos rfl] at hread
    refine ⟨o.norm, hread, (accepted_document hread).1, ?_⟩
    rw [objectEquals_rest hsame, rest_fresh, norm_norm h]
  · intro hreadable
    rw [hreadable] at hread
    exact hread

/-- An array of a number. -/
theorem written_read_array :
    ∃ o', genericInternalize (externalize (.array [.number (.unsigned 7 (by decide))]))
        "array".toList = some o' ∧ o'.WF ∧
      objectEquals (fun _ => false) o' (.array [.number (.unsigned 7 (by decide))]) = true := by
  have hwf : (Obj.array [.number (.unsigned 7 (by decide))]).WF :=
    .array (List.forall_mem_singleton.mpr .number)
  exact (written_read hwf fun s h => by cases h).1 rfl

/-- **Whatever text is read, the object is of the type that was asked for**, and a dictionary
in it has its keys in order, once and short enough.  Written again it is read as an object that
is equal and has the same text. -/
theorem read_written {xml tag : Str} {o : Obj} (h : genericInternalize xml tag = some o)
    (hsame : ∀ s, identical s = true → s.2.obj1 = s.2.obj2) :
    o.WF ∧ o.tag = tag ∧
      (o.readable = true → ∃ o', genericInternalize (externalize o) tag = some o' ∧
        objectEquals identical o' o = true ∧ externalize o' = externalize o) := by
  obtain ⟨hwf, rfl⟩ := accepted_document h
  refine ⟨hwf, rfl, fun hreadable => ⟨o.norm, ?_, ?_, ?_⟩⟩
  · rw [genericInternalize_externalize hwf, if_pos hreadable]
  · rw [objectEquals_rest hsame, rest_fresh, norm_norm hwf]
  · rw [externalize, potExtern_norm hwf, externalize]

theorem sixteen_range : -(llongMax + 1 : Nat) ≤ (16 : Int) ∧ (16 : Int) ≤ llongMax := by
  decide

theorem seven_lt : 7 < 256 := by
  decide

/-- A dictionary with an array in it. -/
def nested : Obj :=
  .dict [("deps".toList, .array [.string "a<b".toList, .bool true, .data [⟨7, seven_lt⟩]]),
    ("size".toList, .number (.signed 16 sixteen_range))]

theorem wf_nested : nested.WF := by
  have hsorted : strcmp "deps".toList "size".toList = .lt := by decide
  refine .dict (by simpa [SortedMap.Sorted] using hsorted) (by decide) fun e he => ?_
  simp only [List.mem_cons, List.not_mem_nil, or_false] at he
  rcases he with rfl | rfl
  · refine .array fun o ho => ?_
    simp only [List.mem_cons, List.not_mem_nil, or_false] at ho
    rcases ho with rfl | rfl | rfl
    · exact .string
    · exact .bool
    · exact .data (by decide)
  · exact .number

theorem read_written_nested :
    ∃ o', genericInternalize (externalize nested) "dict".toList = some o' ∧
      objectEquals (fun _ => false) o' nested = true ∧ externalize o' = externalize nested := by
  have hread : genericInternalize (externalize nested) "dict".toList = some nested :=
    genericInternalize_externalize wf_nested
  exact (read_written hread fun s h => by cases h).2.2 rfl

end Flappy.Proplib
