/-
What is written is read back.

An object's text is read wherever it stands, whatever is on the stack, and leaves the
line end behind its last tag.  The one exception is data that is empty: it is written as
an empty element, and the reader does not accept one.

* `findTag_start`, `findTag_end`, `findTag_empty` — the three kinds of tags;
* `found` — an object of any depth, under any stack;
* `genericInternalize_externalize` — a document.
-/
import Flappy.Proplib.Internalize

open CStr

namespace Flappy.Proplib

/-! ### Tags -/

/-- White space. -/
def Blank (w : Str) : Prop := ∀ c ∈ w, isSpace c = true

/-- A name of a tag. -/
def isTagName (tag : Str) : Bool :=
  tag.all isNameChar && tag.head? ≠ none && tag.head? ≠ some '!' && tag.head? ≠ some '/'

theorem blank_tabs (depth : Nat) : Blank (tabs depth) := by
  intro c hc
  rw [List.eq_of_mem_replicate hc]
  rfl

theorem blank_newline_tabs (depth : Nat) : Blank ('\n' :: tabs depth) := by
  intro c hc
  rcases List.mem_cons.mp hc with rfl | hc
  · rfl
  · exact blank_tabs depth c hc

theorem dropWhile_blank {w : Str} (hw : Blank w) (rest : Str) :
    (w ++ '<' :: rest).dropWhile isSpace = '<' :: rest := by
  rw [List.dropWhile_append_of_pos hw]
  rfl

theorem startTag_append (depth : Nat) (tag rest : Str) :
    startTag depth tag ++ rest = tabs depth ++ '<' :: (tag ++ '>' :: rest) := by
  simp [startTag]

theorem endTag_append (tag rest : Str) :
    endTag tag ++ rest = '<' :: '/' :: (tag ++ '>' :: '\n' :: rest) := by
  simp [endTag]

theorem emptyTag_append (depth : Nat) (tag rest : Str) :
    emptyTag depth tag ++ rest = tabs depth ++ '<' :: (tag ++ '/' :: '>' :: '\n' :: rest) := by
  simp [emptyTag]

section FindTag

variable {w tag : Str} {expected : Option Str} {type : TagType} (rest : Str)

/-- The name in front of a character that ends it. -/
theorem takeWhile_name (htag : tag.all isNameChar = true) {c : Char} (hc : isNameChar c = false) :
    (tag ++ c :: rest).takeWhile isNameChar = tag ∧
      (tag ++ c :: rest).dropWhile isNameChar = c :: rest := by
  rw [List.all_eq_true] at htag
  rw [List.takeWhile_append_of_pos htag, List.dropWhile_append_of_pos htag,
    List.takeWhile_cons_of_neg (by simp [hc]), List.dropWhile_cons_of_neg (by simp [hc])]
  exact ⟨List.append_nil _, rfl⟩

theorem findName_tag (htag : tag.all isNameChar = true) (hexp : expected.all (· = tag) = true) :
    findName (tag ++ '>' :: rest) expected type =
      some { cp := rest, tagname := tag, tagType := type } := by
  obtain ⟨htake, hdrop⟩ := takeWhile_name rest htag (c := '>') rfl
  simp only [findName, htake, hdrop, hexp, if_true]

theorem findName_empty (htag : tag.all isNameChar = true)
    (hexp : expected.all (· = tag) = true) :
    findName (tag ++ '/' :: '>' :: rest) expected .start =
      some { cp := rest, tagname := tag, isEmptyElement := true } := by
  obtain ⟨htake, hdrop⟩ := takeWhile_name ('>' :: rest) htag (c := '/') rfl
  simp only [findName, htake, hdrop, hexp, if_true]

/-- A tag that is neither a comment nor an end tag. -/
theorem findTag_open (hw : Blank w) (h : rest.head? ≠ some '!') (h' : rest.head? ≠ some '/') :
    findTag (w ++ '<' :: rest) expected type =
      if type = .end_ then none else findName rest expected .start := by
  rw [findTag]
  split
  · rename_i heq
    rw [dropWhile_blank hw] at heq
    obtain rfl := (List.cons.inj heq).2
    exact absurd rfl h
  · rename_i heq
    rw [dropWhile_blank hw] at heq
    obtain rfl := (List.cons.inj heq).2
    exact absurd rfl h'
  · rename_i heq
    rw [dropWhile_blank hw] at heq
    obtain rfl := (List.cons.inj heq).2
    rfl
  · rename_i heq
    exact absurd (dropWhile_blank hw rest) (heq rest)

theorem isTagName_spec (htag : isTagName tag = true) :
    tag.all isNameChar = true ∧ ∀ rest, (tag ++ rest).head? ≠ some '!' ∧
      (tag ++ rest).head? ≠ some '/' := by
  simp only [isTagName, Bool.and_eq_true, decide_eq_true_eq] at htag
  obtain ⟨⟨⟨hall, hnone⟩, hbang⟩, hslash⟩ := htag
  refine ⟨hall, fun rest => ?_⟩
  cases tag with
  | nil => exact absurd rfl hnone
  | cons c tag => exact ⟨hbang, hslash⟩

theorem findTag_start (hw : Blank w) (htag : isTagName tag = true)
    (hexp : expected.all (· = tag) = true) (htype : type ≠ .end_) :
    findTag (w ++ '<' :: (tag ++ '>' :: rest)) expected type =
      some { cp := rest, tagname := tag } := by
  obtain ⟨hall, hhead⟩ := isTagName_spec htag
  rw [findTag_open _ hw (hhead _).1 (hhead _).2, if_neg htype, findName_tag rest hall hexp]

theorem findTag_empty (hw : Blank w) (htag : isTagName tag = true)
    (hexp : expected.all (· = tag) = true) (htype : type ≠ .end_) :
    findTag (w ++ '<' :: (tag ++ '/' :: '>' :: rest)) expected type =
      some { cp := rest, tagname := tag, isEmptyElement := true } := by
  obtain ⟨hall, hhead⟩ := isTagName_spec htag
  rw [findTag_open _ hw (hhead _).1 (hhead _).2, if_neg htype, findName_empty rest hall hexp]

theorem findTag_end (hw : Blank w) (htag : isTagName tag = true)
    (hexp : expected.all (· = tag) = true) (htype : type ≠ .start) :
    findTag (w ++ '<' :: '/' :: (tag ++ '>' :: rest)) expected type =
      some { cp := rest, tagname := tag, tagType := .end_ } := by
  obtain ⟨hall, -⟩ := isTagName_spec htag
  rw [findTag]
  split
  · rename_i heq
    rw [dropWhile_blank hw] at heq
    cases heq
  · rename_i heq
    rw [dropWhile_blank hw] at heq
    cases heq
    rw [if_neg htype, findName_tag rest hall hexp]
  · rename_i hslash heq
    rw [dropWhile_blank hw] at heq
    cases heq
    exact absurd rfl (hslash _)
  · rename_i heq
    exact absurd (dropWhile_blank hw _) (heq _)

end FindTag

/-! ### Values -/

/-- An encoded character does not look like a tag, and is decoded. -/
theorem decodeChar_encodeChar (c : Char) (rest : Str) :
    (encodeChar c ++ rest).head? ≠ some '<' ∧
      decodeChar (encodeChar c ++ rest) = some (c, rest) := by
  rw [encodeChar]
  split
  · rename_i h
    exact ⟨by simp, by rw [h]; rfl⟩
  · split
    · rename_i h
      exact ⟨by simp, by rw [h]; rfl⟩
    · split
      · rename_i h
        exact ⟨by simp, by rw [h]; rfl⟩
      · rename_i hlt _ hamp
        refine ⟨by simpa using hlt, ?_⟩
        rw [List.singleton_append, decodeChar, if_neg hamp]

theorem decodeString_encoded {targsize : Option Nat} {tarindex : Nat} {s : Str}
    (h : ∀ i < s.length, room targsize (tarindex + i) = true) (rest : Str) :
    decodeString targsize tarindex (encodedCstring s ++ '<' :: rest) = some (s, '<' :: rest) := by
  induction s generalizing tarindex with
  | nil =>
    rw [decodeString]
    exact if_pos rfl
  | cons c s ih =>
    have htext : encodedCstring (c :: s) ++ '<' :: rest =
        encodeChar c ++ (encodedCstring s ++ '<' :: rest) := by
      simp [encodedCstring]
    obtain ⟨hhead, hchar⟩ := decodeChar_encodeChar c (encodedCstring s ++ '<' :: rest)
    rw [htext, decodeString, if_neg hhead]
    have hroom : room targsize tarindex = true := h 0 (Nat.succ_pos _)
    have hrec : decodeString targsize (tarindex + 1) (encodedCstring s ++ '<' :: rest) =
        some (s, '<' :: rest) := ih fun i hi => by
      have := h (i + 1) (Nat.succ_lt_succ hi)
      rwa [← Nat.add_assoc, Nat.add_right_comm] at this
    split
    · rename_i hnone
      rw [hchar] at hnone
      cases hnone
    · rename_i hsome
      rw [hchar] at hsome
      obtain ⟨rfl, rfl⟩ := Prod.mk.inj (Option.some.inj hsome)
      rw [if_pos hroom, hrec]
      rfl

theorem stops_lt (rest : Str) : Stops ('<' :: rest) := by
  intro c hc
  obtain rfl := Option.some.inj hc
  rfl

/-- What a decimal text without a sign begins with. -/
theorem head_decimal (n : Nat) (rest : Str) :
    (decimal false n ++ '<' :: rest).head? ≠ some '-' ∧
      ['0', 'x'].isPrefixOf (decimal false n ++ '<' :: rest) = false := by
  have hdigit : ∀ c ∈ Nat.toDigits 10 n, c.isDigit = true := fun c hc =>
    Nat.isDigit_of_mem_toDigits (by omega) (by omega) hc
  show (Nat.toDigits 10 n ++ '<' :: rest).head? ≠ some '-' ∧
    ['0', 'x'].isPrefixOf (Nat.toDigits 10 n ++ '<' :: rest) = false
  cases hds : Nat.toDigits 10 n with
  | nil => exact absurd hds Nat.toDigits_ne_nil
  | cons c ds =>
    rw [hds] at hdigit
    have hc := hdigit c List.mem_cons_self
    refine ⟨?_, ?_⟩
    · intro h
      exact isDigit_ne hc rfl (Option.some.inj h)
    · rw [Bool.eq_false_iff]
      intro hprefix
      obtain ⟨t, ht⟩ := List.isPrefixOf_iff_prefix.mp hprefix
      rcases ds with _ | ⟨d, ds⟩
      · exact absurd (List.cons.inj (List.cons.inj ht).2).1 (by decide)
      · have hd := hdigit d (List.mem_cons_of_mem _ List.mem_cons_self)
        exact isDigit_ne hd (d := 'x') rfl (List.cons.inj (List.cons.inj ht).2).1.symm

theorem strtoll_decimal (neg : Bool) {n : Nat} (rest : Str)
    (h : n ≤ if neg then llongMax + 1 else llongMax) :
    strtoll (decimal neg n ++ '<' :: rest) =
      (if neg then -(n : Int) else n, false, '<' :: rest) := by
  simp only [strtoll, scanNumber_decimal neg n (stops_lt rest)]
  cases neg with
  | true => exact if_pos h
  | false => exact if_pos h

/-- A number is read back, as a signed one if it fits. -/
theorem numberInternalizeValue_text (pnv : Number) (rest : Str) :
    numberInternalizeValue (pnv.text ++ '<' :: rest) = some (pnv.norm, '<' :: rest) := by
  cases pnv with
  | signed v range =>
    by_cases hneg : v < 0
    · have hn : v.natAbs ≤ llongMax + 1 := by omega
      have hread := strtoll_decimal true rest (n := v.natAbs) hn
      have hvalue : -(v.natAbs : Int) = v := by omega
      rw [if_pos rfl, hvalue] at hread
      have hhead : (decimal true v.natAbs ++ '<' :: rest).head? = some '-' := rfl
      rw [Number.text, decide_eq_true hneg, numberInternalizeValue, if_pos hhead,
        numberInternalizeSigned, if_neg (by rw [hread]; simp)]
      simp only [hread, Number.norm]
    · have hn : v.natAbs ≤ llongMax := by omega
      have hread := strtoll_decimal false rest (n := v.natAbs) hn
      have hvalue : (v.natAbs : Int) = v := by omega
      rw [if_neg Bool.false_ne_true, hvalue] at hread
      obtain ⟨hminus, hhex⟩ := head_decimal v.natAbs rest
      rw [Number.text, decide_eq_false hneg, numberInternalizeValue, if_neg hminus,
        if_neg (by rw [hhex]; simp), numberInternalizeSigned, if_neg (by rw [hread]; simp)]
      simp only [hread, Number.norm, Option.some_or]
  | unsigned v range =>
    obtain ⟨hminus, hhex⟩ := head_decimal v rest
    rw [Number.text, numberInternalizeValue, if_neg hminus, if_neg (by rw [hhex]; simp),
      Number.norm]
    by_cases hfits : v ≤ llongMax
    · have hread := strtoll_decimal false rest (n := v) hfits
      rw [if_neg Bool.false_ne_true] at hread
      rw [numberInternalizeSigned, if_neg (by rw [hread]; simp), dif_pos hfits]
      simp only [hread, Option.some_or]
    · have hover : strtoll (decimal false v ++ '<' :: rest) = ((llongMax : Int), true, '<' :: rest) := by
        simp only [strtoll, scanNumber_decimal false v (stops_lt rest)]
        exact if_neg hfits
      have hread : strtoull (decimal false v ++ '<' :: rest) = (v, false, '<' :: rest) := by
        simp only [strtoull, scanNumber_decimal false v (stops_lt rest)]
        exact if_pos range
      rw [numberInternalizeSigned, if_pos (by rw [hover]; simp), Option.none_or,
        numberInternalizeUnsigned, if_neg (by rw [hread]; simp), dif_neg hfits]
      simp only [hread]

/-! ### The stack -/

/-- The reader from an outcome on. -/
def resumeOn (stack : List Frame) (outcome : Outcome) : Option Obj × Ctx :=
  match unwind stack outcome with
  | .inl s => byTagOn s.1 s.2
  | .inr r => r

theorem byTagOn_of_internalizer {ctx : Ctx} (outcome : Outcome)
    (h : internalizer ctx = some outcome) (stack : List Frame) :
    byTagOn stack ctx = resumeOn stack outcome := by
  have hturn : turn (stack, ctx) = unwind stack outcome := by
    rw [turn, h]
  rw [byTagOn, resumeOn]
  cases hs : unwind stack outcome with
  | inl s => exact Loop.run_inl (hturn.trans hs)
  | inr r => exact Loop.run_inr (hturn.trans hs)

theorem resumeOn_child (stack : List Frame) (frame : Frame) (ctx : Ctx) :
    resumeOn stack (.child frame ctx) = byTagOn (frame :: stack) ctx := by
  cases stack <;> rfl

theorem resumeOn_cons (frame : Frame) (stack : List Frame) (obj : Option Obj) (ctx : Ctx) :
    resumeOn (frame :: stack) (.finished obj ctx) = resumeOn stack (frame.resume obj ctx) :=
  rfl

/-- Once an element cannot be read, nothing can. -/
theorem resumeOn_none (stack : List Frame) (ctx : Ctx) :
    (resumeOn stack (.finished none ctx)).1 = none := by
  induction stack generalizing ctx with
  | nil => rfl
  | cons frame stack ih => exact ih ctx

/-- The element whose tag is in the context is `o`: it is read to the line end in front of
`rest`, or makes the reader fail. -/
def Reads (ctx : Ctx) (o : Obj) (rest : Str) : Prop :=
  ∀ stack, if o.readable then
    ∃ ctx', ctx'.cp = '\n' :: rest ∧
      byTagOn stack ctx = resumeOn stack (.finished (some o.norm) ctx')
  else (byTagOn stack ctx).1 = none

theorem Reads.of_finished {ctx : Ctx} {o : Obj} {rest : Str} (hreadable : o.readable = true)
    (ctx' : Ctx) (h : internalizer ctx = some (.finished (some o.norm) ctx'))
    (hcp : ctx'.cp = '\n' :: rest) : Reads ctx o rest := by
  intro stack
  rw [if_pos hreadable]
  exact ⟨ctx', hcp, byTagOn_of_internalizer _ h stack⟩

/-- The tag of an object. -/
def Obj.tag : Obj → Str
  | .bool val => if val then "true".toList else "false".toList
  | .number _ => "integer".toList
  | .string _ => "string".toList
  | .data _ => "data".toList
  | .array _ => "array".toList
  | .dict _ => "dict".toList

/-- The text of an object, behind white space, is found by its tag and read. -/
def Found (o : Obj) : Prop :=
  ∀ (depth : Nat) (w rest : Str) (expected : Option Str) (type : TagType), Blank w →
    expected.all (· = o.tag) = true → type ≠ .end_ →
    ∃ ctx, findTag (w ++ (potExtern depth o ++ rest)) expected type = some ctx ∧
      ctx.tagType = .start ∧ Reads ctx o rest

theorem blank_append {w : Str} (hw : Blank w) (depth : Nat) : Blank (w ++ tabs depth) := by
  intro c hc
  rcases List.mem_append.mp hc with hc | hc
  · exact hw c hc
  · exact blank_tabs depth c hc

section Leaves

variable {w rest : Str} {expected : Option Str} {type : TagType}

theorem findTag_startTag (hw : Blank w) (depth : Nat) {tag : Str} (htag : isTagName tag = true)
    (hexp : expected.all (· = tag) = true) (htype : type ≠ .end_) :
    findTag (w ++ (startTag depth tag ++ rest)) expected type =
      some { cp := rest, tagname := tag } := by
  rw [startTag_append, ← List.append_assoc]
  exact findTag_start rest (blank_append hw depth) htag hexp htype

theorem findTag_emptyTag (hw : Blank w) (depth : Nat) {tag : Str} (htag : isTagName tag = true)
    (hexp : expected.all (· = tag) = true) (htype : type ≠ .end_) :
    findTag (w ++ (emptyTag depth tag ++ rest)) expected type =
      some { cp := '\n' :: rest, tagname := tag, isEmptyElement := true } := by
  rw [emptyTag_append, ← List.append_assoc]
  exact findTag_empty ('\n' :: rest) (blank_append hw depth) htag hexp htype

theorem findTag_endTag (hw : Blank w) {tag : Str} (htag : isTagName tag = true)
    (hexp : expected.all (· = tag) = true) (htype : type ≠ .start) :
    findTag (w ++ (endTag tag ++ rest)) expected type =
      some { cp := '\n' :: rest, tagname := tag, tagType := .end_ } := by
  rw [endTag_append]
  exact findTag_end ('\n' :: rest) hw htag hexp htype

/-- The end tag that is looked for. -/
theorem findTag_expected_end {tag : Str} (htag : isTagName tag = true) :
    findTag (endTag tag ++ rest) (some tag) .end_ =
      some { cp := '\n' :: rest, tagname := tag, tagType := .end_ } := by
  have hblank : Blank [] := fun _ h => by cases h
  exact findTag_endTag hblank htag (by simp) (by simp)

/-- The end tag of a container, on a line of its own. -/
theorem findTag_container_end (depth : Nat) {tag : Str} (htag : isTagName tag = true) :
    findTag ('\n' :: (tabs depth ++ (endTag tag ++ rest))) none .either =
      some { cp := '\n' :: rest, tagname := tag, tagType := .end_ } :=
  findTag_endTag (blank_newline_tabs depth) htag rfl (by simp)

end Leaves

theorem found_bool (val : Bool) : Found (.bool val) := by
  intro depth w rest expected type hw hexp htype
  have htag : isTagName (Obj.bool val).tag = true := by cases val <;> decide
  refine ⟨_, findTag_emptyTag hw depth htag hexp htype, rfl, ?_⟩
  refine .of_finished rfl ⟨'\n' :: rest, (Obj.bool val).tag, none, true, .start⟩ ?_ rfl
  cases val <;> rfl

theorem found_number (pnv : Number) : Found (.number pnv) := by
  intro depth w rest expected type hw hexp htype
  rw [potExtern, List.append_assoc, List.append_assoc]
  refine ⟨_, findTag_startTag hw depth (by decide) hexp htype, rfl, ?_⟩
  refine .of_finished rfl ⟨'\n' :: rest, "integer".toList, none, false, .end_⟩ ?_ rfl
  have hend : findTag (endTag "integer".toList ++ rest) (some "integer".toList) .end_ = some _ :=
    findTag_expected_end (by decide)
  have hvalue := numberInternalizeValue_text pnv ('/' :: ("integer".toList ++ '>' :: '\n' :: rest))
  rw [← endTag_append] at hvalue
  show some (Outcome.leaf _ (numberInternalize _)) = _
  simp only [numberInternalize, Option.isSome_none, Bool.or_self, Bool.false_eq_true, if_false,
    hvalue, Option.bind_some, hend, Option.map_some]
  rfl

theorem found_string (str : Str) : Found (.string str) := by
  intro depth w rest expected type hw hexp htype
  rw [potExtern]
  by_cases hstr : str = []
  · subst hstr
    refine ⟨_, findTag_emptyTag hw depth (by decide) hexp htype, rfl, ?_⟩
    exact .of_finished rfl ⟨'\n' :: rest, "string".toList, none, true, .start⟩ rfl rfl
  · rw [if_neg (by simpa using hstr), List.append_assoc, List.append_assoc]
    refine ⟨_, findTag_startTag hw depth (by decide) hexp htype, rfl, ?_⟩
    refine .of_finished rfl ⟨'\n' :: rest, "string".toList, none, false, .end_⟩ ?_ rfl
    have hend : findTag (endTag "string".toList ++ rest) (some "string".toList) .end_ = some _ :=
      findTag_expected_end (by decide)
    have hdecode : ∀ targsize : Option Nat, (∀ i < str.length, room targsize i = true) →
        decodeString targsize 0 (encodedCstring str ++ (endTag "string".toList ++ rest)) =
          some (str, endTag "string".toList ++ rest) := by
      intro targsize hroom
      rw [endTag_append]
      exact decodeString_encoded (fun i hi => by rw [Nat.zero_add]; exact hroom i hi) _
    have hfirst := hdecode none fun _ _ => rfl
    have hsecond := hdecode (some str.length) fun i hi => by simpa [room] using hi
    show some (Outcome.leaf _ (stringInternalize _)) = _
    simp only [stringInternalize, Bool.false_eq_true, if_false, Option.isSome_none, hfirst, hsecond,
      Option.bind_some, ne_eq, not_true_eq_false, hend, Option.map_some]
    rfl

theorem found_data {buf : List Byte} (hsize : buf.length < sizeMax) : Found (.data buf) := by
  intro depth w rest expected type hw hexp htype
  rw [potExtern]
  by_cases hbuf : buf = []
  · subst hbuf
    refine ⟨_, findTag_emptyTag hw depth (by decide) hexp htype, rfl, ?_⟩
    intro stack
    rw [if_neg (by decide), byTagOn_of_internalizer (.finished none
      ⟨'\n' :: rest, "data".toList, none, true, .start⟩) rfl]
    exact resumeOn_none _ _
  · have hreadable : (Obj.data buf).readable = true := by simpa [Obj.readable] using hbuf
    rw [if_neg (by simpa using hbuf), List.append_assoc, List.append_assoc]
    refine ⟨_, findTag_startTag hw depth (by decide) hexp htype, rfl, ?_⟩
    refine .of_finished hreadable ⟨'\n' :: rest, "data".toList, none, false, .end_⟩ ?_ rfl
    have hend : findTag (endTag "data".toList ++ rest) (some "data".toList) .end_ = some _ :=
      findTag_expected_end (by decide)
    have hdecode : ∀ targsize : Option Nat, room targsize buf.length = true →
        decode targsize (encode buf ++ (endTag "data".toList ++ rest)) =
          some (buf, endTag "data".toList ++ rest) := by
      intro targsize hroom
      rw [endTag_append]
      exact decode_encode targsize buf _ hroom
    have hfirst := hdecode none rfl
    have hsecond := hdecode (some (buf.length + 1)) (by simp [room])
    have hclamp : clampSize buf.length = buf.length := if_neg (by omega)
    show some (Outcome.leaf _ (dataInternalize _)) = _
    simp only [dataInternalize, Bool.false_eq_true, if_false, dataSize, hfirst, Option.map_some,
      Option.bind_some, hclamp, hsecond, ne_eq, not_true_eq_false, hend]
    rfl

/-! ### Containers -/

theorem arrayInternalizeBody_start {ctx ctx₁ : Ctx} (acc : List Obj)
    (h : findTag ctx.cp none .either = some ctx₁) (hstart : ctx₁.tagType = .start) :
    arrayInternalizeBody acc ctx = .child (.array acc) ctx₁ := by
  rw [arrayInternalizeBody, h]
  exact if_neg fun hboth => by rw [hstart] at hboth; exact absurd hboth.2 (by simp)

theorem arrayInternalizeBody_end {ctx ctx₁ : Ctx} (acc : List Obj)
    (h : findTag ctx.cp none .either = some ctx₁) (hname : ctx₁.tagname = "array".toList)
    (hend : ctx₁.tagType = .end_) :
    arrayInternalizeBody acc ctx = .finished (some (.array acc)) ctx₁ := by
  rw [arrayInternalizeBody, h]
  exact if_pos ⟨hname, hend⟩

/-- What has been read of an array goes on with its remaining elements, to the end tag. -/
theorem resumeOn_elems {elems : List Obj} (h : ∀ o ∈ elems, Found o) (depth : Nat) (rest : Str)
    (stack : List Frame) (acc : List Obj) (ctx : Ctx)
    (hcp : ctx.cp = '\n' :: (externElems (depth + 1) elems ++
      (tabs depth ++ (endTag "array".toList ++ rest)))) :
    if readableElems elems then
      ∃ ctx', ctx'.cp = '\n' :: rest ∧
        resumeOn stack (arrayInternalizeBody acc ctx) =
          resumeOn stack (.finished (some (.array (acc ++ normElems elems))) ctx')
    else (resumeOn stack (arrayInternalizeBody acc ctx)).1 = none := by
  induction elems generalizing acc ctx with
  | nil =>
    have hend : findTag ('\n' :: (tabs depth ++ (endTag "array".toList ++ rest))) none .either =
        some _ := findTag_container_end depth (by decide)
    refine (if_pos rfl).mpr ⟨⟨'\n' :: rest, "array".toList, none, false, .end_⟩, rfl, ?_⟩
    rw [arrayInternalizeBody_end acc (hcp ▸ hend) rfl rfl, normElems, List.append_nil]
  | cons o elems ih =>
    rw [externElems, List.append_assoc] at hcp
    obtain ⟨ctx₁, htag, hstart, hreads⟩ := h o List.mem_cons_self (depth + 1) ['\n'] _ none .either
      (blank_newline_tabs 0) rfl (by simp)
    rw [arrayInternalizeBody_start acc (hcp ▸ htag) hstart, resumeOn_child]
    have hread := hreads (.array acc :: stack)
    rw [readableElems]
    cases ho : o.readable with
    | false =>
      rw [ho] at hread
      exact hread
    | true =>
      rw [ho] at hread
      obtain ⟨ctx₂, hcp₂, hrun⟩ := hread
      rw [hrun, resumeOn_cons]
      have hrest := ih (fun o ho => h o (List.mem_cons_of_mem _ ho)) (acc ++ [o.norm]) ctx₂ hcp₂
      rw [List.append_assoc, List.singleton_append] at hrest
      exact hrest

theorem found_array {elems : List Obj} (h : ∀ o ∈ elems, Found o) : Found (.array elems) := by
  intro depth w rest expected type hw hexp htype
  rw [potExtern]
  by_cases helems : elems = []
  · subst helems
    refine ⟨_, findTag_emptyTag hw depth (by decide) hexp htype, rfl, ?_⟩
    exact .of_finished rfl ⟨'\n' :: rest, "array".toList, none, true, .start⟩ rfl rfl
  · rw [if_neg (by simpa using helems), List.append_assoc, List.cons_append, List.append_assoc,
      List.append_assoc]
    refine ⟨_, findTag_startTag hw depth (by decide) hexp htype, rfl, ?_⟩
    intro stack
    have hread := resumeOn_elems h depth rest stack []
      ⟨_, "array".toList, none, false, .start⟩ rfl
    rw [byTagOn_of_internalizer (arrayInternalizeBody [] _) rfl]
    exact hread

theorem dictionaryInternalizeBody_end {ctx ctx₁ : Ctx} (acc : List (Str × Obj))
    (h : findTag ctx.cp none .either = some ctx₁) (hname : ctx₁.tagname = "dict".toList)
    (hend : ctx₁.tagType = .end_) :
    dictionaryInternalizeBody acc ctx = .finished (some (.dict acc)) ctx₁ := by
  rw [dictionaryInternalizeBody, h]
  exact if_pos ⟨hname, hend⟩

/-- A key, and the tag of its value. -/
theorem dictionaryInternalizeBody_key {ctx ctx₁ : Ctx} (acc : List (Str × Obj)) {key : Str}
    (hkey : key.length ≤ maxkey) (depth : Nat) {text : Str}
    (hcp : ctx.cp = '\n' :: (startTag depth "key".toList ++ (encodedCstring key ++
      (endTag "key".toList ++ text))))
    (h : findTag ('\n' :: text) none .start = some ctx₁) :
    dictionaryInternalizeBody acc ctx = .child (.dict acc key) ctx₁ := by
  have hstart : findTag (['\n'] ++ (startTag depth "key".toList ++ (encodedCstring key ++
      (endTag "key".toList ++ text)))) none .either = some _ :=
    findTag_startTag (blank_newline_tabs 0) depth (by decide) rfl (by simp)
  have hend : findTag (endTag "key".toList ++ text) (some "key".toList) .end_ = some _ :=
    findTag_expected_end (by decide)
  have hdecode : decodeString (some maxkey) 0 (encodedCstring key ++ (endTag "key".toList ++ text)) =
      some (key, endTag "key".toList ++ text) := by
    rw [endTag_append]
    refine decodeString_encoded (fun i hi => ?_) _
    simp only [room, Option.all_some, decide_eq_true_eq]
    omega
  rw [List.singleton_append] at hstart
  rw [dictionaryInternalizeBody, hcp, hstart]
  simp only [keyInternalize, hdecode, Option.bind_some, hend, h, Option.map_some]
  rfl

/-- What has been read of a dictionary goes on with its remaining entries: their keys are
above those that are there, so that each goes to the end. -/
theorem resumeOn_entries {entries : List (Str × Obj)} (h : ∀ e ∈ entries, Found e.2)
    (hkeys : ∀ e ∈ entries, e.1.length ≤ maxkey) (hsorted : SortedMap.Sorted strcmp entries)
    (depth : Nat) (rest : Str) (stack : List Frame) (acc : List (Str × Obj))
    (hacc : ∀ a ∈ acc, ∀ e ∈ entries, strcmp a.1 e.1 = .lt) (ctx : Ctx)
    (hcp : ctx.cp = '\n' :: (externEntries (depth + 1) entries ++
      (tabs depth ++ (endTag "dict".toList ++ rest)))) :
    if readableEntries entries then
      ∃ ctx', ctx'.cp = '\n' :: rest ∧
        resumeOn stack (dictionaryInternalizeBody acc ctx) =
          resumeOn stack (.finished (some (.dict (acc ++ normEntries entries))) ctx')
    else (resumeOn stack (dictionaryInternalizeBody acc ctx)).1 = none := by
  induction entries generalizing acc ctx with
  | nil =>
    have hend : findTag ('\n' :: (tabs depth ++ (endTag "dict".toList ++ rest))) none .either =
        some _ := findTag_container_end depth (by decide)
    refine (if_pos rfl).mpr ⟨⟨'\n' :: rest, "dict".toList, none, false, .end_⟩, rfl, ?_⟩
    rw [dictionaryInternalizeBody_end acc (hcp ▸ hend) rfl rfl, normEntries, List.append_nil]
  | cons e entries ih =>
    obtain ⟨key, o⟩ := e
    obtain ⟨hlast, hsorted⟩ := List.pairwise_cons.mp hsorted
    rw [externEntries, List.append_assoc, List.append_assoc, List.append_assoc,
      List.append_assoc] at hcp
    obtain ⟨ctx₁, htag, -, hreads⟩ := h (key, o) List.mem_cons_self (depth + 1) ['\n'] _ none .start
      (blank_newline_tabs 0) rfl (by simp)
    have hkey : key.length ≤ maxkey := hkeys (key, o) List.mem_cons_self
    rw [dictionaryInternalizeBody_key acc hkey (depth + 1) hcp htag, resumeOn_child]
    have hread := hreads (.dict acc key :: stack)
    rw [readableEntries]
    -- an entry that cannot be read ends the whole reading
    cases ho : o.readable with
    | false =>
      rw [ho] at hread
      exact hread
    | true =>
      rw [ho] at hread
      obtain ⟨ctx₂, hcp₂, hrun⟩ := hread
      -- the keys come in order, so each is put behind the others
      have hset : setContents acc key o.norm = some (acc ++ [(key, o.norm)]) := by
        rw [setContents, if_pos hkey,
          SortedMap.insert_last fun a ha => hacc a ha (key, o) List.mem_cons_self]
      have hresume : (Frame.dict acc key).resume (some o.norm) ctx₂ =
          dictionaryInternalizeBody (acc ++ [(key, o.norm)]) ctx₂ := by
        simp only [Frame.resume, hset]
      rw [hrun, resumeOn_cons, hresume]
      have hrest := ih (fun e he => h e (List.mem_cons_of_mem _ he))
        (fun e he => hkeys e (List.mem_cons_of_mem _ he)) hsorted (acc ++ [(key, o.norm)])
        (by
          intro a ha e he
          rcases List.mem_append.mp ha with ha | ha
          · exact hacc a ha e (List.mem_cons_of_mem _ he)
          · rw [List.mem_singleton.mp ha]
            exact hlast e he)
        ctx₂ hcp₂
      rw [List.append_assoc, List.singleton_append] at hrest
      exact hrest

theorem found_dict {entries : List (Str × Obj)} (h : ∀ e ∈ entries, Found e.2)
    (hkeys : ∀ e ∈ entries, e.1.length ≤ maxkey) (hsorted : SortedMap.Sorted strcmp entries) :
    Found (.dict entries) := by
  intro depth w rest expected type hw hexp htype
  rw [potExtern]
  by_cases hentries : entries = []
  · subst hentries
    refine ⟨_, findTag_emptyTag hw depth (by decide) hexp htype, rfl, ?_⟩
    exact .of_finished rfl ⟨'\n' :: rest, "dict".toList, none, true, .start⟩ rfl rfl
  · rw [if_neg (by simpa using hentries), List.append_assoc, List.cons_append, List.append_assoc,
      List.append_assoc]
    refine ⟨_, findTag_startTag hw depth (by decide) hexp htype, rfl, ?_⟩
    intro stack
    have hread := resumeOn_entries h hkeys hsorted depth rest stack [] (fun a ha => by cases ha)
      ⟨_, "dict".toList, none, false, .start⟩ rfl
    rw [byTagOn_of_internalizer (dictionaryInternalizeBody [] _) rfl]
    exact hread

/-- **Every object is found and read**, by induction on how it is well formed. -/
theorem found {o : Obj} (h : o.WF) : Found o := by
  induction h with
  | bool => exact found_bool _
  | number => exact found_number _
  | string => exact found_string _
  | data hsize => exact found_data hsize
  | array _ ih => exact found_array ih
  | dict hsorted hkeys _ ih => exact found_dict ih hkeys hsorted

/-! ### Documents -/

/-- A piece of the preamble is skipped. -/
theorem skipPreamble_skip {p : Str} (rest : Str)
    (h : "?xml ".toList <+: p ∨ "!DOCTYPE plist".toList <+: p) (hp : p.all (· ≠ '>') = true) :
    skipPreamble ('<' :: (p ++ '>' :: '\n' :: rest)) = skipPreamble ('\n' :: rest) := by
  have hprefix : ("?xml ".toList.isPrefixOf (p ++ '>' :: '\n' :: rest) ||
      "!DOCTYPE plist".toList.isPrefixOf (p ++ '>' :: '\n' :: rest)) = true := by
    rw [Bool.or_eq_true, List.isPrefixOf_iff_prefix, List.isPrefixOf_iff_prefix]
    exact h.imp (fun h => h.trans (List.prefix_append _ _)) fun h => h.trans (List.prefix_append _ _)
  have hdrop : (p ++ '>' :: '\n' :: rest).dropWhile (· ≠ '>') = '>' :: '\n' :: rest := by
    rw [List.all_eq_true] at hp
    rw [List.dropWhile_append_of_pos hp]
    rfl
  rw [skipPreamble]
  split
  · rename_i heq
    obtain rfl := (List.cons.inj heq).2
    rw [if_pos hprefix]
    split
    · rename_i heq'
      rw [hdrop] at heq'
      obtain rfl := (List.cons.inj heq').2
      rfl
    · rename_i heq'
      rw [hdrop] at heq'
      cases heq'
  · rename_i heq
    exact absurd rfl (heq _)

theorem skipPreamble_newline (rest : Str) : skipPreamble ('\n' :: rest) = skipPreamble rest := by
  rw [skipPreamble, skipPreamble]
  rfl

/-- The preamble ends in front of another tag. -/
theorem skipPreamble_tag {c : Char} (rest : Str) (hc : c ≠ '?') (hc' : c ≠ '!') (hc'' : c ≠ '<') :
    skipPreamble ('\n' :: '<' :: c :: rest) = some ('<' :: c :: rest) := by
  have hne : ∀ {d : Char} {t : Str}, c ≠ d → (d :: t).isPrefixOf (c :: rest) = false := by
    intro d t hd
    rw [Bool.eq_false_iff]
    intro h
    obtain ⟨u, hu⟩ := List.isPrefixOf_iff_prefix.mp h
    exact hd (List.cons.inj hu).1.symm
  rw [skipPreamble]
  split
  · rename_i heq
    obtain rfl := (List.cons.inj heq).2
    have h₁ : "?xml ".toList.isPrefixOf (c :: rest) = false := hne hc
    have h₂ : "!DOCTYPE plist".toList.isPrefixOf (c :: rest) = false := hne hc'
    have h₃ : "<!--".toList.isPrefixOf (c :: rest) = false := hne hc''
    rw [if_neg (by rw [h₁, h₂]; simp), if_neg (by rw [h₃]; simp)]
  · rename_i heq
    exact absurd rfl (heq _)

/-- The opening tag of a document, behind the header. -/
theorem plist_opened (rest : Str) :
    ∃ cp, skipPreamble (plistXmlHeader ++ (startTag 0 "plist version=\"1.0\"".toList ++ rest)) =
        some cp ∧
      findTag cp (some "plist".toList) .start =
        some ⟨rest, "plist".toList, some ("version".toList, "1.0".toList), false, .start⟩ := by
  have htext : plistXmlHeader ++ (startTag 0 "plist version=\"1.0\"".toList ++ rest) =
      '<' :: (xmlDeclaration ++ '>' :: '\n' :: '<' :: (plistDoctype ++ '>' :: '\n' ::
        '<' :: 'p' :: ("list version=\"1.0\">".toList ++ rest))) := by
    simp [plistXmlHeader, startTag, tabs]
  refine ⟨'<' :: 'p' :: ("list version=\"1.0\">".toList ++ rest), ?_, ?_⟩
  · rw [htext, skipPreamble_skip _ (Or.inl (by decide +kernel)) (by decide +kernel),
      skipPreamble_newline, skipPreamble_skip _ (Or.inr (by decide +kernel)) (by decide +kernel)]
    exact skipPreamble_tag _ (by decide) (by decide) (by decide)
  · have hblank : Blank [] := fun _ h => by cases h
    refine Eq.trans (findTag_open ('p' :: ("list version=\"1.0\">".toList ++ rest)) hblank (by simp)
      (by simp)) ?_
    rfl

/-- **A document is read back**: its object, unless there is empty data in it. -/
theorem genericInternalize_externalize {o : Obj} (h : o.WF) :
    genericInternalize (externalize o) o.tag = if o.readable then some o.norm else none := by
  obtain ⟨cp, hskip, hplist⟩ := plist_opened ('\n' :: (potExtern 0 o ++ endTag "plist".toList))
  obtain ⟨ctx, htag, -, hreads⟩ := found h 0 ['\n'] (endTag "plist".toList) (some o.tag) .start
    (blank_newline_tabs 0) (by simp) (by simp)
  rw [List.singleton_append] at htag
  have hread := hreads []
  rw [genericInternalize, externalize, hskip]
  simp only [Option.bind_some, hplist, Bool.false_eq_true, if_false, htag]
  rw [if_neg (by decide)]
  cases ho : o.readable with
  | false =>
    rw [ho] at hread
    have hnone : (byTag ctx).1 = none := hread
    rcases hbytag : byTag ctx with ⟨_ | obj, ctx'⟩
    · rfl
    · rw [hbytag] at hnone
      cases hnone
  | true =>
    rw [ho] at hread
    obtain ⟨ctx', hcp, hrun⟩ := hread
    have hbytag : byTag ctx = (some o.norm, ctx') := hrun
    have hend : findTag (['\n'] ++ (endTag "plist".toList ++ [])) (some "plist".toList) .end_ =
        some _ := findTag_endTag (blank_newline_tabs 0) (by decide) (by simp) (by simp)
    rw [List.singleton_append, List.append_nil, ← hcp] at hend
    rw [hbytag]
    simp only [hend, Option.map_some, if_true]

end Flappy.Proplib
