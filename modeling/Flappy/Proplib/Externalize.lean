/-
Property-list objects and their external form (`lib/portableproplib`: `prop_object.c`
and the externalizers of the types).

An object is a value, an array of objects or a dictionary.  It is written as an
element, indented by its depth; a value that is empty is written as an empty element.

* `WF` — the dictionaries in an object have their keys in order;
* `norm`, `readable` — what a reader makes of an object, and whether it can read it.
-/
import Flappy.Lib.SortedMap
import Flappy.Lib.Strncmp
import Flappy.Lib.Strto
import Flappy.Proplib.Data
import Flappy.Proplib.Dictionary

open CStr

namespace Flappy.Proplib

/-! ### Objects -/

/-- `struct _prop_number_value`. -/
inductive Number where
  | signed (v : Int) (range : -(llongMax + 1 : Nat) ≤ v ∧ v ≤ llongMax)
  | unsigned (v : Nat) (range : v ≤ ullongMax)
deriving DecidableEq, Repr

/-- `prop_object_t`; a dictionary is given by its contents. -/
inductive Obj where
  | bool (val : Bool)
  | number (pnv : Number)
  | string (str : Str)
  | data (buf : List Byte)
  | array (elems : List Obj)
  | dict (entries : List (Str × Obj))

/-- `SIZE_MAX` and `ULONG_MAX`. -/
def sizeMax : Nat := ullongMax

/-- Well formed: the dictionaries are what the operations on them leave, and there is memory
for the data and one byte more. -/
inductive Obj.WF : Obj → Prop
  | bool {val} : WF (.bool val)
  | number {pnv} : WF (.number pnv)
  | string {str} : WF (.string str)
  | data {buf} : buf.length < sizeMax → WF (.data buf)
  | array {elems} : (∀ o ∈ elems, WF o) → WF (.array elems)
  | dict {entries} : SortedMap.Sorted strcmp entries → (∀ e ∈ entries, e.1.length ≤ maxkey) →
      (∀ e ∈ entries, WF e.2) → WF (.dict entries)

/-- A number as it is read back: what fits is signed. -/
def Number.norm : Number → Number
  | .signed v range => .signed v range
  | .unsigned v range =>
    if h : v ≤ llongMax then .signed v (by omega) else .unsigned v range

mutual

/-- An object as it is read back. -/
def Obj.norm : Obj → Obj
  | .number pnv => .number pnv.norm
  | .array elems => .array (normElems elems)
  | .dict entries => .dict (normEntries entries)
  | .bool val => .bool val
  | .string str => .string str
  | .data buf => .data buf

def normElems : List Obj → List Obj
  | [] => []
  | o :: elems => o.norm :: normElems elems

def normEntries : List (Str × Obj) → List (Str × Obj)
  | [] => []
  | (key, o) :: entries => (key, o.norm) :: normEntries entries

end

mutual

/-- No data in the object is empty. -/
def Obj.readable : Obj → Bool
  | .data buf => !buf.isEmpty
  | .array elems => readableElems elems
  | .dict entries => readableEntries entries
  | .bool _ => true
  | .number _ => true
  | .string _ => true

def readableElems : List Obj → Bool
  | [] => true
  | o :: elems => o.readable && readableElems elems

def readableEntries : List (Str × Obj) → Bool
  | [] => true
  | (_, o) :: entries => o.readable && readableEntries entries

end

/-! ### Text -/

/-- The indentation of an element. -/
def tabs (depth : Nat) : Str := List.replicate depth '\t'

/-- `_prop_object_externalize_start_tag`. -/
def startTag (depth : Nat) (tag : Str) : Str := tabs depth ++ '<' :: (tag ++ ['>'])

/-- `_prop_object_externalize_end_tag`. -/
def endTag (tag : Str) : Str := '<' :: '/' :: (tag ++ ['>', '\n'])

/-- `_prop_object_externalize_empty_tag`. -/
def emptyTag (depth : Nat) (tag : Str) : Str := tabs depth ++ '<' :: (tag ++ ['/', '>', '\n'])

/-- A turn of `_prop_object_externalize_append_encoded_cstring`. -/
def encodeChar (c : Char) : Str :=
  if c = '<' then "&lt;".toList
  else if c = '>' then "&gt;".toList
  else if c = '&' then "&amp;".toList
  else [c]

/-- `_prop_object_externalize_append_encoded_cstring`. -/
def encodedCstring (s : Str) : Str := s.flatMap encodeChar

/-- `_prop_number_externalize`, between the tags. -/
def Number.text : Number → Str
  | .signed v _ => decimal (decide (v < 0)) v.natAbs
  | .unsigned v _ => decimal false v

mutual

/-- `pot_extern`, by the type of the object. -/
def potExtern (depth : Nat) : Obj → Str
  | .bool val => emptyTag depth (if val then "true".toList else "false".toList)
  | .number pnv => startTag depth "integer".toList ++ (pnv.text ++ endTag "integer".toList)
  | .string str =>
    if str.isEmpty then emptyTag depth "string".toList
    else startTag depth "string".toList ++ (encodedCstring str ++ endTag "string".toList)
  | .data buf =>
    if buf.isEmpty then emptyTag depth "data".toList
    else startTag depth "data".toList ++ (encode buf ++ endTag "data".toList)
  | .array elems =>
    if elems.isEmpty then emptyTag depth "array".toList
    else
      startTag depth "array".toList ++ '\n' :: (externElems (depth + 1) elems ++
        (tabs depth ++ endTag "array".toList))
  | .dict entries =>
    if entries.isEmpty then emptyTag depth "dict".toList
    else
      startTag depth "dict".toList ++ '\n' :: (externEntries (depth + 1) entries ++
        (tabs depth ++ endTag "dict".toList))

/-- The loop of `_prop_array_externalize`. -/
def externElems (depth : Nat) : List Obj → Str
  | [] => []
  | o :: elems => potExtern depth o ++ externElems depth elems

/-- The loop of `_prop_dictionary_externalize`. -/
def externEntries (depth : Nat) : List (Str × Obj) → Str
  | [] => []
  | (key, o) :: entries =>
    startTag depth "key".toList ++ (encodedCstring key ++ (endTag "key".toList ++
      (potExtern depth o ++ externEntries depth entries)))

end

/-- The first line of `_plist_xml_header`, without the brackets. -/
def xmlDeclaration : Str := "?xml version=\"1.0\" encoding=\"UTF-8\"?".toList

/-- The second line, without the brackets. -/
def plistDoctype : Str :=
  "!DOCTYPE plist PUBLIC \"-//Apple Computer//DTD PLIST 1.0//EN\" ".toList ++
    "\"http://www.apple.com/DTDs/PropertyList-1.0.dtd\"".toList

/-- `_plist_xml_header`. -/
def plistXmlHeader : Str :=
  '<' :: (xmlDeclaration ++ '>' :: '\n' :: '<' :: (plistDoctype ++ ['>', '\n']))

/-- `prop_dictionary_externalize` and `prop_array_externalize`: header, object and footer. -/
def externalize (o : Obj) : Str :=
  plistXmlHeader ++ (startTag 0 "plist version=\"1.0\"".toList ++
    '\n' :: (potExtern 0 o ++ endTag "plist".toList))

end Flappy.Proplib
