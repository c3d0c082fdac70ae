/-
Matching in an array of strings, and removing from an array
(`match_string_in_array` in `lib/plist_match.c`, `remove_obj_from_array` in
`lib/plist_remove.c`).

In each file one loop serves five modes.  Where a mode looks for a package name
in strings, an element without one ends the loop; where it looks for a property
of dictionaries, an element without one is compared by the text read before.

* `matchStringInArray_eq`, `removeLoop_string`, `removeLoop_dict` — the loops are searches;
* `matchStringInArray_pkgname` and its like — the functions of the library are their modes;
* `arrays_iff` — the arrays on which the order does not matter and the first match goes;
* `pkgname_hidden` — a bare name before the pkgver that is asked for.
-/
import Flappy.Lib.Seek
import Flappy.Plist

open CStr Seek

namespace Flappy.Arrays

/-! ### Matching -/

/-- The modes of `match_string_in_array`. -/
inductive MatchMode where
  /-- Match by string. -/
  | string
  /-- Match by pkgname against pkgver. -/
  | pkgname
  /-- Match by pkgver against pkgname. -/
  | pkgver
  /-- Match pkgpattern against pkgdep. -/
  | pkgpattern
  /-- Match pkgdep against pkgpattern. -/
  | pkgdep
deriving DecidableEq, Repr

/-- A turn of `match_string_in_array`. -/
def MatchMode.turn (str obj : Str) : MatchMode → Turn
  | .string => if obj = str then .found else .next
  | .pkgname =>
    match pkgName obj with
    | none => .stop
    | some n => if n = str then .found else .next
  | .pkgver =>
    match pkgName str with
    | none => .stop
    | some n => if n = obj then .found else .next
  | .pkgpattern => if pkgpatternMatch obj str then .found else .next
  | .pkgdep => if pkgpatternMatch str obj then .found else .next

/-- `match_string_in_array`. -/
def matchStringInArray (array : List Str) (str : Str) (mode : MatchMode) : Bool :=
  match array with
  | [] => false
  | obj :: array =>
    match mode.turn str obj with
    | .found => true
    | .stop => false
    | .next => matchStringInArray array str mode

/-- `flappy_match_pkgver_in_array`. -/
def matchPkgverInArray (array : List Str) (pkgver : Str) : Bool :=
  matchStringInArray array pkgver .pkgver

/-- The rule of a mode; names are those that fit a buffer of `FLAPPY_NAME_SIZE`. -/
def MatchMode.Matches (str obj : Str) : MatchMode → Prop
  | .string => obj = str
  | .pkgname => pkgName obj = some str
  | .pkgver => pkgName str = some obj
  | .pkgpattern => pkgpatternMatch obj str = true
  | .pkgdep => pkgpatternMatch str obj = true

/-! ### Removing -/

/-- The loop of `remove_obj_from_array`, where `curname` is what the pointer of that name was
last set to: the index of the element found, and no result for a read before that. -/
def removeLoop {α : Type} (turn : Option Str → α → Option (Turn × Option Str)) :
    Option Str → List α → ℕ → Option (Option ℕ)
  | _, [], _ => some none
  | curname, obj :: array, idx =>
    match turn curname obj with
    | none => none
    | some (.found, _) => some (some idx)
    | some (.stop, _) => some none
    | some (.next, curname) => removeLoop turn curname array (idx + 1)

/-- `flappy_array_remove`: an immutable array stays as it is. -/
def arrayRemove {α : Type} (immutable : Bool) (array : List α) (idx : ℕ) : List α :=
  if immutable then array else array.eraseIdx idx

/-- The end of `remove_obj_from_array`: the array behind the call, and the result. -/
def removeFound {α : Type} (immutable : Bool) (array : List α) :
    Option ℕ → List α × Except Errno Unit
  | none => (array, .error .enoent)
  | some idx => (arrayRemove immutable array idx, .ok ())

/-- `remove_obj_from_array`. -/
def removeObjFromArray {α : Type} (turn : Option Str → α → Option (Turn × Option Str))
    (immutable : Bool) (array : List α) : Option (List α × Except Errno Unit) :=
  (removeLoop turn none array 0).map (removeFound immutable array)

/-- The modes of `remove_obj_from_array` for arrays of strings. -/
inductive StringMode where
  /-- Exact match. -/
  | string
  /-- Match by pkgname. -/
  | pkgname
deriving DecidableEq, Repr

/-- A turn on a string. -/
def StringMode.turn (str obj : Str) : StringMode → Turn
  | .string => if obj = str then .found else .next
  | .pkgname =>
    match pkgName obj with
    | none => .stop
    | some curpkgname => if curpkgname = str then .found else .next

/-- The modes of `remove_obj_from_array` for arrays of dictionaries. -/
inductive DictMode where
  /-- Match by pkgname. -/
  | name
  /-- Match by pkgver. -/
  | pkgver
  /-- Match by pattern. -/
  | pattern
deriving DecidableEq, Repr

/-- The property that is read. -/
def DictMode.key : DictMode → Str
  | .name => "pkgname".toList
  | .pkgver => "pkgver".toList
  | .pattern => "pkgver".toList

/-- A turn on a dictionary with this text in `curname`. -/
def DictMode.turn (str curname : Str) : DictMode → Turn
  | .name => if curname = str then .found else .next
  | .pkgver => if curname = str then .found else .next
  | .pattern => if pkgpatternMatch curname str then .found else .next

section

variable {δ : Type} (cstring : Str → δ → Option Str)

/-- The turns on strings leave `curname` alone. -/
def StringMode.step (mode : StringMode) (str : Str) (curname : Option Str) (obj : Str) :
    Option (Turn × Option Str) :=
  some (mode.turn str obj, curname)

/-- `flappy_dictionary_get_cstring_nocopy` sets `curname` only where the property is there. -/
def DictMode.step (mode : DictMode) (str : Str) (curname : Option Str) (obj : δ) :
    Option (Turn × Option Str) :=
  ((cstring mode.key obj).or curname).map fun curname => (mode.turn str curname, some curname)

/-- `flappy_remove_string_from_array`. -/
def removeStringFromArray (immutable : Bool) (array : List Str) (str : Str) :=
  removeObjFromArray (StringMode.string.step str) immutable array

/-- `flappy_remove_pkgname_from_array`. -/
def removePkgnameFromArray (immutable : Bool) (array : List Str) (str : Str) :=
  removeObjFromArray (StringMode.pkgname.step str) immutable array

/-- `flappy_remove_pkg_from_array_by_name`. -/
def removePkgFromArrayByName (immutable : Bool) (array : List δ) (str : Str) :=
  removeObjFromArray (DictMode.name.step cstring str) immutable array

/-- `flappy_remove_pkg_from_array_by_pkgver`. -/
def removePkgFromArrayByPkgver (immutable : Bool) (array : List δ) (str : Str) :=
  removeObjFromArray (DictMode.pkgver.step cstring str) immutable array

/-- `flappy_remove_pkg_from_array_by_pattern`. -/
def removePkgFromArrayByPattern (immutable : Bool) (array : List δ) (str : Str) :=
  removeObjFromArray (DictMode.pattern.step cstring str) immutable array

end

/-! ### The loops as searches -/

theorem matchStringInArray_eq (array : List Str) (str : Str) (mode : MatchMode) :
    matchStringInArray array str mode = (seek (mode.turn str) array).isSome := by
  induction array with
  | nil => rfl
  | cons obj array ih =>
    rw [matchStringInArray, seek]
    rcases mode.turn str obj with _ | _ | _
    · rfl
    · rfl
    · show matchStringInArray array str mode = ((seek (mode.turn str) array).map (· + 1)).isSome
      rw [ih, Option.isSome_map]

theorem MatchMode.turn_found_iff (mode : MatchMode) (str obj : Str) :
    mode.turn str obj = .found ↔ mode.Matches str obj := by
  rcases mode with _ | _ | _ | _ | _
  · exact ite_found_iff _
  · rw [turn, Matches]
    rcases pkgName obj with _ | n
    · simp
    · exact (ite_found_iff _).trans (by simp)
  · rw [turn, Matches]
    rcases pkgName str with _ | n
    · simp
    · exact (ite_found_iff _).trans (by simp)
  · exact ite_found_iff _
  · exact ite_found_iff _

/-- The rule of a mode for strings. -/
def StringMode.Matches (str obj : Str) : StringMode → Prop
  | .string => obj = str
  | .pkgname => pkgName obj = some str

/-- The mode for strings of the other file, turn by turn. -/
def StringMode.matchMode : StringMode → MatchMode
  | .string => .string
  | .pkgname => .pkgname

theorem StringMode.turn_eq (mode : StringMode) (str obj : Str) :
    mode.turn str obj = mode.matchMode.turn str obj := by
  rcases mode with _ | _ <;> rfl

theorem StringMode.turn_found_iff (mode : StringMode) (str obj : Str) :
    mode.turn str obj = .found ↔ mode.Matches str obj := by
  rw [turn_eq, MatchMode.turn_found_iff]
  rcases mode with _ | _ <;> exact Iff.rfl

theorem removeLoop_cons {α : Type} {turn : Option Str → α → Option (Turn × Option Str)}
    {curname curname' : Option Str} {obj : α} {t : Turn} (array : List α) (idx : ℕ) :
    turn curname obj = some (t, curname') →
    removeLoop turn curname (obj :: array) idx =
      match t with
      | .found => some (some idx)
      | .stop => some none
      | .next => removeLoop turn curname' array (idx + 1) := by
  intro h
  rw [removeLoop, h]
  rcases t with _ | _ | _ <;> rfl

/-- The index counts on behind an element that is passed. -/
theorem map_seek_succ (found : Option ℕ) (idx : ℕ) :
    found.map (· + (idx + 1)) = (found.map (· + 1)).map (· + idx) := by
  rcases found with _ | k
  · rfl
  · show some (k + (idx + 1)) = some (k + 1 + idx)
    rw [Nat.add_assoc, Nat.add_comm 1 idx]

theorem removeLoop_string (mode : StringMode) (str : Str) (curname : Option Str) (array : List Str)
    (idx : ℕ) :
    removeLoop (mode.step str) curname array idx =
      some ((seek (mode.turn str) array).map (· + idx)) := by
  induction array generalizing idx with
  | nil => rfl
  | cons obj array ih =>
    have hstep : mode.step str curname obj = some (mode.turn str obj, curname) := rfl
    rw [removeLoop_cons array idx hstep, seek]
    rcases mode.turn str obj with _ | _ | _
    · show some (some idx) = some (some (0 + idx))
      rw [Nat.zero_add]
    · rfl
    · show removeLoop (mode.step str) curname array (idx + 1) = _
      rw [ih, map_seek_succ]

section

variable {δ : Type} (cstring : Str → δ → Option Str)

/-- The rule of a mode for dictionaries: the property is there and matches. -/
def DictMode.Matches (mode : DictMode) (str : Str) (obj : δ) : Prop :=
  ∃ curname, cstring mode.key obj = some curname ∧
    match mode with
    | .name => curname = str
    | .pkgver => curname = str
    | .pattern => pkgpatternMatch curname str = true

/-- A turn by the dictionary alone. -/
def DictMode.look (mode : DictMode) (str : Str) (obj : δ) : Turn :=
  match cstring mode.key obj with
  | none => .next
  | some curname => mode.turn str curname

variable {cstring}

theorem DictMode.turn_ne_stop (mode : DictMode) (str curname : Str) :
    mode.turn str curname ≠ .stop := by
  rcases mode with _ | _ | _
  · exact ite_ne_stop _
  · exact ite_ne_stop _
  · exact ite_ne_stop _

theorem DictMode.look_found_iff (mode : DictMode) (str : Str) (obj : δ) :
    mode.look cstring str obj = .found ↔ mode.Matches cstring str obj := by
  rw [look, Matches]
  rcases cstring mode.key obj with _ | curname
  · simp
  · have hturn : mode.turn str curname = .found ↔
        match mode with
        | .name => curname = str
        | .pkgver => curname = str
        | .pattern => pkgpatternMatch curname str = true := by
      rcases mode with _ | _ | _
      · exact ite_found_iff _
      · exact ite_found_iff _
      · exact ite_found_iff _
    simp only [hturn, Option.some.injEq, exists_eq_left']

theorem DictMode.patient (mode : DictMode) (str : Str) (array : List δ) :
    Patient (mode.look cstring str) array := by
  refine Or.inl ?_
  intro obj _
  show mode.look cstring str obj ≠ .stop
  rw [look]
  rcases cstring mode.key obj with _ | curname
  · intro hstop
    cases hstop
  · exact mode.turn_ne_stop str curname

/-- What is left in `curname` did not match before, and does not match again. -/
theorem removeLoop_dict (mode : DictMode) (str : Str) {curname : Option Str} {array : List δ}
    (idx : ℕ) (h : (∃ n, curname = some n ∧ mode.turn str n = .next) ∨
      ∀ d ∈ array.head?, (cstring mode.key d).isSome = true) :
    removeLoop (mode.step cstring str) curname array idx =
      some ((seek (mode.look cstring str) array).map (· + idx)) := by
  induction array generalizing idx curname with
  | nil => rfl
  | cons obj array ih =>
    obtain ⟨n, hstep, hlook⟩ : ∃ n,
        mode.step cstring str curname obj = some (mode.look cstring str obj, some n) ∧
          mode.look cstring str obj = mode.turn str n := by
      rw [DictMode.step, DictMode.look]
      rcases hread : cstring mode.key obj with _ | n
      · rcases h with ⟨n, rfl, hn⟩ | hhead
        · exact ⟨n, congrArg some (Prod.ext hn rfl), hn.symm⟩
        · have hsome := hhead obj rfl
          rw [hread] at hsome
          cases hsome
      · exact ⟨n, rfl, rfl⟩
    rw [removeLoop_cons array idx hstep, seek]
    rcases hn : mode.turn str n with _ | _ | _
    · rw [hlook, hn]
      show some (some idx) = some (some (0 + idx))
      rw [Nat.zero_add]
    · exact absurd hn (mode.turn_ne_stop str n)
    · rw [hlook, hn]
      show removeLoop (mode.step cstring str) (some n) array (idx + 1) = _
      rw [ih (idx + 1) (Or.inl ⟨n, rfl, hn⟩), map_seek_succ]

/-- Without the property in the first dictionary, `curname` is read before it is set. -/
theorem removeLoop_unset (mode : DictMode) (str : Str) {obj : δ} (h : cstring mode.key obj = none)
    (array : List δ) (idx : ℕ) :
    removeLoop (mode.step cstring str) none (obj :: array) idx = none := by
  rw [removeLoop, DictMode.step, h]
  rfl

end

/-! ### What is taken out -/

/-- The first element of its kind goes; where there is none, the array stays. -/
def RemovesFirst {α : Type} (P : α → Prop) (array : List α) (out : List α × Except Errno Unit) :
    Prop :=
  (∃ pre obj post, array = pre ++ obj :: post ∧ P obj ∧ (∀ x ∈ pre, ¬ P x) ∧
      out = (pre ++ post, .ok ())) ∨
    (∀ x ∈ array, ¬ P x) ∧ out = (array, .error .enoent)

/-- **A search that gives up on nothing takes the first one out**, if anything may go. -/
theorem removeFound_iff {α : Type} {turn : α → Turn} {P : α → Prop}
    (hP : ∀ x, turn x = .found ↔ P x) {array : List α} (h : Patient turn array) (immutable : Bool) :
    RemovesFirst P array (removeFound immutable array (seek turn array)) ↔
      (immutable = true → ∀ x ∈ array, ¬ P x) := by
  have hcases := h.cases
  simp only [ne_eq, hP] at hcases
  rcases hcases with ⟨pre, obj, post, rfl, hseek, hobj, hpre⟩ | ⟨hseek, hnone⟩
  · rw [hseek]
    rcases immutable with _ | _
    · refine iff_of_true (Or.inl ⟨pre, obj, post, rfl, hobj, hpre, ?_⟩) (fun him => by cases him)
      show ((pre ++ obj :: post).eraseIdx pre.length, Except.ok ()) = (pre ++ post, Except.ok ())
      rw [List.eraseIdx_append_of_length_le (Nat.le_refl _), Nat.sub_self]
      rfl
    · constructor
      · rintro (⟨pre', obj', post', hsplit, -, -, hout⟩ | ⟨-, hout⟩)
        · -- nothing is gone, although the result says so
          have hsame : pre ++ obj :: post = pre' ++ post' := congrArg Prod.fst hout
          have hlen := congrArg List.length (hsplit.symm.trans hsame)
          simp only [List.length_append, List.length_cons] at hlen
          omega
        · have hres := congrArg Prod.snd hout
          cases hres
      · intro hno
        exact absurd hobj (hno rfl obj (by simp))
  · rw [hseek]
    exact ⟨fun _ _ => hnone, fun _ => Or.inr ⟨hnone, rfl⟩⟩

theorem RemovesFirst.fst_eq {α : Type} {P : α → Prop} [DecidablePred P] {array : List α}
    {out : List α × Except Errno Unit} (h : RemovesFirst P array out) :
    out.1 = array.eraseP fun x => P x := by
  rcases h with ⟨pre, obj, post, rfl, hobj, hpre, rfl⟩ | ⟨hnone, rfl⟩
  · have hpre' : ∀ x ∈ pre, ¬ decide (P x) = true := fun x hx => by
      rw [decide_eq_true_eq]
      exact hpre x hx
    rw [List.eraseP_append_right _ hpre', List.eraseP_cons, decide_eq_true hobj]
    rfl
  · refine (List.eraseP_of_forall_not fun x hx => ?_).symm
    rw [decide_eq_true_eq]
    exact hnone x hx

theorem removeObjFromArray_string (mode : StringMode) (str : Str) (immutable : Bool)
    (array : List Str) :
    removeObjFromArray (mode.step str) immutable array =
      some (removeFound immutable array (seek (mode.turn str) array)) := by
  rw [removeObjFromArray, removeLoop_string]
  simp

theorem removeObjFromArray_dict {δ : Type} {cstring : Str → δ → Option Str} (mode : DictMode)
    (str : Str) (immutable : Bool) {array : List δ}
    (h : ∀ d ∈ array.head?, (cstring mode.key d).isSome = true) :
    removeObjFromArray (mode.step cstring str) immutable array =
      some (removeFound immutable array (seek (mode.look cstring str) array)) := by
  rw [removeObjFromArray, removeLoop_dict mode str 0 (Or.inr h)]
  simp

/-! ### The arrays on which every mode does its work -/

/-- An array of strings is served: a matcher answers whether some element matches, in every
order, and a remover takes the first one that does. -/
structure StringsOk (immutable : Bool) (array : List Str) (str : Str) : Prop where
  matches_iff : ∀ mode : MatchMode, ∀ array', array'.Perm array →
    (matchStringInArray array' str mode = true ↔ ∃ obj ∈ array, mode.Matches str obj)
  removes : ∀ mode : StringMode, ∃ out,
    removeObjFromArray (mode.step str) immutable array = some out ∧
      RemovesFirst (mode.Matches str) array out

/-- An array of dictionaries is served. -/
def DictsOk {δ : Type} (cstring : Str → δ → Option Str) (immutable : Bool) (array : List δ)
    (str : Str) : Prop :=
  ∀ mode : DictMode, ∃ out,
    removeObjFromArray (mode.step cstring str) immutable array = some out ∧
      RemovesFirst (mode.Matches cstring str) array out

theorem MatchMode.matches_iff_patient (mode : MatchMode) (str : Str) (array : List Str) :
    (∀ array', array'.Perm array →
      (matchStringInArray array' str mode = true ↔ ∃ obj ∈ array, mode.Matches str obj)) ↔
    Patient (mode.turn str) array := by
  rw [patient_iff]
  simp only [matchStringInArray_eq, mode.turn_found_iff]

/-- Only the names in the elements can be missing. -/
theorem MatchMode.patient (mode : MatchMode) (str : Str) (array : List Str)
    (hne : mode ≠ .pkgname) : Patient (mode.turn str) array := by
  rcases mode with _ | _ | _ | _ | _
  · exact Or.inl fun obj _ => ite_ne_stop _
  · exact absurd rfl hne
  · rcases hname : pkgName str with _ | n
    · -- the request has no name, so that there is nothing to find
      refine Or.inr fun obj _ => ?_
      show turn str obj .pkgver ≠ .found
      rw [turn, hname]
      intro h
      cases h
    · refine Or.inl fun obj _ => ?_
      show turn str obj .pkgver ≠ .stop
      rw [turn, hname]
      exact ite_ne_stop _
  · exact Or.inl fun obj _ => ite_ne_stop _
  · exact Or.inl fun obj _ => ite_ne_stop _

theorem MatchMode.patient_pkgname (str : Str) (array : List Str) :
    Patient (MatchMode.pkgname.turn str) array ↔
      (∀ obj ∈ array, (pkgName obj).isSome = true) ∨ ∀ obj ∈ array, pkgName obj ≠ some str := by
  have hstop : ∀ obj, MatchMode.pkgname.turn str obj ≠ .stop ↔ (pkgName obj).isSome = true := by
    intro obj
    rw [turn]
    rcases pkgName obj with _ | n
    · simp
    · by_cases hn : n = str
      · simp [hn]
      · simp [hn]
  simp only [Patient, hstop, ne_eq, turn_found_iff, Matches]

section

variable (immutable : Bool) {str : Str}

theorem StringMode.removes_iff (mode : StringMode) {array : List Str}
    (h : Patient (mode.turn str) array) :
    (∃ out, removeObjFromArray (mode.step str) immutable array = some out ∧
        RemovesFirst (mode.Matches str) array out) ↔
      (immutable = true → ∀ obj ∈ array, ¬ mode.Matches str obj) := by
  rw [← removeFound_iff (mode.turn_found_iff str) h, removeObjFromArray_string]
  simp only [Option.some.injEq, exists_eq_left']

theorem stringsOk_iff (array : List Str) :
    StringsOk immutable array str ↔
      ((∀ obj ∈ array, (pkgName obj).isSome = true) ∨ ∀ obj ∈ array, pkgName obj ≠ some str) ∧
        (immutable = true → ∀ obj ∈ array, obj ≠ str ∧ pkgName obj ≠ some str) := by
  have hpatient : ∀ mode : StringMode, Patient (MatchMode.pkgname.turn str) array →
      Patient (mode.turn str) array := by
    intro mode h
    rcases mode with _ | _
    · exact MatchMode.patient .string str array (by decide)
    · exact h
  rw [← MatchMode.patient_pkgname]
  constructor
  · intro h
    have hpkgname := (MatchMode.pkgname.matches_iff_patient str array).mp (h.matches_iff .pkgname)
    refine ⟨hpkgname, fun him obj hobj => ?_⟩
    have hno : ∀ mode : StringMode, ¬ mode.Matches str obj := fun mode =>
      (mode.removes_iff immutable (hpatient mode hpkgname)).mp (h.removes mode) him obj hobj
    exact ⟨hno .string, hno .pkgname⟩
  · rintro ⟨hpkgname, him⟩
    constructor
    · intro mode
      rw [mode.matches_iff_patient]
      by_cases hmode : mode = .pkgname
      · rw [hmode]
        exact hpkgname
      · exact mode.patient str array hmode
    · intro mode
      refine (mode.removes_iff immutable (hpatient mode hpkgname)).mpr fun h obj hobj => ?_
      rcases mode with _ | _
      · exact (him h obj hobj).1
      · exact (him h obj hobj).2

variable {δ : Type} {cstring : Str → δ → Option Str}

theorem DictMode.removes_iff (mode : DictMode) (array : List δ) :
    (∃ out, removeObjFromArray (mode.step cstring str) immutable array = some out ∧
        RemovesFirst (mode.Matches cstring str) array out) ↔
      (∀ d ∈ array.head?, (cstring mode.key d).isSome = true) ∧
        (immutable = true → ∀ d ∈ array, ¬ mode.Matches cstring str d) := by
  by_cases hhead : ∀ d ∈ array.head?, (cstring mode.key d).isSome = true
  · rw [← removeFound_iff (mode.look_found_iff str) (mode.patient str array) immutable,
      removeObjFromArray_dict mode str immutable hhead]
    simp only [Option.some.injEq, exists_eq_left']
    exact (and_iff_right hhead).symm
  · refine iff_of_false ?_ (fun h => hhead h.1)
    rintro ⟨out, hout, -⟩
    rcases array with _ | ⟨d, array⟩
    · exact hhead (by simp)
    · -- the text to compare with was never read
      have hread : cstring mode.key d = none := by
        simpa using hhead
      rw [removeObjFromArray, removeLoop_unset mode str hread] at hout
      cases hout

theorem dictsOk_iff (array : List δ) :
    DictsOk cstring immutable array str ↔
      (∀ d ∈ array.head?, (cstring "pkgname".toList d).isSome = true ∧
          (cstring "pkgver".toList d).isSome = true) ∧
        (immutable = true → ∀ (mode : DictMode), ∀ d ∈ array, ¬ mode.Matches cstring str d) := by
  simp only [DictsOk, DictMode.removes_iff]
  constructor
  · intro h
    refine ⟨fun d hd => ⟨(h .name).1 d hd, (h .pkgver).1 d hd⟩, ?_⟩
    intro him mode
    exact (h mode).2 him
  · rintro ⟨hhead, him⟩ mode
    refine ⟨fun d hd => ?_, fun h => him h mode⟩
    rcases mode with _ | _ | _
    · exact (hhead d hd).1
    · exact (hhead d hd).2
    · exact (hhead d hd).2

end

/-! ### The functions of the library -/

theorem matchStringInArray_iff {mode : MatchMode} (hne : mode ≠ .pkgname) (array : List Str)
    (str : Str) :
    matchStringInArray array str mode = true ↔ ∃ obj ∈ array, mode.Matches str obj :=
  (mode.matches_iff_patient str array).mpr (mode.patient str array hne) array (List.Perm.refl array)

theorem matchStringInArray_string (array : List Str) (str : Str) :
    matchStringInArray array str .string = Flappy.matchStringInArray array str := by
  rw [Bool.eq_iff_iff, matchStringInArray_iff (by decide), Flappy.matchStringInArray,
    List.contains_iff_mem]
  exact exists_eq_right

theorem matchStringInArray_pkgname (array : List Str) (str : Str) :
    matchStringInArray array str .pkgname = matchPkgnameInArray array str := by
  induction array with
  | nil => rfl
  | cons obj array ih =>
    rw [matchStringInArray, matchPkgnameInArray, MatchMode.turn, ih]
    rcases pkgName obj with _ | n
    · rfl
    · by_cases hn : n = str
      · simp only [hn, if_true]
      · simp only [hn, if_false]

theorem matchStringInArray_pkgpattern (array : List Str) (str : Str) :
    matchStringInArray array str .pkgpattern = matchPkgpatternInArray array str := by
  rw [Bool.eq_iff_iff, matchStringInArray_iff (by decide), matchPkgpatternInArray, List.any_eq_true]
  rfl

theorem matchStringInArray_pkgdep (array : List Str) (str : Str) :
    matchStringInArray array str .pkgdep = matchPkgdepInArray array str := by
  rw [Bool.eq_iff_iff, matchStringInArray_iff (by decide), matchPkgdepInArray, List.any_eq_true]
  rfl

theorem removeStringFromArray_eq (array : List Str) (str : Str) :
    ∃ res, removeStringFromArray false array str =
      some (Flappy.removeStringFromArray array str, res) := by
  have hpatient : Patient (StringMode.string.turn str) array :=
    MatchMode.patient .string str array (by decide)
  obtain ⟨out, hout, hfirst⟩ := (StringMode.string.removes_iff false hpatient).mpr fun him => by
    cases him
  have hfst : out.1 = Flappy.removeStringFromArray array str :=
    RemovesFirst.fst_eq (P := fun obj => obj = str) hfirst
  exact ⟨out.2, hout.trans (congrArg some (Prod.ext hfst rfl))⟩

theorem removePkgFromArrayByPkgver_eq {cstring : Str → PkgDict → Option Str}
    (hread : ∀ d, cstring "pkgver".toList d = some d.pkgver) (array : List PkgDict) (str : Str) :
    ∃ res, removePkgFromArrayByPkgver cstring false array str =
      some (Flappy.removePkgFromArrayByPkgver array str, res) := by
  have hhead : ∀ d ∈ array.head?, (cstring "pkgver".toList d).isSome = true := by
    intro d _
    exact Option.isSome_iff_exists.mpr ⟨_, hread d⟩
  obtain ⟨out, hout, hfirst⟩ := (DictMode.pkgver.removes_iff false array).mpr
    ⟨hhead, fun him => by cases him⟩
  have hP : DictMode.pkgver.Matches cstring str = fun d => d.pkgver = str := by
    funext d
    show (∃ curname, cstring "pkgver".toList d = some curname ∧ curname = str) = _
    simp only [hread d, Option.some.injEq, exists_eq_left']
  have hfst : out.1 = Flappy.removePkgFromArrayByPkgver array str :=
    RemovesFirst.fst_eq (P := fun d : PkgDict => d.pkgver = str) (hP ▸ hfirst)
  exact ⟨out.2, hout.trans (congrArg some (Prod.ext hfst rfl))⟩

/-- **The arrays that are served.**  One of strings is if no element lacks a name or none has the
name asked for; one of dictionaries is if the first has both properties.  And nothing that is to
go may be in an immutable array. -/
theorem arrays_iff {δ : Type} (cstring : Str → δ → Option Str) (immutable : Bool)
    (array : List Str) (dicts : List δ) (str : Str) :
    (StringsOk immutable array str ↔
      ((∀ obj ∈ array, (pkgName obj).isSome = true) ∨ ∀ obj ∈ array, pkgName obj ≠ some str) ∧
        (immutable = true → ∀ obj ∈ array, obj ≠ str ∧ pkgName obj ≠ some str)) ∧
    (DictsOk cstring immutable dicts str ↔
      (∀ d ∈ dicts.head?, (cstring "pkgname".toList d).isSome = true ∧
          (cstring "pkgver".toList d).isSome = true) ∧
        (immutable = true → ∀ (mode : DictMode), ∀ d ∈ dicts, ¬ mode.Matches cstring str d)) :=
  ⟨stringsOk_iff immutable array, dictsOk_iff immutable dicts⟩

/-- **A bare name hides what follows**: behind `foo` no package is found, and none removed, that
is found and removed in front of it. -/
theorem pkgname_hidden :
    let array := ["foo".toList, "bar-1.0_1".toList]
    matchStringInArray array "bar".toList .pkgname = false ∧
      matchStringInArray array.reverse "bar".toList .pkgname = true ∧
      removePkgnameFromArray false array "bar".toList = some (array, .error .enoent) ∧
      ¬ StringsOk false array "bar".toList := by
  have hhidden : matchStringInArray ["foo".toList, "bar-1.0_1".toList] "bar".toList .pkgname =
      false := by decide
  refine ⟨hhidden, by decide, by decide, fun h => ?_⟩
  have hname : pkgName "bar-1.0_1".toList = some "bar".toList := by decide
  have hfound := (h.matches_iff .pkgname _ (List.Perm.refl _)).mpr
    ⟨"bar-1.0_1".toList, by simp, hname⟩
  exact Bool.false_ne_true (hhidden.symm.trans hfound)

end Flappy.Arrays
