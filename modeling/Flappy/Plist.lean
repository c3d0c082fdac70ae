/-
Package dictionaries and arrays of them (`lib/plist_match.c`, the array half
of `lib/plist_find.c`, `lib/plist_remove.c`).

Every record the library passes around is a property-list dictionary.  A
package dictionary always has a `pkgver`; the other properties may be missing,
and the code often asks only whether a property is there (`hold`,
`repolock`), so they are options here.  A missing array counts as empty
wherever the code only counts or walks it.

* `getPkgInArray_eq_some` — a lookup in an array yields its *first* match, and
  nothing if that one has the wrong transaction type;
* `Separated` — no package of a list answers to the pkgver of another one; on
  such lists looking a package up by its own pkgver finds that package.
-/
import Flappy.Dewey

open CStr

namespace Flappy

/-- `flappy_trans_type_t`. -/
inductive TransType where
  | unknown
  | install
  | reinstall
  | update
  | configure
  | remove
  | hold
  | download
deriving DecidableEq, Repr

/-- Does the transaction unpack a binary package for this entry? -/
def TransType.unpacks : TransType → Bool
  | .install | .reinstall | .update => true
  | .unknown | .configure | .remove | .hold | .download => false

/-- `pkg_state_t`. -/
inductive PkgState where
  | unpacked
  | installed
  | broken
  | halfRemoved
  | notInstalled
deriving DecidableEq, Repr

/-- A package dictionary, with the properties the modelled functions read or write. -/
structure PkgDict where
  pkgver : Str
  pkgname : Option Str := none
  repository : Option Str := none
  state : Option PkgState := none
  /-- `transaction`; a missing number reads as `unknown`. -/
  transaction : TransType := .unknown
  automaticInstall : Option Bool := none
  hold : Option Bool := none
  repolock : Option Bool := none
  replaced : Option Bool := none
  preserve : Option Bool := none
  removeAndUpdate : Option Bool := none
  installDate : Option Str := none
  metafileSha256 : Option Str := none
  architecture : Option Str := none
  filenameSha256 : Option Str := none
  filenameSize : Option Nat := none
  installedSize : Option Nat := none
  installScript : Option Str := none
  removeScript : Option Str := none
  runDepends : Option (List Str) := none
  /-- Which `run_depends` array this is: copying a dictionary copies the reference,
  so a removal from the array shows in every dictionary with the same number. -/
  runDependsId : Nat := 0
  provides : Option (List Str) := none
  conflicts : Option (List Str) := none
  replaces : Option (List Str) := none
  reverts : Option (List Str) := none
  shlibRequires : Option (List Str) := none
  shlibProvides : Option (List Str) := none
deriving DecidableEq, Repr

/-! ### Matching in an array of strings -/

/-- `flappy_match_string_in_array`. -/
def matchStringInArray (array : List Str) (str : Str) : Bool := array.contains str

/-- `flappy_match_pkgname_in_array`: the search ends at an element that is not a pkgver. -/
def matchPkgnameInArray : List Str → Str → Bool
  | [], _ => false
  | obj :: array, pkgname =>
    match pkgName obj with
    | none => false
    | some n => if n = pkgname then true else matchPkgnameInArray array pkgname

/-- `flappy_match_pkgpattern_in_array`: some element matches the pattern. -/
def matchPkgpatternInArray (array : List Str) (pattern : Str) : Bool :=
  array.any fun obj => pkgpatternMatch obj pattern

/-- `flappy_match_pkgdep_in_array`: some element is a pattern the pkgver matches. -/
def matchPkgdepInArray (array : List Str) (pkgver : Str) : Bool :=
  array.any fun obj => pkgpatternMatch pkgver obj

/-- `flappy_match_virtual_pkg_in_array`. -/
def matchVirtualPkgInArray (array : List Str) (str : Str) : Bool :=
  match request str with
  | .pattern => matchPkgdepInArray array str || matchPkgpatternInArray array str
  | .pkgver => matchStringInArray array str
  | .pkgname => matchPkgnameInArray array str

/-- `flappy_match_virtual_pkg_in_dict`. -/
def matchVirtualPkgInDict (d : PkgDict) (str : Str) : Bool :=
  match d.provides with
  | some provides => matchVirtualPkgInArray provides str
  | none => false

/-! ### Looking a package up in an array -/

/-- Does a package answer to a request, in the reading of `get_pkg_in_array`? -/
def matchesRequest (str : Str) (virt : Bool) (obj : PkgDict) : Bool :=
  if virt then matchVirtualPkgInDict obj str
  else
    match request str with
    | .pattern => pkgpatternMatch obj.pkgver str
    | .pkgver => str = obj.pkgver
    | .pkgname => pkgName obj.pkgver = some str

/-- `get_pkg_in_array`: the first match decides, also if its type is wrong. -/
def getPkgInArray (array : List PkgDict) (str : Str) (tt : TransType) (virt : Bool) :
    Option PkgDict :=
  match array.find? (matchesRequest str virt) with
  | none => none
  | some obj => if tt ≠ .unknown ∧ obj.transaction ≠ tt then none else some obj

/-- `flappy_find_pkg_in_array`. -/
def findPkgInArray (array : List PkgDict) (str : Str) (tt : TransType) : Option PkgDict :=
  getPkgInArray array str tt false

theorem getPkgInArray_eq_some {array : List PkgDict} {str : Str} {tt : TransType}
    {virt : Bool} {obj : PkgDict} :
    getPkgInArray array str tt virt = some obj ↔
      array.find? (matchesRequest str virt) = some obj ∧
        (tt = .unknown ∨ obj.transaction = tt) := by
  rw [getPkgInArray]
  cases h : array.find? (matchesRequest str virt) with
  | none => simp
  | some o =>
    by_cases hc : tt ≠ .unknown ∧ o.transaction ≠ tt
    · simp only [if_pos hc, Option.some.injEq, reduceCtorEq, false_iff, not_and, not_or]
      rintro rfl
      exact hc
    · simp only [if_neg hc, Option.some.injEq]
      rw [not_and_or, not_not, not_not] at hc
      constructor
      · rintro rfl
        exact ⟨rfl, hc⟩
      · exact And.left

theorem findPkgInArray_unknown (array : List PkgDict) (str : Str) :
    findPkgInArray array str .unknown = array.find? (matchesRequest str false) := by
  apply Option.ext
  intro obj
  rw [findPkgInArray, getPkgInArray_eq_some]
  simp

theorem findPkgInArray_isSome_iff {array : List PkgDict} {str : Str} :
    (findPkgInArray array str .unknown).isSome ↔
      ∃ obj ∈ array, matchesRequest str false obj = true := by
  rw [findPkgInArray_unknown, List.find?_isSome]

theorem matchesRequest_congr {str : Str} {d d' : PkgDict} (h : d'.pkgver = d.pkgver) :
    matchesRequest str false d' = matchesRequest str false d := by
  simp only [matchesRequest, h, Bool.false_eq_true, if_false]

/-- Every package with a valid pkgver answers to its own pkgver. -/
theorem matchesRequest_self {obj : PkgDict} (h : (pkgVersion obj.pkgver).isSome) :
    matchesRequest obj.pkgver false obj = true := by
  rw [matchesRequest, if_neg (by simp), request]
  by_cases hp : (pkgpatternVersion obj.pkgver).isSome
  · rw [if_pos hp]
    exact pkgpatternMatch_self _
  · rw [if_neg hp, if_pos h]
    exact decide_eq_true rfl

/-- A package whose pkgver has no pattern character answers only to itself. -/
theorem eq_of_matchesRequest {pkgver : Str} {obj : PkgDict}
    (hp : pkgpatternVersion pkgver = none) (hv : (pkgVersion pkgver).isSome)
    (h : matchesRequest pkgver false obj = true) : obj.pkgver = pkgver := by
  rw [matchesRequest, if_neg (by simp), request, hp, if_neg (by simp), if_pos hv] at h
  exact (of_decide_eq_true h).symm

/-- A package answers to a request: by its pkgver, or by one of its `provides`. -/
def Answers (str : Str) (obj : PkgDict) : Prop :=
  matchesRequest str false obj = true ∨ pkgpatternMatch obj.pkgver str = true ∨
    matchVirtualPkgInDict obj str = true

/-- No package of the list answers to the pkgver of another one, and each
answers to its own. -/
def Separated (l : List PkgDict) : Prop :=
  (∀ p ∈ l, matchesRequest p.pkgver false p = true) ∧
    ∀ p ∈ l, ∀ q ∈ l, matchesRequest p.pkgver false q = true → q = p

instance (l : List PkgDict) : Decidable (Separated l) :=
  inferInstanceAs (Decidable (_ ∧ ∀ p ∈ l, ∀ q ∈ l, _ → q = p))

/-- Packages with different pkgvers that hold no pattern characters are separated. -/
theorem Separated.of_plain {l : List PkgDict}
    (hplain : ∀ p ∈ l, pkgpatternVersion p.pkgver = none ∧ (pkgVersion p.pkgver).isSome)
    (hdist : ∀ p ∈ l, ∀ q ∈ l, q.pkgver = p.pkgver → q = p) : Separated l :=
  ⟨fun p hp => matchesRequest_self (hplain p hp).2,
    fun p hp q hq hm => hdist p hp q hq (eq_of_matchesRequest (hplain p hp).1 (hplain p hp).2 hm)⟩

/-- `flappy_pkg_reverts`: does the package revert this version? -/
def pkgReverts (pkg : PkgDict) (pkgver : Str) : Bool :=
  match pkgVersion pkgver with
  | none => false
  | some version => (pkg.reverts.getD []).contains version

/-! ### Removing from an array -/

/-- `flappy_remove_string_from_array`. -/
def removeStringFromArray (array : List Str) (str : Str) : List Str :=
  array.eraseP fun s => s = str

/-- `flappy_remove_pkg_from_array_by_pkgver`. -/
def removePkgFromArrayByPkgver (array : List PkgDict) (str : Str) : List PkgDict :=
  array.eraseP fun d => d.pkgver = str

/-! ### What bookkeeping leaves alone -/

/-- A dictionary without the properties that the bookkeeping of a transaction sets. -/
def PkgDict.core (d : PkgDict) : PkgDict :=
  { d with
    repository := none, state := none, transaction := .unknown
    replaces := none, runDepends := none }

/-- `core` keeps every other property, such as these. -/
theorem PkgDict.of_core_eq {d d' : PkgDict} (h : d.core = d'.core) :
    d.pkgver = d'.pkgver ∧ d.pkgname = d'.pkgname ∧ d.automaticInstall = d'.automaticInstall ∧
      d.hold = d'.hold ∧ d.repolock = d'.repolock ∧ d.replaced = d'.replaced := by
  cases d
  cases d'
  simp only [PkgDict.core, PkgDict.mk.injEq] at h
  simp [h]

/-- The `pkgname` of the dictionary, if it has one, is the name in its pkgver. -/
def NameOk (d : PkgDict) : Prop := ∀ n, d.pkgname = some n → pkgName d.pkgver = some n

/-- `d'` is `d` after some bookkeeping, which may have set its `pkgname` and removed
dependencies. -/
structure Evolves (d d' : PkgDict) : Prop where
  core : ({ d' with pkgname := none } : PkgDict).core = ({ d with pkgname := none } : PkgDict).core
  pkgname : d'.pkgname = d.pkgname ∨ d'.pkgname = pkgName d.pkgver
  runDepends : d'.runDepends.getD [] ⊆ d.runDepends.getD []

theorem Evolves.of_core {d d' : PkgDict} (h : d'.core = d.core)
    (hdeps : d'.runDepends.getD [] ⊆ d.runDepends.getD []) : Evolves d d' := by
  refine ⟨?_, Or.inl (PkgDict.of_core_eq h).2.1, hdeps⟩
  show ({ d'.core with pkgname := none } : PkgDict) = { d.core with pkgname := none }
  rw [h]

theorem Evolves.refl (d : PkgDict) : Evolves d d := Evolves.of_core rfl (List.Subset.refl _)

theorem Evolves.pkgver {d d' : PkgDict} (h : Evolves d d') : d'.pkgver = d.pkgver :=
  (PkgDict.of_core_eq h.core).1

theorem Evolves.provides {d d' : PkgDict} (h : Evolves d d') : d'.provides = d.provides := by
  have hcore := congrArg PkgDict.provides h.core
  exact hcore

/-- The modes of a package do not evolve. -/
theorem Evolves.modes {d d' : PkgDict} (h : Evolves d d') :
    d'.automaticInstall = d.automaticInstall ∧ d'.hold = d.hold ∧ d'.repolock = d.repolock := by
  obtain ⟨-, -, ha, hh, hl, -⟩ := PkgDict.of_core_eq h.core
  exact ⟨ha, hh, hl⟩

theorem Evolves.trans {a b c : PkgDict} (h : Evolves a b) (h' : Evolves b c) : Evolves a c := by
  refine ⟨h'.core.trans h.core, ?_, List.Subset.trans h'.runDepends h.runDepends⟩
  rcases h'.pkgname with hp | hp
  · rw [hp]
    exact h.pkgname
  · rw [hp, h.pkgver]
    exact Or.inr rfl

theorem NameOk.evolves {d d' : PkgDict} (hd : NameOk d) (h : Evolves d d') : NameOk d' := by
  intro n hn
  rw [h.pkgver]
  rcases h.pkgname with hp | hp
  · exact hd n (hp.symm.trans hn)
  · exact hp.symm.trans hn

/-! ### Collecting messages -/

/-- Run a check over a list and gather what it reports. -/
def gather {α : Type} (check : α → Option (List Str)) : List α → Option (List Str)
  | [] => some []
  | a :: as => (check a).bind fun found => (gather check as).map (found ++ ·)

theorem gather_spec {α : Type} (check : α → Option (List Str)) :
    ∀ (as : List α), (∀ a ∈ as, (check a).isSome) →
      (gather check as).isSome ∧ (gather check as = some [] ↔ ∀ a ∈ as, check a = some []) := by
  intro as
  induction as with
  | nil => intro _; simp [gather]
  | cons a as ih =>
    intro h
    obtain ⟨hsome, hnil⟩ := ih fun b hb => h b (List.mem_cons_of_mem _ hb)
    obtain ⟨found, hfound⟩ := Option.isSome_iff_exists.mp (h a List.mem_cons_self)
    obtain ⟨rest, hrest⟩ := Option.isSome_iff_exists.mp hsome
    rw [gather, hfound, Option.bind_some, hrest, Option.map_some, List.forall_mem_cons, hfound,
      ← hnil, hrest]
    simp

end Flappy
