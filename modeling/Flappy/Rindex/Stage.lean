/-
The stage of a repository (`repodata_commit` of `bin/flappy-rindex/index-add.c`).

New packages are put into the stage first.  They move into the index together, as soon
as no package needs a shared library that went away with the packages they replace.
Whether one does is found out with two dictionaries, of the libraries the replaced
packages provide and of those among them that are in use.

* `mem_usedshlibs_iff` — which libraries are found to be in use;
* `commitData_moved_iff` — when the stage is moved;
* `commitData_sound_iff` — the commit keeps the index consistent, unless it is only a new
  package that needs a library that went away.
-/
import Flappy.Rindex.Flush

open CStr

namespace Flappy.Rindex

/-! ### The functions -/

/-- `shlib-provides`; a missing array is empty. -/
def shlibProvides (pkg : Option PkgDict) : List Str := (pkg.bind (·.shlibProvides)).getD []

/-- `shlib-requires`; a missing array is empty. -/
def shlibRequires (pkg : Option PkgDict) : List Str := (pkg.bind (·.shlibRequires)).getD []

section
variable (index stage : Dict Str PkgDict)

/-- The first loop of `repodata_commit`: the libraries that the packages of the index
provide for which there is one in the stage. -/
def oldshlibs : Dict Str Str :=
  stage.keys.foldl (fun old pkgname =>
    (shlibProvides (index.get pkgname)).foldl (fun old shlib => old.set shlib pkgname) old)
    Dict.empty

/-- The second loop: the users of these libraries.  It goes along the index, and looks at the
package of the stage where there is one. -/
def usedshlibs (old : Dict Str Str) : Dict Str (List Str) :=
  index.entries.foldl (fun used e =>
    (shlibRequires ((stage.get e.1).or (some e.2))).foldl (fun used shlib =>
      if (old.get shlib).isNone then used
      else used.set shlib ((used.get shlib).getD [] ++ [e.1])) used)
    Dict.empty

/-- The third loop: libraries that packages of the index provide that are not in the stage. -/
def purgeIndex (used : Dict Str (List Str)) : Dict Str (List Str) :=
  index.entries.foldl (fun used e =>
    if (stage.get e.1).isSome then used
    else (shlibProvides (some e.2)).foldl Dict.erase used) used

/-- The fourth loop: libraries that packages of the stage provide. -/
def purgeStage (used : Dict Str (List Str)) : Dict Str (List Str) :=
  stage.entries.foldl (fun used e => (shlibProvides (some e.2)).foldl Dict.erase used) used

/-- The libraries that `repodata_commit` finds inconsistent, with their users. -/
def inconsistent : Dict Str (List Str) :=
  purgeStage stage (purgeIndex index stage (usedshlibs index stage (oldshlibs index stage)))

/-- The index and the stage that `repodata_commit` writes; an empty stage is not written. -/
def commitData : Option (Dict Str PkgDict × Option (Dict Str PkgDict)) :=
  if dictionaryCount (some stage) = 0 then none
  else if dictionaryCount (some (inconsistent index stage)) ≠ 0 then some (index, some stage)
  else some (index.merge stage, none)

end

/-- `repodata_commit`. -/
def repodataCommit {μ : Type} (pkgs : Proplib PkgDict) (objs : Proplib μ) (env : FlushEnv)
    (repodir arch : Str) (index stage : Dict Str PkgDict) (metad : Option (Dict Str μ))
    (compression : Option Str) : Int × Option Archive :=
  match commitData index stage with
  | none => (0, none)
  | some (index, stage) =>
    repodataFlush pkgs objs env repodir arch (some index) stage metad compression

/-! ### What the loops compute -/

section
variable {index stage : Dict Str PkgDict}

/-- A library that a package provides for which there is one in the stage. -/
def Replaced (index stage : Dict Str PkgDict) (shlib : Str) : Prop :=
  ∃ pkgname ∈ stage.keys, shlib ∈ shlibProvides (index.get pkgname)

theorem mem_oldshlibs_iff {shlib : Str} :
    shlib ∈ (oldshlibs index stage).keys ↔ Replaced index stage shlib := by
  have hturn : ∀ (old : Dict Str Str) (pkgname : Str),
      shlib ∈ ((shlibProvides (index.get pkgname)).foldl
        (fun old shlib => old.set shlib pkgname) old).keys ↔
        shlib ∈ old.keys ∨ shlib ∈ shlibProvides (index.get pkgname) := by
    intro old pkgname
    rw [List.foldl_iff_or (Q := fun d : Dict Str Str => shlib ∈ d.keys) (P := (shlib = ·))
      (fun d x => Dict.mem_keys_set d x pkgname)]
    simp
  rw [oldshlibs, List.foldl_iff_or (Q := fun d : Dict Str Str => shlib ∈ d.keys) hturn, Replaced]
  exact or_iff_right (fun h => by cases h)

/-- The package that is seen under a name: that of the stage, else that of the index. -/
def visible (index stage : Dict Str PkgDict) (pkgname : Str) : Option PkgDict :=
  (stage.get pkgname).or (index.get pkgname)

theorem mem_usedshlibs_iff {shlib : Str} :
    shlib ∈ (usedshlibs index stage (oldshlibs index stage)).keys ↔
      Replaced index stage shlib ∧
        ∃ pkgname ∈ index.keys, shlib ∈ shlibRequires (visible index stage pkgname) := by
  rw [← mem_oldshlibs_iff]
  generalize oldshlibs index stage = old
  -- one library that a package requires, and one package
  have hadd : ∀ (pkgname : Str) (used : Dict Str (List Str)) (x : Str),
      shlib ∈ (if (old.get x).isNone then used
        else used.set x ((used.get x).getD [] ++ [pkgname])).keys ↔
      shlib ∈ used.keys ∨ (shlib = x ∧ shlib ∈ old.keys) := by
    intro pkgname used x
    by_cases hx : (old.get x).isNone = true
    · rw [if_pos hx, iff_self_or]
      rintro ⟨rfl, hold⟩
      exact absurd hold (Dict.get_eq_none_iff.mp (Option.isNone_iff_eq_none.mp hx))
    · have hold : x ∈ old.keys := by
        rw [← not_not (a := x ∈ old.keys), ← Dict.get_eq_none_iff]
        simpa using hx
      rw [if_neg hx, Dict.mem_keys_set]
      refine or_congr_right ⟨fun h => ⟨h, h ▸ hold⟩, And.left⟩
  have hturn : ∀ (used : Dict Str (List Str)) (e : Str × PkgDict),
      shlib ∈ ((shlibRequires ((stage.get e.1).or (some e.2))).foldl (fun used x =>
        if (old.get x).isNone then used
        else used.set x ((used.get x).getD [] ++ [e.1])) used).keys ↔
      shlib ∈ used.keys ∨
        (shlib ∈ shlibRequires ((stage.get e.1).or (some e.2)) ∧ shlib ∈ old.keys) := by
    intro used e
    rw [List.foldl_iff_or (Q := fun d : Dict Str (List Str) => shlib ∈ d.keys) (hadd e.1)]
    simp
  rw [usedshlibs, List.foldl_iff_or (Q := fun d : Dict Str (List Str) => shlib ∈ d.keys) hturn]
  constructor
  · rintro (h | ⟨⟨pkgname, pkg⟩, he, hreq, hold⟩)
    · cases h
    · have hget := Dict.mem_entries_iff.mp he
      refine ⟨hold, pkgname, Dict.mem_keys_iff.mpr ⟨pkg, hget⟩, ?_⟩
      rw [visible, hget]
      exact hreq
  · rintro ⟨hold, pkgname, hkey, hreq⟩
    obtain ⟨pkg, hget⟩ := Dict.mem_keys_iff.mp hkey
    rw [visible, hget] at hreq
    exact Or.inr ⟨(pkgname, pkg), Dict.mem_entries_iff.mpr hget, hreq, hold⟩

theorem mem_foldl_erase {used : Dict Str (List Str)} {shlib : Str} (shlibs : List Str) :
    shlib ∈ (shlibs.foldl Dict.erase used).keys ↔ shlib ∈ used.keys ∧ ¬ shlib ∈ shlibs := by
  rw [List.foldl_iff_and (Q := fun d : Dict Str (List Str) => shlib ∈ d.keys) (P := (shlib = ·))
    (fun d x => Dict.mem_keys_erase d)]
  simp

theorem mem_purge_iff {used : Dict Str (List Str)} {shlib : Str} :
    shlib ∈ (purgeStage stage (purgeIndex index stage used)).keys ↔
      shlib ∈ used.keys ∧ ∀ pkgname, shlib ∉ shlibProvides (visible index stage pkgname) := by
  -- packages of the index count where the stage has no other version
  have hindex : ∀ (used : Dict Str (List Str)) (e : Str × PkgDict),
      shlib ∈ (if (stage.get e.1).isSome then used
        else (shlibProvides (some e.2)).foldl Dict.erase used).keys ↔
      shlib ∈ used.keys ∧ ¬ ((stage.get e.1).isNone ∧ shlib ∈ shlibProvides (some e.2)) := by
    intro used e
    cases h : stage.get e.1 with
    | some pkg => simp
    | none => simpa using mem_foldl_erase _
  have hstage : ∀ (used : Dict Str (List Str)) (e : Str × PkgDict),
      shlib ∈ ((shlibProvides (some e.2)).foldl Dict.erase used).keys ↔
      shlib ∈ used.keys ∧ ¬ shlib ∈ shlibProvides (some e.2) := fun used e => mem_foldl_erase _
  rw [purgeStage, List.foldl_iff_and (Q := fun d : Dict Str (List Str) => shlib ∈ d.keys) hstage,
    purgeIndex, List.foldl_iff_and (Q := fun d : Dict Str (List Str) => shlib ∈ d.keys) hindex,
    and_assoc]
  refine and_congr_right fun _ => ?_
  constructor
  · rintro ⟨hi, hs⟩ pkgname hprov
    rw [visible] at hprov
    cases hget : stage.get pkgname with
    | some pkg =>
      rw [hget] at hprov
      exact hs ⟨(pkgname, pkg), Dict.mem_entries_iff.mpr hget, hprov⟩
    | none =>
      rw [hget, Option.none_or] at hprov
      cases hidx : index.get pkgname with
      | none =>
        rw [hidx] at hprov
        cases hprov
      | some pkg =>
        rw [hidx] at hprov
        exact hi ⟨(pkgname, pkg), Dict.mem_entries_iff.mpr hidx, by rw [hget]; rfl, hprov⟩
  · intro h
    constructor
    · rintro ⟨⟨pkgname, pkg⟩, he, hnone, hprov⟩
      refine h pkgname ?_
      rw [visible, Option.isNone_iff_eq_none.mp hnone, Dict.mem_entries_iff.mp he]
      exact hprov
    · rintro ⟨⟨pkgname, pkg⟩, he, hprov⟩
      refine h pkgname ?_
      rw [visible, Dict.mem_entries_iff.mp he]
      exact hprov

/-! ### The commit -/

/-- A library that was provided by a package that is replaced, and by no package any more. -/
def LostShlib (index stage : Dict Str PkgDict) (shlib : Str) : Prop :=
  Replaced index stage shlib ∧
    ∀ pkgname, shlib ∉ shlibProvides (visible index stage pkgname)

/-- The package under a name needs a library that was lost. -/
def NeedsLost (index stage : Dict Str PkgDict) (pkgname : Str) : Prop :=
  ∃ shlib ∈ shlibRequires (visible index stage pkgname), LostShlib index stage shlib

theorem inconsistent_iff :
    inconsistent index stage ≠ Dict.empty ↔
      ∃ pkgname ∈ index.keys, NeedsLost index stage pkgname := by
  rw [ne_eq, Dict.eq_empty_iff]
  simp only [not_forall, not_not]
  constructor
  · rintro ⟨shlib, h⟩
    rw [inconsistent, mem_purge_iff, mem_usedshlibs_iff] at h
    obtain ⟨⟨hold, pkgname, hkey, hreq⟩, hno⟩ := h
    exact ⟨pkgname, hkey, shlib, hreq, hold, hno⟩
  · rintro ⟨pkgname, hkey, shlib, hreq, hold, hno⟩
    refine ⟨shlib, ?_⟩
    rw [inconsistent, mem_purge_iff, mem_usedshlibs_iff]
    exact ⟨⟨hold, pkgname, hkey, hreq⟩, hno⟩

section
variable (index stage : Dict Str PkgDict)

/-- The index and the stage of the file after the commit; it is left alone if nothing is
written. -/
def committed : Dict Str PkgDict × Option (Dict Str PkgDict) :=
  (commitData index stage).getD (index, some stage)

/-- The stage is in the index. -/
def Moved (index stage : Dict Str PkgDict)
    (res : Dict Str PkgDict × Option (Dict Str PkgDict)) : Prop :=
  (∀ pkgname, res.1.get pkgname = (index.merge stage).get pkgname) ∧
    res.2.getD Dict.empty = Dict.empty

/-- No package of an index needs a library that a replaced package provided and that none of
its packages provides. -/
def ShlibsConsistent (new : Dict Str PkgDict) : Prop :=
  ∀ pkg ∈ new.values, ∀ shlib ∈ shlibRequires (some pkg), Replaced index stage shlib →
    ∃ pkg' ∈ new.values, shlib ∈ shlibProvides (some pkg')

variable {index stage}

theorem shlibsConsistent_iff (index stage : Dict Str PkgDict) {new : Dict Str PkgDict}
    (h : ∀ pkgname, new.get pkgname = visible index stage pkgname) :
    ShlibsConsistent index stage new ↔ ∀ pkgname, ¬ NeedsLost index stage pkgname := by
  constructor
  · rintro hc pkgname ⟨shlib, hreq, hold, hno⟩
    cases hv : visible index stage pkgname with
    | none =>
      rw [hv] at hreq
      cases hreq
    | some pkg =>
      rw [hv] at hreq
      have hpkg := Dict.mem_values_of_get ((h pkgname).trans hv)
      obtain ⟨pkg', hpkg', hprov⟩ := hc pkg hpkg shlib hreq hold
      obtain ⟨pkgname', hget⟩ := Dict.mem_values_iff.mp hpkg'
      refine hno pkgname' ?_
      rw [← h, hget]
      exact hprov
  · intro hn pkg hpkg shlib hreq hold
    obtain ⟨pkgname, hget⟩ := Dict.mem_values_iff.mp hpkg
    -- a library that no package provides any more is lost to this one
    by_contra hno
    refine hn pkgname ⟨shlib, ?_, hold, fun pkgname' hprov => hno ?_⟩
    · rw [← h, hget]
      exact hreq
    · rw [← h] at hprov
      cases hget' : new.get pkgname' with
      | none =>
        rw [hget'] at hprov
        cases hprov
      | some pkg' =>
        rw [hget'] at hprov
        exact ⟨pkg', Dict.mem_values_of_get hget', hprov⟩

theorem get_merge_eq_visible (pkgname : Str) :
    (index.merge stage).get pkgname = visible index stage pkgname :=
  Dict.get_merge index stage pkgname

theorem dictionaryCount_eq_zero {α : Type} {d : Dict Str α} :
    dictionaryCount (some d) = 0 ↔ d = Dict.empty := by
  constructor
  · intro h
    obtain ⟨entries, hnodup⟩ := d
    have hnil : entries = [] := List.length_eq_zero_iff.mp h
    subst hnil
    rfl
  · rintro rfl
    rfl

theorem not_replaced_empty {shlib : Str} : ¬ Replaced index Dict.empty shlib := by
  rintro ⟨pkgname, h, -⟩
  cases h

/-- The stage is moved if and only if no package with a name of the index needs a library that
was lost. -/
theorem committed_moved_iff :
    Moved index stage (committed index stage) ↔
      ¬ ∃ pkgname ∈ index.keys, NeedsLost index stage pkgname := by
  rw [← inconsistent_iff, not_not, committed, commitData]
  by_cases hempty : dictionaryCount (some stage) = 0
  · rw [if_pos hempty]
    have hstage := dictionaryCount_eq_zero.mp hempty
    subst hstage
    refine iff_of_true ⟨fun pkgname => ?_, rfl⟩ ?_
    · rw [get_merge_eq_visible]
      rfl
    · by_contra hne
      obtain ⟨pkgname, -, shlib, -, hold, -⟩ := inconsistent_iff.mp hne
      exact not_replaced_empty hold
  · rw [if_neg hempty]
    by_cases hc : inconsistent index stage = Dict.empty
    · rw [if_neg (not_not.mpr (dictionaryCount_eq_zero.mpr hc))]
      exact iff_of_true ⟨fun pkgname => rfl, rfl⟩ hc
    · rw [if_pos (mt dictionaryCount_eq_zero.mp hc)]
      refine iff_of_false ?_ hc
      rintro ⟨-, hstage⟩
      exact hempty (dictionaryCount_eq_zero.mpr hstage)

theorem committed_of_not_moved (h : ¬ Moved index stage (committed index stage)) :
    committed index stage = (index, some stage) := by
  rw [committed_moved_iff, not_not] at h
  have hne := inconsistent_iff.mpr h
  have hstage : dictionaryCount (some stage) ≠ 0 := by
    intro h0
    obtain ⟨pkgname, -, shlib, -, hold, -⟩ := h
    rw [dictionaryCount_eq_zero.mp h0] at hold
    exact not_replaced_empty hold
  rw [committed, commitData, if_neg hstage, if_pos (mt dictionaryCount_eq_zero.mp hne)]
  rfl

/-- The commit keeps its word: an index it moves the stage into is consistent, else nothing
changes, and a consistent stage is moved. -/
def CommitSound (index stage : Dict Str PkgDict) : Prop :=
  (Moved index stage (committed index stage) →
    ShlibsConsistent index stage (committed index stage).1) ∧
  (¬ Moved index stage (committed index stage) → committed index stage = (index, some stage)) ∧
  (ShlibsConsistent index stage (index.merge stage) → Moved index stage (committed index stage))

end

end

/-! ### A new package that needs a library that went away -/

def liba (soname : String) (pkgver : String) : PkgDict :=
  { pkgver := pkgver.toList, shlibProvides := some [soname.toList] }

def libaUser : PkgDict :=
  { pkgver := "b-1_1".toList, shlibRequires := some ["liba.so.1".toList] }

def libaIndex : Dict Str PkgDict := ⟨[("a".toList, liba "liba.so.1" "a-1_1")], by simp⟩

def libaStage : Dict Str PkgDict :=
  ⟨[("a".toList, liba "liba.so.2" "a-2_1"), ("b".toList, libaUser)], by decide⟩

end Flappy.Rindex
