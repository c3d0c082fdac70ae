/-
Adding packages to a repository (`bin/flappy-rindex/index-add.c`).

`index_add` reads the repository, puts every file that is newer than the package of its
name into the stage, and commits.  A file whose metadata cannot be read, or of another
architecture, is skipped; every other failure ends the run, which then writes nothing.

* `greatest_indexAddPkgs` — the loop over the files keeps the greatest version of each name;
* `visible_committed` — a commit does not change what is visible, whether it moves the
  stage or not;
* `indexAdd_newest` — after any number of runs, a greatest version is visible among the one
  that was visible before and those of the files that were added, in whatever order.
-/
import Flappy.Rindex.Stage
import Flappy.Lib.Best
import Flappy.Lib.Run

open CStr Run

namespace Flappy.Rindex

/-! ### The functions -/

/-- A binary package file: its `props.plist`, if it can be read, and what computing its
sha256 and `stat` give. -/
structure Binpkg where
  props : Option PkgDict
  sha256 : Except ℕ+ Str
  stat : Option ℕ+ := none

/-- How `index_add_pkg` fails. -/
inductive Failure where
  | errno (e : Nat)
  /-- `assert` in `flappy_pkg_arch_match`: the package has no architecture. -/
  | assert

/-- `flappy_pkg_arch_match` without a target. -/
def pkgArchMatch (arch orig : Str) : Bool := orig = "noarch".toList || orig = arch

/-- `cmp` of `index_add_pkg`: how the package compares with the current one. -/
def cmpCurrent (binpkgd curpkgd : PkgDict) : Int :=
  let cmp := cmpver binpkgd.pkgver curpkgd.pkgver
  if cmp < 0 ∧ pkgReverts binpkgd curpkgd.pkgver then 1
  else if cmp > 0 ∧ pkgReverts curpkgd binpkgd.pkgver then -1
  else cmp

/-- The package is already registered. -/
def registered (force : Bool) (binpkgd : PkgDict) (curpkgd : Option PkgDict) : Bool :=
  match curpkgd with
  | none => false
  | some curpkgd => !force && cmpCurrent binpkgd curpkgd ≤ 0

/-- `index_add_pkg`: the stage afterwards. -/
def indexAddPkg (repoarch : Str) (index : Dict Str PkgDict) (force : Bool)
    (stage : Dict Str PkgDict) (file : Binpkg) : Except Failure (Dict Str PkgDict) :=
  match file.props with
  | none => .ok stage
  | some binpkgd =>
    match binpkgd.architecture with
    | none => .error .assert
    | some arch =>
      if pkgArchMatch repoarch arch = false then .ok stage
      else
        match pkgName binpkgd.pkgver with
        | none => .error (.errno einval)
        | some pkgname =>
          if registered force binpkgd ((stage.get pkgname).or (index.get pkgname)) then .ok stage
          else
            match file.sha256 with
            | .error e => .error (.errno e)
            | .ok sha256 =>
              match file.stat with
              | some e => .error (.errno e)
              | none =>
                .ok (stage.set pkgname
                  { binpkgd with filenameSha256 := some sha256, pkgname := none })

/-- The loop of `index_add` over the files. -/
def indexAddPkgs (repoarch : Str) (index : Dict Str PkgDict) (force : Bool) :
    Dict Str PkgDict → List Binpkg → Except Failure (Dict Str PkgDict)
  | stage, [] => .ok stage
  | stage, file :: files =>
    match indexAddPkg repoarch index force stage file with
    | .error e => .error e
    | .ok stage => indexAddPkgs repoarch index force stage files

/-- A run of `index_add`: the files, and what it meets. -/
structure AddRun where
  files : List Binpkg
  force : Bool := false
  compression : Option Str := none
  /-- `flappy_repo_lock` fails. -/
  lockFails : Bool := false
  /-- The file of the repository is there, but cannot be opened. -/
  openFails : Bool := false
  env : FlushEnv := {}

def exitSuccess : Int := 0
def exitFailure : Int := 1
def enoent : Int := 2

section
variable {μ : Type} (pkgs : Proplib PkgDict) (objs : Proplib μ) (repodir repoarch : Str)

/-- `flappy_repo_open`, as `index_add` calls it: without a file the repository is empty. -/
def repoOpen (file : Option Archive) : Except Int (Repodata μ) :=
  match file with
  | none => .ok ⟨Dict.empty, none, Dict.empty⟩
  | some ar =>
    match repoRead pkgs objs ar.headers with
    | .ok repo => .ok repo
    | .error r => if r = -enoent then .ok ⟨Dict.empty, none, Dict.empty⟩ else .error r

/-- `index_add`, on a repository file: the exit code, and the file afterwards. -/
def indexAdd (file : Option Archive) (run : AddRun) : Int × Option Archive :=
  if run.lockFails then (exitFailure, file)
  else if file.isSome ∧ run.openFails then (exitFailure, file)
  else
    match repoOpen pkgs objs file with
    | .error _ => (exitFailure, file)
    | .ok repo =>
      match indexAddPkgs repoarch repo.index run.force repo.stage run.files with
      | .error _ => (exitFailure, file)
      | .ok stage =>
        let (r, new) := repodataCommit pkgs objs run.env repodir repoarch repo.index stage
          repo.idxmeta run.compression
        (if r < 0 then exitFailure else exitSuccess, new.or file)

end

/-! ### The newest version of a name -/

/-- `v` is not newer than `w`. -/
def VersionLe (v w : Str) : Prop := cmpver v w ≤ 0

theorem versionLe_refl (v : Str) : VersionLe v v := by
  rw [VersionLe]
  exact Int.le_of_eq (cmpver_self v)

/-- What a file offers: the name and the version of a package of this architecture. -/
def offer (repoarch : Str) (file : Binpkg) : Option (Str × Str) :=
  file.props.bind fun binpkgd =>
    if binpkgd.architecture.any (pkgArchMatch repoarch) then
      (pkgName binpkgd.pkgver).map fun pkgname => (pkgname, binpkgd.pkgver)
    else none

/-- The version that is visible under a name. -/
def visibleVersion (index stage : Dict Str PkgDict) (pkgname : Str) : Option Str :=
  (visible index stage pkgname).map (·.pkgver)

/-- A package that reverts no version. -/
def Plain (pkg : PkgDict) : Prop := pkg.reverts.getD [] = []

theorem cmpCurrent_of_plain {binpkgd curpkgd : PkgDict} (hb : Plain binpkgd) (hc : Plain curpkgd) :
    cmpCurrent binpkgd curpkgd = cmpver binpkgd.pkgver curpkgd.pkgver := by
  have hrev : ∀ {pkg : PkgDict} (v : Str), Plain pkg → pkgReverts pkg v = false := by
    intro pkg v hp
    rw [pkgReverts, show pkg.reverts.getD [] = [] from hp]
    cases pkgVersion v <;> rfl
  simp [cmpCurrent, hrev _ hb, hrev _ hc]

section
variable {repoarch : Str} {index stage stage' : Dict Str PkgDict} {force : Bool} {file : Binpkg}

/-- What one file does to the stage. -/
theorem indexAddPkg_ok (h : indexAddPkg repoarch index force stage file = .ok stage') :
    (offer repoarch file = none ∧ stage' = stage) ∨
    ∃ binpkgd pkgname, file.props = some binpkgd ∧
      offer repoarch file = some (pkgname, binpkgd.pkgver) ∧
      ((registered force binpkgd (visible index stage pkgname) = true ∧ stage' = stage) ∨
       (registered force binpkgd (visible index stage pkgname) = false ∧ ∃ sha256,
          stage' = stage.set pkgname
            { binpkgd with filenameSha256 := some sha256, pkgname := none })) := by
  rw [indexAddPkg] at h
  cases hp : file.props with
  | none =>
    rw [hp] at h
    cases h
    exact Or.inl ⟨by rw [offer, hp]; rfl, rfl⟩
  | some binpkgd =>
    simp only [hp] at h
    cases ha : binpkgd.architecture with
    | none =>
      rw [ha] at h
      cases h
    | some arch =>
      simp only [ha] at h
      by_cases hm : pkgArchMatch repoarch arch = false
      · rw [if_pos hm] at h
        cases h
        refine Or.inl ⟨?_, rfl⟩
        simp [offer, hp, ha, hm]
      rw [if_neg hm] at h
      cases hn : pkgName binpkgd.pkgver with
      | none =>
        rw [hn] at h
        cases h
      | some pkgname =>
        simp only [hn] at h
        refine Or.inr ⟨binpkgd, pkgname, rfl, by simp [offer, hp, ha, hm, hn], ?_⟩
        -- the package is there in this or a greater version, or it replaces what is there
        by_cases hr : registered force binpkgd (visible index stage pkgname) = true
        · rw [visible] at hr
          rw [if_pos hr] at h
          cases h
          exact Or.inl ⟨hr, rfl⟩
        · refine Or.inr ⟨by simpa using hr, ?_⟩
          rw [visible] at hr
          rw [if_neg hr] at h
          cases hs : file.sha256 with
          | error e =>
            rw [hs] at h
            cases h
          | ok sha256 =>
            simp only [hs] at h
            cases ht : file.stat with
            | some e =>
              rw [ht] at h
              cases h
            | none =>
              rw [ht] at h
              cases h
              exact ⟨sha256, by rw [ha]⟩

theorem visible_set_self (pkgname : Str) (pkg : PkgDict) :
    visible index (stage.set pkgname pkg) pkgname = some pkg := by
  rw [visible, Dict.get_set_self, Option.some_or]

theorem visible_set_ne {pkgname pkgname' : Str} (pkg : PkgDict) (h : pkgname' ≠ pkgname) :
    visible index (stage.set pkgname pkg) pkgname' = visible index stage pkgname' := by
  rw [visible, visible, Dict.get_set_ne stage pkg h]

/-- No visible package reverts a version. -/
def PlainVisible (index stage : Dict Str PkgDict) : Prop :=
  ∀ pkgname, ∀ pkg ∈ visible index stage pkgname, Plain pkg

theorem plainVisible_indexAddPkg (h : indexAddPkg repoarch index force stage file = .ok stage')
    (hplain : PlainVisible index stage) (hfile : ∀ pkg ∈ file.props, Plain pkg) :
    PlainVisible index stage' := by
  obtain ⟨-, rfl⟩ | ⟨binpkgd, pkgname, hp, -, ⟨-, rfl⟩ | ⟨-, sha256, rfl⟩⟩ := indexAddPkg_ok h
  · exact hplain
  · exact hplain
  · intro pkgname' pkg hpkg
    by_cases hk : pkgname' = pkgname
    · subst hk
      rw [visible_set_self] at hpkg
      cases hpkg
      exact hfile binpkgd hp
    · rw [visible_set_ne _ hk] at hpkg
      exact hplain pkgname' pkg hpkg

/-- A file is one more offer for the name of its package. -/
theorem greatest_indexAddPkg (h : indexAddPkg repoarch index false stage file = .ok stage')
    (hplain : PlainVisible index stage) (hfile : ∀ pkg ∈ file.props, Plain pkg) {pkgname : Str}
    {offers : Str → Prop}
    (hcmp : CmpverPreorder fun v => offers v ∨ offer repoarch file = some (pkgname, v))
    (hg : Greatest VersionLe offers (visibleVersion index stage pkgname)) :
    Greatest VersionLe (fun v => offers v ∨ offer repoarch file = some (pkgname, v))
      (visibleVersion index stage' pkgname) := by
  obtain ⟨hnone, rfl⟩ | ⟨binpkgd, pkgname', hp, hoffer, hstage⟩ := indexAddPkg_ok h
  · refine hg.congr fun v => ?_
    simp [hnone]
  by_cases hk : pkgname = pkgname'
  swap
  · -- the offer is for another name
    have hsame : visibleVersion index stage' pkgname = visibleVersion index stage pkgname := by
      obtain ⟨-, rfl⟩ | ⟨-, sha256, rfl⟩ := hstage
      · rfl
      · rw [visibleVersion, visible_set_ne _ hk, visibleVersion]
    rw [hsame]
    refine hg.congr fun v => ?_
    simp [hoffer, Ne.symm hk]
  subst hk
  have hiff : ∀ v, (offers v ∨ v = binpkgd.pkgver) ↔
      (offers v ∨ offer repoarch file = some (pkgname, v)) := by
    intro v
    rw [hoffer]
    simp [eq_comm]
  refine Greatest.congr ?_ hiff
  -- the package that is visible stays the greatest, or the new one is greater than it
  obtain ⟨hreg, rfl⟩ | ⟨hreg, sha256, rfl⟩ := hstage
  · cases hv : visible index stage' pkgname with
    | none =>
      rw [hv] at hreg
      cases hreg
    | some curpkgd =>
      rw [visibleVersion, hv] at hg ⊢
      refine hg.keep ?_
      change cmpver binpkgd.pkgver curpkgd.pkgver ≤ 0
      rw [hv] at hreg
      have hcmp := cmpCurrent_of_plain (hfile binpkgd hp) (hplain pkgname curpkgd hv)
      simpa [registered, hcmp] using hreg
  · rw [visibleVersion, visible_set_self]
    refine hg.replace (fun v hv => ?_) (versionLe_refl _) fun x hx v hv hxv hvb =>
      hcmp.trans (.inl hx) (.inl (hg.offered v hv)) (.inr hoffer) hxv hvb
    have hswap := hcmp.swap (.inr hoffer) (.inl (hg.offered v hv))
    obtain ⟨curpkgd, hcur, rfl⟩ := Option.map_eq_some_iff.mp hv
    have hplaincmp := cmpCurrent_of_plain (hfile binpkgd hp) (hplain pkgname curpkgd hcur)
    have hlt : ¬ cmpver binpkgd.pkgver curpkgd.pkgver ≤ 0 := by
      simpa [hcur, registered, hplaincmp] using hreg
    rw [VersionLe]
    omega

theorem greatest_indexAddPkgs {files : List Binpkg} :
    ∀ {stage : Dict Str PkgDict}, indexAddPkgs repoarch index false stage files = .ok stage' →
      PlainVisible index stage → (∀ file ∈ files, ∀ pkg ∈ file.props, Plain pkg) →
      PlainVisible index stage' ∧ ∀ {pkgname : Str} {offers : Str → Prop},
        CmpverPreorder
          (fun v => offers v ∨ ∃ file ∈ files, offer repoarch file = some (pkgname, v)) →
        Greatest VersionLe offers (visibleVersion index stage pkgname) →
        Greatest VersionLe
          (fun v => offers v ∨ ∃ file ∈ files, offer repoarch file = some (pkgname, v))
          (visibleVersion index stage' pkgname) := by
  induction files with
  | nil =>
    intro stage h hplain _
    cases h
    exact ⟨hplain, fun _ hg => hg.congr fun v => by simp⟩
  | cons file files ih =>
    intro stage h hplain hfiles
    rw [indexAddPkgs] at h
    cases ha : indexAddPkg repoarch index false stage file with
    | error e =>
      rw [ha] at h
      cases h
    | ok stage₁ =>
      rw [ha] at h
      have hfile := hfiles file List.mem_cons_self
      obtain ⟨hplain', hgreatest⟩ := ih h (plainVisible_indexAddPkg ha hplain hfile)
        fun f hf => hfiles f (List.mem_cons_of_mem file hf)
      refine ⟨hplain', fun hcmp hg => ?_⟩
      simp only [List.exists_mem_cons_iff, ← or_assoc] at hcmp ⊢
      exact hgreatest hcmp (greatest_indexAddPkg ha hplain hfile
        (hcmp.mono fun v hv => .inl hv) hg)

/-- A commit shows the same packages, in the index or in the stage. -/
theorem visible_committed (pkgname : Str) :
    visible (committed index stage).1 ((committed index stage).2.getD Dict.empty) pkgname =
      visible index stage pkgname := by
  by_cases h : Moved index stage (committed index stage)
  · rw [h.2, visible, h.1, get_merge_eq_visible]
    rfl
  · rw [committed_of_not_moved h]
    rfl

theorem keys_indexAddPkgs {files : List Binpkg} {pkgname : Str} :
    ∀ {stage : Dict Str PkgDict}, indexAddPkgs repoarch index force stage files = .ok stage' →
      pkgname ∈ stage.keys → pkgname ∈ stage'.keys := by
  induction files with
  | nil =>
    intro stage h hmem
    cases h
    exact hmem
  | cons file files ih =>
    intro stage h hmem
    rw [indexAddPkgs] at h
    cases ha : indexAddPkg repoarch index force stage file with
    | error e =>
      rw [ha] at h
      cases h
    | ok stage₁ =>
      rw [ha] at h
      refine ih h ?_
      obtain ⟨-, rfl⟩ | ⟨binpkgd, pkgname', -, -, ⟨-, rfl⟩ | ⟨-, sha256, rfl⟩⟩ :=
        indexAddPkg_ok ha
      · exact hmem
      · exact hmem
      · exact (Dict.mem_keys_set stage pkgname' _).mpr (Or.inl hmem)

end

/-! ### Runs -/

section
variable {μ : Type} (pkgs : Proplib PkgDict) (objs : Proplib μ) (repodir repoarch : Str)

/-- The package that the file of the repository shows under a name. -/
def visibleIn (file : Option Archive) (pkgname : Str) : Option PkgDict :=
  match repoOpen pkgs objs file with
  | .error _ => none
  | .ok repo => visible repo.index repo.stage pkgname

/-- The version that the file of the repository shows under a name. -/
def versionIn (file : Option Archive) (pkgname : Str) : Option Str :=
  (visibleIn pkgs objs file pkgname).map (·.pkgver)

/-- What the run flushes, if anything, is flushed as `repodata_flush` is meant to. -/
def FlushesSoundly (file : Option Archive) (run : AddRun) : Prop :=
  ∀ repo stage, repoOpen pkgs objs file = .ok repo →
    indexAddPkgs repoarch repo.index run.force repo.stage run.files = .ok stage →
    ∀ index' stage', commitData repo.index stage = some (index', stage') →
      FlushSound pkgs objs run.env repodir repoarch (some index') stage' repo.idxmeta
        run.compression

/-- A run without `force`, of files that revert no version. -/
structure PlainRun (file : Option Archive) (run : AddRun) : Prop where
  force : run.force = false
  plain : ∀ f ∈ run.files, ∀ pkg ∈ f.props, Plain pkg
  sound : FlushesSoundly pkgs objs repodir repoarch file run

variable {pkgs objs repodir repoarch}

theorem indexAdd_failed {file : Option Archive} {run : AddRun}
    (h : (indexAdd pkgs objs repodir repoarch file run).1 ≠ exitSuccess) :
    (indexAdd pkgs objs repodir repoarch file run).2 = file := by
  rw [indexAdd] at h ⊢
  by_cases hlock : run.lockFails = true
  · rw [if_pos hlock]
  rw [if_neg hlock] at h ⊢
  by_cases hopen : file.isSome = true ∧ run.openFails = true
  · rw [if_pos hopen]
  rw [if_neg hopen] at h ⊢
  cases hr : repoOpen pkgs objs file with
  | error r => rfl
  | ok repo =>
    simp only [hr] at h ⊢
    cases hs : indexAddPkgs repoarch repo.index run.force repo.stage run.files with
    | error e => rfl
    | ok stage =>
      simp only [hs, repodataCommit] at h ⊢
      cases hc : commitData repo.index stage with
      | none => rfl
      | some data =>
        simp only [hc] at h ⊢
        rw [repodataFlush_installs, Option.none_or]
        intro h0
        rw [h0] at h
        exact h rfl

/-- A run that succeeds shows what the loop over its files leaves. -/
theorem indexAdd_succeeded {file : Option Archive} {run : AddRun}
    (hsound : FlushesSoundly pkgs objs repodir repoarch file run)
    (h : (indexAdd pkgs objs repodir repoarch file run).1 = exitSuccess) :
    ∃ repo stage, repoOpen pkgs objs file = .ok repo ∧
      indexAddPkgs repoarch repo.index run.force repo.stage run.files = .ok stage ∧
      ∀ pkgname, visibleIn pkgs objs (indexAdd pkgs objs repodir repoarch file run).2 pkgname =
        visible repo.index stage pkgname := by
  rw [indexAdd] at h ⊢
  by_cases hlock : run.lockFails = true
  · rw [if_pos hlock] at h
    cases h
  rw [if_neg hlock] at h ⊢
  by_cases hopen : file.isSome = true ∧ run.openFails = true
  · rw [if_pos hopen] at h
    cases h
  rw [if_neg hopen] at h ⊢
  cases hr : repoOpen pkgs objs file with
  | error r =>
    rw [hr] at h
    cases h
  | ok repo =>
    simp only [hr] at h ⊢
    cases hs : indexAddPkgs repoarch repo.index run.force repo.stage run.files with
    | error e =>
      rw [hs] at h
      cases h
    | ok stage =>
      simp only [hs, repodataCommit] at h ⊢
      refine ⟨repo, stage, rfl, hs, fun pkgname => ?_⟩
      cases hc : commitData repo.index stage with
      | none =>
        -- the stage is empty, and was so before
        have hempty : stage = Dict.empty := by
          rw [commitData] at hc
          by_contra hne
          rw [if_neg (mt dictionaryCount_eq_zero.mp hne)] at hc
          split at hc <;> cases hc
        have hbefore : repo.stage = Dict.empty := by
          rw [Dict.eq_empty_iff]
          intro k hk
          have := keys_indexAddPkgs hs hk
          rw [hempty] at this
          cases this
        simp only [Option.none_or]
        rw [visibleIn, hr, hempty, ← hbefore]
      | some data =>
        simp only [hc] at h ⊢
        have hflush := (hsound repo stage hr hs data.1 data.2 hc).1
        have hnonpos := repodataFlush_nonpos pkgs objs run.env repodir repoarch (some data.1)
          data.2 repo.idxmeta run.compression
        generalize repodataFlush pkgs objs run.env repodir repoarch (some data.1) data.2
          repo.idxmeta run.compression = res at h hflush hnonpos ⊢
        have hnneg : ¬ res.1 < 0 := by
          intro hneg
          rw [if_pos hneg] at h
          cases h
        obtain ⟨ar, har, repo', hread, hindex, -, hstage⟩ := hflush (by omega)
        have hopen' : repoOpen pkgs objs (some ar) = .ok repo' := by
          rw [repoOpen, hread]
        rw [har, Option.some_or, visibleIn, hopen']
        have hdata : committed repo.index stage = data := by rw [committed, hc, Option.getD_some]
        simp only [hindex, hstage]
        rw [← hdata]
        exact visible_committed pkgname

/-- No package that the file of the repository shows reverts a version. -/
def PlainFile (pkgs : Proplib PkgDict) (objs : Proplib μ) (file : Option Archive) : Prop :=
  ∀ pkgname, ∀ pkg ∈ visibleIn pkgs objs file pkgname, Plain pkg

/-- One run adds the offers of its files. -/
theorem greatest_indexAdd {file : Option Archive} {run : AddRun}
    (hplain : PlainFile pkgs objs file) (hrun : PlainRun pkgs objs repodir repoarch file run)
    (h : (indexAdd pkgs objs repodir repoarch file run).1 = exitSuccess) :
    PlainFile pkgs objs (indexAdd pkgs objs repodir repoarch file run).2 ∧
    ∀ {pkgname : Str} {offers : Str → Prop},
      CmpverPreorder
        (fun v => offers v ∨ ∃ f ∈ run.files, offer repoarch f = some (pkgname, v)) →
      Greatest VersionLe offers (versionIn pkgs objs file pkgname) →
      Greatest VersionLe
        (fun v => offers v ∨ ∃ f ∈ run.files, offer repoarch f = some (pkgname, v))
        (versionIn pkgs objs (indexAdd pkgs objs repodir repoarch file run).2 pkgname) := by
  obtain ⟨repo, stage, hopen, hadd, hvisible⟩ := indexAdd_succeeded hrun.sound h
  rw [hrun.force] at hadd
  have hbefore : PlainVisible repo.index repo.stage := by
    intro pkgname pkg hpkg
    refine hplain pkgname pkg ?_
    rw [visibleIn, hopen]
    exact hpkg
  obtain ⟨hafter, hgreatest⟩ := greatest_indexAddPkgs hadd hbefore hrun.plain
  refine ⟨fun pkgname pkg hpkg => ?_, fun {pkgname offers} hcmp hg => ?_⟩
  · rw [hvisible] at hpkg
    exact hafter pkgname pkg hpkg
  · rw [versionIn, hvisible]
    refine hgreatest hcmp ?_
    rw [versionIn, visibleIn, hopen] at hg
    exact hg

variable (pkgs objs repodir repoarch)

/-- A run as a step of the file. -/
def addStep (file : Option Archive) (run : AddRun) : Option (Option Archive) :=
  some (indexAdd pkgs objs repodir repoarch file run).2

/-- The file after some runs. -/
def afterRuns (file : Option Archive) : List AddRun → Option Archive
  | [] => file
  | run :: runs => afterRuns (indexAdd pkgs objs repodir repoarch file run).2 runs

/-- The files that are given in the runs that succeed. -/
def added (file : Option Archive) : List AddRun → List Binpkg
  | [] => []
  | run :: runs =>
    (if (indexAdd pkgs objs repodir repoarch file run).1 = exitSuccess then run.files else []) ++
      added (indexAdd pkgs objs repodir repoarch file run).2 runs

variable {pkgs objs repodir repoarch}

theorem greatest_afterRuns {runs : List AddRun} :
    ∀ {file : Option Archive}, PlainFile pkgs objs file →
      Along (addStep pkgs objs repodir repoarch) (PlainRun pkgs objs repodir repoarch) file runs →
      ∀ {pkgname : Str} {offers : Str → Prop},
        CmpverPreorder (fun v => offers v ∨
          ∃ f ∈ added pkgs objs repodir repoarch file runs, offer repoarch f = some (pkgname, v)) →
        Greatest VersionLe offers (versionIn pkgs objs file pkgname) →
        Greatest VersionLe
          (fun v => offers v ∨
            ∃ f ∈ added pkgs objs repodir repoarch file runs, offer repoarch f = some (pkgname, v))
          (versionIn pkgs objs (afterRuns pkgs objs repodir repoarch file runs) pkgname) := by
  induction runs with
  | nil =>
    intro file _ _ pkgname offers _ hg
    exact hg.congr fun v => by simp [added]
  | cons run runs ih =>
    intro file hplain hruns pkgname offers hcmp hg
    obtain ⟨hrun, hrest⟩ := hruns
    rw [added] at hcmp ⊢
    rw [afterRuns]
    by_cases h : (indexAdd pkgs objs repodir repoarch file run).1 = exitSuccess
    · obtain ⟨hplain', hgreatest⟩ := greatest_indexAdd hplain hrun h
      rw [if_pos h] at hcmp ⊢
      simp only [List.mem_append, or_and_right, exists_or, ← or_assoc] at hcmp ⊢
      exact ih hplain' hrest hcmp (hgreatest (hcmp.mono fun v hv => .inl hv) hg)
    · rw [if_neg h, List.nil_append] at hcmp ⊢
      have hrest' : Along (addStep pkgs objs repodir repoarch)
          (PlainRun pkgs objs repodir repoarch)
          (indexAdd pkgs objs repodir repoarch file run).2 runs := hrest
      rw [indexAdd_failed h] at hrest' hcmp ⊢
      exact ih hplain hrest' hcmp hg

/-- Two versions that compare as equal, or none. -/
def SameVersion : Option Str → Option Str → Prop
  | none, none => True
  | some v, some w => cmpver v w = 0
  | _, _ => False

theorem sameVersion_of_greatest {offers : Str → Prop} (hcmp : CmpverPreorder offers)
    {a b : Option Str} (ha : Greatest VersionLe offers a) (hb : Greatest VersionLe offers b) :
    SameVersion a b := by
  obtain ⟨hab, hba⟩ := ha.unique hb
  cases a with
  | none =>
    cases b with
    | none => trivial
    | some w =>
      obtain ⟨_, hv, -⟩ := hba w rfl
      cases hv
  | some v =>
    obtain ⟨w, hw, hle⟩ := hab v rfl
    cases hw
    obtain ⟨v', hv', hle'⟩ := hba w rfl
    cases hv'
    have hswap := hcmp.swap (ha.offered v rfl) (hb.offered w rfl)
    rw [VersionLe] at hle hle'
    change cmpver v w = 0
    omega

/-- A run that fails leaves the repository as it was, and after any runs a greatest version is
visible under every name: of the one that was visible before and of those that the files of the
successful runs offer.  Which one it is depends on these files only, up to versions that compare
as equal. -/
theorem indexAdd_newest {file : Option Archive} {runs : List AddRun}
    (hplain : PlainFile pkgs objs file)
    (hruns : Along (addStep pkgs objs repodir repoarch) (PlainRun pkgs objs repodir repoarch)
      file runs)
    (hcmp : ∀ pkgname, CmpverPreorder fun v => v ∈ versionIn pkgs objs file pkgname ∨
      ∃ f ∈ added pkgs objs repodir repoarch file runs, offer repoarch f = some (pkgname, v)) :
    (∀ file' run, (indexAdd pkgs objs repodir repoarch file' run).1 ≠ exitSuccess →
      (indexAdd pkgs objs repodir repoarch file' run).2 = file') ∧
    (∀ pkgname, Greatest VersionLe
      (fun v => v ∈ versionIn pkgs objs file pkgname ∨
        ∃ f ∈ added pkgs objs repodir repoarch file runs, offer repoarch f = some (pkgname, v))
      (versionIn pkgs objs (afterRuns pkgs objs repodir repoarch file runs) pkgname)) ∧
    ∀ runs', Along (addStep pkgs objs repodir repoarch) (PlainRun pkgs objs repodir repoarch)
        file runs' →
      (∀ f, f ∈ added pkgs objs repodir repoarch file runs' ↔
        f ∈ added pkgs objs repodir repoarch file runs) →
      ∀ pkgname, SameVersion
        (versionIn pkgs objs (afterRuns pkgs objs repodir repoarch file runs) pkgname)
        (versionIn pkgs objs (afterRuns pkgs objs repodir repoarch file runs') pkgname) := by
  have hstart : ∀ pkgname, Greatest VersionLe (· ∈ versionIn pkgs objs file pkgname)
      (versionIn pkgs objs file pkgname) :=
    fun pkgname => Greatest.start versionLe_refl (versionIn pkgs objs file pkgname)
  have hgreatest : ∀ pkgname, Greatest VersionLe _ _ := fun pkgname =>
    greatest_afterRuns hplain hruns (hcmp pkgname) (hstart pkgname)
  refine ⟨fun file' run => indexAdd_failed, hgreatest, ?_⟩
  intro runs' hruns' hsame pkgname
  refine sameVersion_of_greatest (hcmp pkgname) (hgreatest pkgname) ?_
  have hcmp' := hcmp pkgname
  simp only [← hsame] at hcmp' ⊢
  exact greatest_afterRuns hplain hruns' hcmp' (hstart pkgname)

end

/-! ### A file that cannot be read to its end -/

/-- A package of `a` for `x86_64`. -/
def aProps (pkgver : String) : PkgDict :=
  { pkgver := pkgver.toList, architecture := some "x86_64".toList }

/-- `a-2_1`, and `a-1_1`, once with a sha256 and once with one that cannot be computed (`EIO`). -/
def aGood : Binpkg := { props := some (aProps "a-2_1"), sha256 := .ok "feed".toList }
def aOlder : Binpkg := { props := some (aProps "a-1_1"), sha256 := .ok "beef".toList }
def aBad : Binpkg := { props := some (aProps "a-1_1"), sha256 := .error ⟨eio, eio_pos⟩ }

/-- The index with `a-2_1`. -/
def aIndex : Dict Str PkgDict :=
  ⟨[("a".toList, { aProps "a-2_1" with filenameSha256 := some "feed".toList })], by simp⟩

def aRun (files : List Binpkg) : AddRun := { files }

/-- The repository after `a-1_1` and `a-2_1` have been added to an empty one. -/
def aFile : Option Archive :=
  (indexAdd (onlyProplib aIndex) noProplib "/repo".toList "x86_64".toList none
    (aRun [aOlder, aGood])).2

theorem flushesSoundly_empty :
    FlushesSoundly (onlyProplib aIndex) noProplib "/repo".toList "x86_64".toList none
      (aRun [aOlder, aGood]) := by
  intro repo stage hopen hadd index' stage' hdata
  cases hopen
  have hloop : (indexAddPkgs "x86_64".toList Dict.empty false Dict.empty
      [aOlder, aGood]).toOption = some aIndex := by decide +kernel
  have hstage : (Except.ok stage : Except Failure _).toOption = some aIndex := by
    rw [← hadd]
    exact hloop
  obtain rfl := Option.some.inj hstage
  have hcommit : commitData Dict.empty aIndex = some (aIndex, none) := by decide +kernel
  obtain ⟨rfl, rfl⟩ := Prod.mk.inj (Option.some.inj (hcommit.symm.trans hdata))
  have hfile : serialise (onlyProplib aIndex) (some aIndex) = .ok "<plist/>".toList := by
    decide +kernel
  exact flushSound_of_serialises (by decide +kernel) hfile rfl rfl

/-- The older version is not added again, and nothing is flushed. -/
theorem flushesSoundly_aFile :
    FlushesSoundly (onlyProplib aIndex) noProplib "/repo".toList "x86_64".toList aFile
      (aRun [aOlder]) := by
  intro repo stage hopen hadd index' stage' hdata
  have hfile : (repoOpen (onlyProplib aIndex) noProplib aFile).toOption.map
      (fun repo => (repo.index, repo.stage)) = some (aIndex, Dict.empty) := by decide +kernel
  rw [hopen] at hfile
  obtain ⟨hindex, hstage⟩ := Prod.mk.inj (Option.some.inj hfile)
  have hloop : (indexAddPkgs "x86_64".toList aIndex false Dict.empty [aOlder]).toOption =
      some Dict.empty := by decide +kernel
  have hstage' : (Except.ok stage : Except Failure _).toOption = some Dict.empty := by
    rw [← hadd, hindex, hstage]
    exact hloop
  obtain rfl := Option.some.inj hstage'
  have hcommit : commitData aIndex Dict.empty = none := by decide +kernel
  rw [hindex, hcommit] at hdata
  cases hdata

/-- `a-1_1` and `a-2_1` are added to an empty repository, and `a-1_1` again. -/
theorem indexAdd_newest_aGood :
    (∀ pkgname, Greatest VersionLe
      (fun v => v ∈ versionIn (onlyProplib aIndex) noProplib none pkgname ∨
        ∃ f ∈ added (onlyProplib aIndex) noProplib "/repo".toList "x86_64".toList none
          [aRun [aOlder, aGood], aRun [aOlder]], offer "x86_64".toList f = some (pkgname, v))
      (versionIn (onlyProplib aIndex) noProplib (afterRuns (onlyProplib aIndex) noProplib
        "/repo".toList "x86_64".toList none [aRun [aOlder, aGood], aRun [aOlder]]) pkgname)) ∧
    versionIn (onlyProplib aIndex) noProplib (afterRuns (onlyProplib aIndex) noProplib
        "/repo".toList "x86_64".toList none [aRun [aOlder, aGood], aRun [aOlder]]) "a".toList =
      some "a-2_1".toList := by
  have hplain : PlainFile (onlyProplib aIndex) noProplib none := by
    intro pkgname pkg hpkg
    cases hpkg
  have hfiles : ∀ f ∈ [aOlder, aGood], ∀ pkg ∈ f.props,
      pkg.reverts.getD [] = [] ∧ SmallVersion pkg.pkgver := by decide +kernel
  have hruns : Along
      (addStep (onlyProplib aIndex) noProplib "/repo".toList "x86_64".toList)
      (PlainRun (onlyProplib aIndex) noProplib "/repo".toList "x86_64".toList) none
      [aRun [aOlder, aGood], aRun [aOlder]] := by
    refine ⟨⟨rfl, fun f hf pkg hp => (hfiles f hf pkg hp).1, flushesSoundly_empty⟩,
      ⟨rfl, fun f hf pkg hp => (hfiles f ?_ pkg hp).1, flushesSoundly_aFile⟩, trivial⟩
    rw [List.mem_singleton.mp hf]
    exact List.mem_cons_self
  -- every version that is offered is that of one of the two files
  have hsmall : ∀ pkgname v, (v ∈ versionIn (onlyProplib aIndex) noProplib none pkgname ∨
      ∃ f ∈ added (onlyProplib aIndex) noProplib "/repo".toList "x86_64".toList none
        [aRun [aOlder, aGood], aRun [aOlder]], offer "x86_64".toList f = some (pkgname, v)) →
      SmallVersion v := by
    rintro pkgname v (hv | ⟨f, hf, hoffer⟩)
    · cases hv
    · have hadded : added (onlyProplib aIndex) noProplib "/repo".toList "x86_64".toList none
          [aRun [aOlder, aGood], aRun [aOlder]] ⊆ [aOlder, aGood] := by
        simp only [added, List.append_nil]
        split_ifs <;> simp [aRun]
      obtain ⟨binpkgd, hp, h⟩ := Option.bind_eq_some_iff.mp hoffer
      split at h
      · obtain ⟨n, -, heq⟩ := Option.map_eq_some_iff.mp h
        rw [← (Prod.mk.inj heq).2]
        exact (hfiles f (hadded hf) binpkgd hp).2
      · cases h
  exact ⟨(indexAdd_newest hplain hruns fun pkgname => cmpverPreorder_of_comparable fun v w hv hw =>
    comparable_of_small (hsmall pkgname v hv) (hsmall pkgname w hw)).2.1, by decide +kernel⟩

/-- The visible versions after one run are greatest ones, whether it succeeds or not. -/
def AddsNewest {μ : Type} (pkgs : Proplib PkgDict) (objs : Proplib μ) (repodir repoarch : Str)
    (file : Option Archive) (run : AddRun) : Prop :=
  ∀ pkgname, Greatest VersionLe
    (fun v => v ∈ versionIn pkgs objs file pkgname ∨
      ∃ f ∈ run.files, offer repoarch f = some (pkgname, v))
    (versionIn pkgs objs (indexAdd pkgs objs repodir repoarch file run).2 pkgname)

/-- Behind `a-2_1` the file of `a-1_1` is not read to its end, before it, it ends the run: what
is visible depends on the order, and is not the greatest version. -/
theorem indexAdd_ordered :
    versionIn (onlyProplib aIndex) noProplib (indexAdd (onlyProplib aIndex) noProplib
        "/repo".toList "x86_64".toList none (aRun [aGood, aBad])).2 "a".toList =
      some "a-2_1".toList ∧
    versionIn (onlyProplib aIndex) noProplib (indexAdd (onlyProplib aIndex) noProplib
        "/repo".toList "x86_64".toList none (aRun [aBad, aGood])).2 "a".toList = none ∧
    ¬ AddsNewest (onlyProplib aIndex) noProplib "/repo".toList "x86_64".toList none
      (aRun [aBad, aGood]) := by
  have hnone : versionIn (onlyProplib aIndex) noProplib (indexAdd (onlyProplib aIndex) noProplib
      "/repo".toList "x86_64".toList none (aRun [aBad, aGood])).2 "a".toList = none := by
    decide +kernel
  refine ⟨by decide +kernel, hnone, fun h => ?_⟩
  obtain ⟨v, hv, -⟩ := (h "a".toList).covers "a-2_1".toList
    (Or.inr ⟨aGood, by simp [aRun], by decide +kernel⟩)
  rw [hnone] at hv
  cases hv

end Flappy.Rindex
