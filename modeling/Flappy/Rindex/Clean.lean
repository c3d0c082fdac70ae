/-
Cleaning the index of a repository (`bin/flappy-rindex/index-clean.c`).

The keys of the index and of the stage are visited in parallel.  The callback does not get
the entry of the dictionary that is cleaned, but that of the merged dictionary of the
repository, which is the one of the stage where there are two.

* `idxCleanerCb_spec` — one call, for a key whose visible package is well formed;
* `clean_get` — what is left of a dictionary, whatever the threads do;
* `indexClean_own_iff` — every entry is judged by its own file, if and only if the files of
  the two versions of a package are always both good or both bad.
-/
import Flappy.Rindex.Add
import Flappy.Foreach

open CStr

namespace Flappy.Rindex

open Foreach

/-! ### The functions -/

/-- The threads of one iteration. -/
structure Threads where
  create : Nat → Bool := fun _ => true
  join : Nat → Bool := fun _ => true
  schedule : List Nat := []

/-- A run of `index_clean`, and what it meets. -/
structure CleanRun where
  hashcheck : Bool := false
  compression : Option Str := none
  lockFails : Bool := false
  openFails : Bool := false
  /-- `access (path, R_OK) == 0`. -/
  access : Str → Bool
  /-- `flappy_file_sha256_raw`. -/
  digest : Str → Option Digest := fun _ => none
  nprocs : Int := 1
  index : Threads := {}
  stage : Threads := {}
  env : FlushEnv := {}

section
variable (repodir : Str) (run : CleanRun)

/-- The file of a package; a missing architecture prints as `(null)`. -/
def cleanPath (obj : PkgDict) : Str :=
  binpkgFile repodir obj.pkgver (obj.architecture.getD "(null)".toList)

/-- The end of `idx_cleaner_cb` that removes the package. -/
def removePkg (obj : PkgDict) (dict : Dict Str PkgDict) :
    Int × Bool × Option (Dict Str PkgDict) :=
  match pkgName obj.pkgver with
  | none => (-einval, false, some dict)
  | some pkgname => (0, false, some (dict.erase pkgname))

/-- `idx_cleaner_cb` for a key; the dictionary of the context is `none` after an assertion has
failed, that a package has a `pkgver` or a `filename-sha256`. -/
def idxCleanerCb (idx : Dict Str PkgDict) : Callback Str (Option (Dict Str PkgDict)) :=
  fun ctx key =>
    match ctx, idx.get key with
    | none, _ => (0, false, none)
    | some _, none => (0, false, none)
    | some dict, some obj =>
      let path := cleanPath repodir obj
      if pathMax ≤ path.length then (-enametoolong, false, some dict)
      else if run.access path = false then removePkg obj dict
      else if run.hashcheck = false then (0, false, some dict)
      else
        match obj.filenameSha256 with
        | none => (0, false, none)
        | some sha256 =>
          match run.digest path with
          | none => removePkg obj dict
          | some digest =>
            if sha256DigestCompare sha256 digest then (0, false, some dict)
            else removePkg obj dict

/-- `repo->idx`, as `flappy_repo_open` sets it for a local repository. -/
def repoIdx {μ : Type} (repo : Repodata μ) : Dict Str PkgDict :=
  if dictionaryCount (some repo.stage) = 0 then repo.index else repo.index.merge repo.stage

/-- One pass of `cleanup_repo`. -/
def cleanPass (idx dict : Dict Str PkgDict) (threads : Threads) :
    Option (Iteration (Option (Dict Str PkgDict))) :=
  foreachCbMulti isInternal (idxCleanerCb repodir run idx) dict.keys (some dict) run.nprocs
    threads.create threads.join threads.schedule

/-- What `cleanup_repo` leaves of the index and of the stage; `none` inside after a failed
assertion. -/
def cleanupData {μ : Type} (repo : Repodata μ) :
    Option (Option (Dict Str PkgDict × Dict Str PkgDict)) :=
  match cleanPass repodir run (repoIdx repo) repo.index run.index with
  | none => none
  | some it₁ =>
    match it₁.arg with
    | none => some none
    | some index =>
      match cleanPass repodir run (repoIdx repo) repo.stage run.stage with
      | none => none
      | some it₂ => some (it₂.arg.map fun stage => (index, stage))

def exitAbort : Int := 134

variable {μ : Type} (pkgs : Proplib PkgDict) (objs : Proplib μ) (repoarch : Str)

/-- `cleanup_repo`: the result, and the file that is installed. -/
def cleanupRepo (repo : Repodata μ) (index stage : Dict Str PkgDict) : Int × Option Archive :=
  if index = repo.index ∧ stage = repo.stage then (0, none)
  else
    repodataFlush pkgs objs run.env repodir repoarch (some index) (some stage) repo.idxmeta
      run.compression

/-- `index_clean`, on a repository file: the exit code, and the file afterwards.  `none` is a
schedule in which not all threads return. -/
def indexClean (file : Option Archive) : Option (Int × Option Archive) :=
  if run.lockFails then some (exitFailure, file)
  else
    match file with
    | none => some (exitSuccess, none)
    | some ar =>
      if run.openFails then some (exitFailure, file)
      else
        match repoRead pkgs objs ar.headers with
        | .error r => some (if r = -enoent then exitSuccess else exitFailure, file)
        | .ok repo =>
          match cleanupData repodir run repo with
          | none => none
          | some none => some (exitAbort, file)
          | some (some (index, stage)) =>
            let (r, new) := cleanupRepo repodir run pkgs objs repoarch repo index stage
            some (if r ≠ 0 then exitFailure else exitSuccess, new.or file)

end

/-! ### One call -/

section
variable {repodir : Str} {run : CleanRun}

/-- The file of a package is readable and, if hashes are checked, has its sha256. -/
def fileGood (repodir : Str) (run : CleanRun) (obj : PkgDict) : Bool :=
  decide ((cleanPath repodir obj).length < pathMax) && run.access (cleanPath repodir obj) &&
    (!run.hashcheck ||
      match obj.filenameSha256, run.digest (cleanPath repodir obj) with
      | some sha256, some digest => sha256DigestCompare sha256 digest
      | _, _ => false)

/-- A package with a path that fits, with a hash if one is compared, and under its own name if
it is to be removed. -/
structure EntryWellFormed (repodir : Str) (run : CleanRun) (key : Str) (obj : PkgDict) : Prop where
  notInternal : isInternal key = false
  path : (cleanPath repodir obj).length < pathMax
  hash : run.hashcheck = true → run.access (cleanPath repodir obj) = true →
    obj.filenameSha256.isSome
  named : fileGood repodir run obj = false → pkgName obj.pkgver = some key

theorem EntryWellFormed.removePkg {key : Str} {obj : PkgDict}
    (h : EntryWellFormed repodir run key obj) (hbad : fileGood repodir run obj = false)
    (dict : Dict Str PkgDict) :
    Rindex.removePkg obj dict =
      (0, false, some (if fileGood repodir run obj then dict else dict.erase key)) := by
  rw [Rindex.removePkg, h.named hbad, hbad]
  rfl

theorem idxCleanerCb_spec {idx dict : Dict Str PkgDict} {key : Str} {obj : PkgDict}
    (hobj : idx.get key = some obj) (hwf : EntryWellFormed repodir run key obj) :
    idxCleanerCb repodir run idx (some dict) key =
      (0, false, some (if fileGood repodir run obj then dict else dict.erase key)) := by
  have hpath : ¬ pathMax ≤ (cleanPath repodir obj).length := Nat.not_le.mpr hwf.path
  simp only [idxCleanerCb, hobj, if_neg hpath]
  cases hacc : run.access (cleanPath repodir obj) with
  | false =>
    have hbad : fileGood repodir run obj = false := by simp [fileGood, hacc]
    simp [hwf.removePkg hbad]
  | true =>
    cases hhash : run.hashcheck with
    | false =>
      have hgood : fileGood repodir run obj = true := by
        simp [fileGood, hwf.path, hacc, hhash]
      simp [hgood]
    | true =>
      obtain ⟨sha256, hsha⟩ := Option.isSome_iff_exists.mp (hwf.hash hhash hacc)
      cases hdig : run.digest (cleanPath repodir obj) with
      | none =>
        have hbad : fileGood repodir run obj = false := by simp [fileGood, hhash, hdig]
        simp [hsha, hwf.removePkg hbad]
      | some digest =>
        have hgood : fileGood repodir run obj = sha256DigestCompare sha256 digest := by
          simp [fileGood, hwf.path, hacc, hhash, hsha, hdig]
        cases hcmp : sha256DigestCompare sha256 digest with
        | true => simp [hsha, hcmp, hgood]
        | false => simp [hsha, hcmp, hwf.removePkg (hgood.trans hcmp)]

theorem quiet_idxCleanerCb (idx : Dict Str PkgDict) : Quiet (idxCleanerCb repodir run idx) := by
  have hremove : ∀ obj dict, (removePkg obj dict).2.1 = false := by
    intro obj dict
    rw [removePkg]
    split <;> rfl
  intro ctx key
  unfold idxCleanerCb
  split
  · rfl
  · rfl
  · simp only
    repeat' split
    all_goals first
      | rfl
      | exact hremove _ _

/-! ### One dictionary -/

/-- The package that is visible under a key is removed. -/
def dropped (repodir : Str) (run : CleanRun) (idx : Dict Str PkgDict) (key : Str) : Bool :=
  (idx.get key).any fun obj => !fileGood repodir run obj

/-- The threads of an iteration over `count` keys: all that are wanted can be created, or the
single-threaded routine is used. -/
structure ThreadsComplete (run : CleanRun) (keys : List Str) (threads : Threads) : Prop where
  fit : ThreadsFit keys.length run.nprocs threads.create
  complete : Single keys.length run.nprocs threads.create ∨
    NothingLost keys isInternal run.nprocs threads.create

/-- What has been cleaned when these calls have been made. -/
structure Cleaned (repodir : Str) (run : CleanRun) (idx dict : Dict Str PkgDict)
    (ctx : Option (Dict Str PkgDict)) (calls : List (Nat × Int)) : Prop where
  zero : AllZero calls
  state : ∃ left, ctx = some left ∧
    (∀ c ∈ calls, ∀ key, dict.keys[c.1]? = some key → dropped repodir run idx key = true →
      left.get key = none) ∧
    (∀ key, left.get key = dict.get key ∨
      (left.get key = none ∧ dropped repodir run idx key = true))

theorem cleaned_start (idx dict : Dict Str PkgDict) :
    Cleaned repodir run idx dict (some dict) [] :=
  ⟨fun c hc => (by cases hc), dict, rfl, fun c hc => (by cases hc), fun _ => Or.inl rfl⟩

theorem cleaned_call {idx dict : Dict Str PkgDict} {ctx : Option (Dict Str PkgDict)}
    {calls : List (Nat × Int)} {i : Nat} {key : Str} {obj : PkgDict}
    (hkey : dict.keys[i]? = some key) (hobj : idx.get key = some obj)
    (hwf : EntryWellFormed repodir run key obj) (h : Cleaned repodir run idx dict ctx calls) :
    Cleaned repodir run idx dict (idxCleanerCb repodir run idx ctx key).2.2
      (calls ++ [(i, (idxCleanerCb repodir run idx ctx key).1)]) := by
  obtain ⟨hzero, left, rfl, hcalls, hleft⟩ := h
  rw [idxCleanerCb_spec hobj hwf]
  have hdrop : dropped repodir run idx key = !fileGood repodir run obj := by
    rw [dropped, hobj, Option.any_some]
  -- the call drops its own key and no other one
  have hget : ∀ key', (if fileGood repodir run obj then left else left.erase key).get key' =
      if key' = key ∧ dropped repodir run idx key = true then none else left.get key' := by
    intro key'
    rw [hdrop]
    by_cases hgood : fileGood repodir run obj = true
    · simp [hgood]
    · rw [if_neg hgood]
      by_cases hk : key' = key
      · subst hk
        simp [hgood]
      · rw [Dict.get_erase_ne left hk]
        simp [hk]
  refine ⟨fun c hc => ?_, _, rfl, fun c hc key' hkey' hd => ?_, fun key' => ?_⟩
  · rcases List.mem_append.mp hc with hc | hc
    · exact hzero c hc
    · rw [List.mem_singleton.mp hc]
  · rw [hget]
    rcases List.mem_append.mp hc with hc | hc
    · split
      · rfl
      · exact hcalls c hc key' hkey' hd
    · rw [List.mem_singleton.mp hc] at hkey'
      rw [hkey] at hkey'
      cases hkey'
      rw [if_pos ⟨rfl, hd⟩]
  · rw [hget]
    split
    · next hk => exact Or.inr ⟨rfl, hk.1 ▸ hk.2⟩
    · exact hleft key'

/-- A pass removes every entry whose visible package is not good, and nothing else. -/
theorem clean_get {idx dict : Dict Str PkgDict} {threads : Threads}
    (hwf : ∀ key ∈ dict.keys, ∃ obj, idx.get key = some obj ∧
      EntryWellFormed repodir run key obj)
    (hthreads : ThreadsComplete run dict.keys threads)
    {it : Iteration (Option (Dict Str PkgDict))}
    (h : cleanPass repodir run idx dict threads = some it) :
    ∃ left, it.arg = some left ∧ ∀ key, left.get key =
      if dropped repodir run idx key then none else dict.get key := by
  have hcleaned := foreachCbMulti_keeps (P := Cleaned repodir run idx dict)
    (fun ctx calls i key hkey _ hc => by
      obtain ⟨obj, hobj, hobjwf⟩ := hwf key (List.mem_of_getElem? hkey)
      exact cleaned_call hkey hobj hobjwf hc)
    (cleaned_start idx dict) h
  obtain ⟨hzero, left, harg, hcalls, hleft⟩ := hcleaned
  have hperm := perm_elements hthreads.fit hthreads.complete (quiet_idxCleanerCb idx) h hzero
  refine ⟨left, harg, fun key => ?_⟩
  by_cases hd : dropped repodir run idx key = true
  swap
  · rw [if_neg hd]
    exact (hleft key).resolve_right fun hn => hd hn.2
  rw [if_pos hd]
  -- every key of the pass has had its call
  by_cases hmem : key ∈ dict.keys
  · obtain ⟨j, hj⟩ := List.mem_iff_getElem?.mp hmem
    obtain ⟨obj, -, hobjwf⟩ := hwf key hmem
    have hel : j ∈ it.calls.map Prod.fst :=
      hperm.mem_iff.mpr (mem_elements_iff.mpr ⟨key, hj, hobjwf.notInternal⟩)
    obtain ⟨c, hc, rfl⟩ := List.mem_map.mp hel
    exact hcalls c hc key hj hd
  · obtain hl | hl := hleft key
    · rw [hl]
      exact Dict.get_eq_none_iff.mpr hmem
    · exact hl.1

end

/-! ### The whole repository -/

section
variable {μ : Type} {repodir : Str} {run : CleanRun}

theorem get_repoIdx (repo : Repodata μ) (key : Str) :
    (repoIdx repo).get key = visible repo.index repo.stage key := by
  rw [repoIdx]
  split
  · next h =>
    rw [visible, dictionaryCount_eq_zero.mp h]
    rfl
  · exact get_merge_eq_visible key

/-- Every visible package is well formed. -/
def RepoWellFormed (repodir : Str) (run : CleanRun) (repo : Repodata μ) : Prop :=
  ∀ key obj, visible repo.index repo.stage key = some obj → EntryWellFormed repodir run key obj

/-- Every entry of the index and of the stage is there afterwards if and only if its own file is
good. -/
def CleansOwn (repodir : Str) (run : CleanRun) (repo repo' : Repodata μ) : Prop :=
  (∀ key obj, repo.index.get key = some obj →
    (repo'.index.get key = some obj ↔ fileGood repodir run obj = true)) ∧
  (∀ key obj, repo.stage.get key = some obj →
    (repo'.stage.get key = some obj ↔ fileGood repodir run obj = true))

/-- Where there are two versions of a package, their files are both good or both bad. -/
def SameVerdicts (repodir : Str) (run : CleanRun) (repo : Repodata μ) : Prop :=
  ∀ key old new, repo.index.get key = some old → repo.stage.get key = some new →
    fileGood repodir run old = fileGood repodir run new

/-- The keys of both dictionaries are visible. -/
theorem exists_visible {repo : Repodata μ} {key : Str}
    (h : key ∈ repo.index.keys ∨ key ∈ repo.stage.keys) :
    ∃ obj, visible repo.index repo.stage key = some obj := by
  cases hs : repo.stage.get key with
  | some obj => exact ⟨obj, by rw [visible, hs, Option.some_or]⟩
  | none =>
    obtain h | h := h
    · obtain ⟨obj, hobj⟩ := Dict.mem_keys_iff.mp h
      exact ⟨obj, by rw [visible, hs, Option.none_or, hobj]⟩
    · exact absurd h (Dict.get_eq_none_iff.mp hs)

theorem cleanupData_get {repo : Repodata μ} (hwf : RepoWellFormed repodir run repo)
    (hindex : ThreadsComplete run repo.index.keys run.index)
    (hstage : ThreadsComplete run repo.stage.keys run.stage)
    {data : Option (Dict Str PkgDict × Dict Str PkgDict)}
    (h : cleanupData repodir run repo = some data) :
    ∃ index stage, data = some (index, stage) ∧
      (∀ key, index.get key =
        if dropped repodir run (repoIdx repo) key then none else repo.index.get key) ∧
      ∀ key, stage.get key =
        if dropped repodir run (repoIdx repo) key then none else repo.stage.get key := by
  have hentry : ∀ key, (key ∈ repo.index.keys ∨ key ∈ repo.stage.keys) →
      ∃ obj, (repoIdx repo).get key = some obj ∧ EntryWellFormed repodir run key obj := by
    intro key hkey
    obtain ⟨obj, hobj⟩ := exists_visible hkey
    exact ⟨obj, (get_repoIdx repo key).trans hobj, hwf key obj hobj⟩
  rw [cleanupData] at h
  cases h1 : cleanPass repodir run (repoIdx repo) repo.index run.index with
  | none =>
    rw [h1] at h
    cases h
  | some it₁ =>
    obtain ⟨index, harg₁, hget₁⟩ := clean_get (fun key hkey => hentry key (Or.inl hkey)) hindex h1
    simp only [h1, harg₁] at h
    cases h2 : cleanPass repodir run (repoIdx repo) repo.stage run.stage with
    | none =>
      rw [h2] at h
      cases h
    | some it₂ =>
      obtain ⟨stage, harg₂, hget₂⟩ :=
        clean_get (fun key hkey => hentry key (Or.inr hkey)) hstage h2
      rw [h2] at h
      cases h
      exact ⟨index, stage, by rw [harg₂]; rfl, hget₁, hget₂⟩

/-- A judgement by the visible package is one by the own file, if and only if two versions get
the same. -/
theorem cleansOwn_iff {repo repo' : Repodata μ}
    (hindex : ∀ key, repo'.index.get key =
      if dropped repodir run (repoIdx repo) key then none else repo.index.get key)
    (hstage : ∀ key, repo'.stage.get key =
      if dropped repodir run (repoIdx repo) key then none else repo.stage.get key) :
    CleansOwn repodir run repo repo' ↔ SameVerdicts repodir run repo := by
  have hkept : ∀ key obj (dict : Option PkgDict), dict = some obj →
      ((if dropped repodir run (repoIdx repo) key then none else dict) = some obj ↔
        dropped repodir run (repoIdx repo) key = false) := by
    rintro key obj _ rfl
    cases dropped repodir run (repoIdx repo) key <;> simp
  have hdropped : ∀ key obj, visible repo.index repo.stage key = some obj →
      (dropped repodir run (repoIdx repo) key = false ↔ fileGood repodir run obj = true) := by
    intro key obj hobj
    rw [dropped, get_repoIdx, hobj, Option.any_some]
    cases fileGood repodir run obj <;> simp
  constructor
  · rintro ⟨hown, -⟩ key old new hold hnew
    have hv : visible repo.index repo.stage key = some new := by
      rw [visible, hnew, Option.some_or]
    have h := hown key old hold
    rw [hindex, hkept key old _ hold, hdropped key new hv] at h
    exact Bool.eq_iff_iff.mpr h.symm
  · intro hsame
    refine ⟨fun key obj hobj => ?_, fun key obj hobj => ?_⟩
    · rw [hindex, hkept key obj _ hobj]
      -- an entry of the index is judged by the file of the staged one
      cases hs : repo.stage.get key with
      | none => exact hdropped key obj (by rw [visible, hs, Option.none_or, hobj])
      | some new =>
        rw [hdropped key new (by rw [visible, hs, Option.some_or]), hsame key obj new hobj hs]
    · rw [hstage, hkept key obj _ hobj]
      exact hdropped key obj (by rw [visible, hobj, Option.some_or])

variable {pkgs : Proplib PkgDict} {objs : Proplib μ} {repoarch : Str}

/-- A run that succeeds leaves the cleaned dictionaries in the file. -/
theorem indexClean_succeeded {ar : Archive} {repo : Repodata μ} {file' : Option Archive}
    (hread : repoRead pkgs objs ar.headers = .ok repo)
    (hsound : ∀ index stage, cleanupData repodir run repo = some (some (index, stage)) →
      ¬ (index = repo.index ∧ stage = repo.stage) →
      FlushSound pkgs objs run.env repodir repoarch (some index) (some stage) repo.idxmeta
        run.compression)
    (h : indexClean repodir run pkgs objs repoarch (some ar) = some (exitSuccess, file')) :
    ∃ index stage repo', cleanupData repodir run repo = some (some (index, stage)) ∧
      repoOpen pkgs objs file' = .ok repo' ∧ repo'.index = index ∧ repo'.stage = stage := by
  rw [indexClean] at h
  by_cases hlock : run.lockFails = true
  · rw [if_pos hlock] at h
    cases h
  rw [if_neg hlock] at h
  simp only at h
  by_cases hopen : run.openFails = true
  · rw [if_pos hopen] at h
    cases h
  rw [if_neg hopen, hread] at h
  simp only at h
  cases hdata : cleanupData repodir run repo with
  | none =>
    rw [hdata] at h
    cases h
  | some data =>
    cases data with
    | none =>
      rw [hdata] at h
      cases h
    | some data =>
      obtain ⟨index, stage⟩ := data
      simp only [hdata] at h
      generalize hres : cleanupRepo repodir run pkgs objs repoarch repo index stage = res at h
      rw [cleanupRepo] at hres
      refine ⟨index, stage, ?_⟩
      by_cases hsame : index = repo.index ∧ stage = repo.stage
      · rw [if_pos hsame] at hres
        subst hres
        cases h
        refine ⟨repo, rfl, ?_, hsame.1.symm, hsame.2.symm⟩
        rw [Option.none_or, repoOpen, hread]
      · rw [if_neg hsame] at hres
        have hflush := (hsound index stage hdata hsame).1
        rw [hres] at hflush
        by_cases hr : res.1 ≠ 0
        · rw [if_pos hr] at h
          cases h
        · obtain ⟨ar', har, repo', hread', hindex, -, hstage⟩ := hflush (not_not.mp hr)
          rw [if_neg hr, har, Option.some_or] at h
          cases h
          exact ⟨repo', rfl, by rw [repoOpen, hread'], hindex, hstage⟩

/-- Every entry is judged by its own file, if and only if the files of two versions of a package
are always both good or both bad. -/
theorem indexClean_own_iff {ar : Archive} {repo : Repodata μ} {file' : Option Archive}
    (hread : repoRead pkgs objs ar.headers = .ok repo)
    (hwf : RepoWellFormed repodir run repo)
    (hindex : ThreadsComplete run repo.index.keys run.index)
    (hstage : ThreadsComplete run repo.stage.keys run.stage)
    (hsound : ∀ index stage, cleanupData repodir run repo = some (some (index, stage)) →
      ¬ (index = repo.index ∧ stage = repo.stage) →
      FlushSound pkgs objs run.env repodir repoarch (some index) (some stage) repo.idxmeta
        run.compression)
    (h : indexClean repodir run pkgs objs repoarch (some ar) = some (exitSuccess, file')) :
    (∃ repo', repoOpen pkgs objs file' = .ok repo' ∧ CleansOwn repodir run repo repo') ↔
      SameVerdicts repodir run repo := by
  obtain ⟨index, stage, repo', hdata, hopen, rfl, rfl⟩ := indexClean_succeeded hread hsound h
  obtain ⟨index, stage, hpair, hget₁, hget₂⟩ := cleanupData_get hwf hindex hstage hdata
  cases hpair
  have hiff := cleansOwn_iff hget₁ hget₂
  constructor
  · rintro ⟨repo₂, hopen₂, hown⟩
    rw [hopen] at hopen₂
    cases hopen₂
    exact hiff.mp hown
  · exact fun hsame => ⟨repo', hopen, hiff.mpr hsame⟩

end

/-! ### Two versions of one package -/

/-- A proplib that knows two dictionaries. -/
def twoProplib (one two : Dict Str PkgDict) : Proplib PkgDict where
  externalize d :=
    if d = one then .ok "<one/>".toList else if d = two then .ok "<two/>".toList else .error 12
  internalize buf :=
    if buf = "<one/>".toList then .ok one
    else if buf = "<two/>".toList then .ok two else .error einval
  internalize_externalize := by
    intro d buf h
    by_cases h1 : d = one
    · rw [if_pos h1] at h
      cases h
      rw [if_pos rfl, h1]
    · rw [if_neg h1] at h
      by_cases h2 : d = two
      · rw [if_pos h2] at h
        cases h
        rw [if_neg (by decide), if_pos rfl, h2]
      · rw [if_neg h2] at h
        cases h
  externalize_text := by
    intro d buf h
    by_cases h1 : d = one
    · rw [if_pos h1] at h
      cases h
      decide
    · rw [if_neg h1] at h
      by_cases h2 : d = two
      · rw [if_pos h2] at h
        cases h
        decide
      · rw [if_neg h2] at h
        cases h

/-- `a-1_1` in the index and `a-2_1` in the stage. -/
def aOld : Dict Str PkgDict := ⟨[("a".toList, aProps "a-1_1")], by simp⟩
def aNew : Dict Str PkgDict := ⟨[("a".toList, aProps "a-2_1")], by simp⟩
def aRepo : Repodata Empty := ⟨aOld, none, aNew⟩

def aArchive : Archive :=
  [(repodataIndex, "<one/>".toList), (repodataMeta, []), (repodataStage, "<two/>".toList)]

theorem aArchive_read :
    repoRead (twoProplib aOld aNew) noProplib aArchive.headers = .ok aRepo := rfl

/-- A run that finds the files for which `access` is true. -/
def accessRun (access : Str → Bool) : CleanRun := { access }

theorem aRepo_wellFormed (access : Str → Bool) :
    RepoWellFormed "/repo".toList (accessRun access) aRepo := by
  intro key obj hobj
  by_cases hk : key = "a".toList
  · subst hk
    cases hobj
    exact ⟨by decide, by decide +kernel, fun h => (by cases h), fun _ => (by decide)⟩
  · have hnone : ∀ pkgd, (⟨[("a".toList, pkgd)], by simp⟩ : Dict Str PkgDict).get key = none := by
      intro pkgd
      rw [Dict.get_eq_none_iff]
      simpa [Dict.keys] using hk
    rw [visible, show aRepo.stage.get key = none from hnone _,
      show aRepo.index.get key = none from hnone _] at hobj
    cases hobj

/-- Neither file is there, and both entries are removed. -/
theorem indexClean_own_gone :
    ∃ repo', repoOpen (twoProplib aOld aNew) noProplib
        (some [(repodataIndex, []), (repodataMeta, []), (repodataStage, [])]) = .ok repo' ∧
      CleansOwn "/repo".toList (accessRun fun _ => false) aRepo repo' := by
  have hsingle : ∀ keys threads, ThreadsComplete (accessRun fun _ => false) keys threads := by
    intro keys threads
    have hone : Single keys.length (accessRun fun _ => false).nprocs threads.create :=
      Or.inl (Int.le_refl 1)
    exact ⟨fun h => absurd hone h, Or.inl hone⟩
  have hrun : indexClean "/repo".toList (accessRun fun _ => false) (twoProplib aOld aNew)
      noProplib "x86_64".toList (some aArchive) =
        some (exitSuccess, some [(repodataIndex, []), (repodataMeta, []), (repodataStage, [])]) := by
    decide +kernel
  refine (indexClean_own_iff aArchive_read (aRepo_wellFormed _) (hsingle _ _) (hsingle _ _) ?_
    hrun).mpr ?_
  · intro index stage hdata _
    have hboth : cleanupData "/repo".toList (accessRun fun _ => false) aRepo =
        some (some (Dict.empty, Dict.empty)) := by decide +kernel
    rw [hboth] at hdata
    cases hdata
    exact flushSound_of_serialises (by decide +kernel) rfl rfl rfl
  · intro key old new _ _
    simp [fileGood, accessRun]

/-- Only the file of `a-2_1` is there: the entry of `a-1_1` stays in the index. -/
theorem indexClean_not_own :
    indexClean "/repo".toList
        (accessRun fun path => path = "/repo/a-2_1.x86_64.flappy".toList)
        (twoProplib aOld aNew) noProplib "x86_64".toList (some aArchive) =
      some (exitSuccess, some aArchive) ∧
    ¬ CleansOwn "/repo".toList (accessRun fun path => path = "/repo/a-2_1.x86_64.flappy".toList)
      aRepo aRepo := by
  refine ⟨by decide +kernel, fun h => ?_⟩
  have hgood := (h.1 "a".toList (aProps "a-1_1") rfl).mp rfl
  exact absurd hgood (by decide +kernel)

end Flappy.Rindex
