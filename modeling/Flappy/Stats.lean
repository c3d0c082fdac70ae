/-
The numbers of a prepared transaction (`compute_transaction_stats`).

All sizes are read through one variable, `tsize`.  A dictionary without the property
leaves it alone, so the size that was read before counts once more.  What an update
replaces is looked up in the package database under the pkgver of the new version,
which finds nothing there.

* `statsLoop_tracks` — the sums of the loop are those of the reads it does;
* `computeTransactionStats_iff` — when the sizes that are stored are the right ones.
-/
import Flappy.Fetch
import Flappy.Ops
import Flappy.Lib.Scratch

open CStr

namespace Flappy

open Scratch

/-! ### The loop -/

/-- `uint64_t`. -/
def uint64 (n : Nat) : Nat := n % 2 ^ 64

/-- The variables of `compute_transaction_stats`; `download` has the entries that get the
property of this name, the latest one first. -/
structure Stats where
  tsize : Nat := 0
  dlsize : Nat := 0
  instsize : Nat := 0
  rmsize : Nat := 0
  instPkgcnt : Nat := 0
  upPkgcnt : Nat := 0
  cfPkgcnt : Nat := 0
  rmPkgcnt : Nat := 0
  dlPkgcnt : Nat := 0
  holdPkgcnt : Nat := 0
  download : List PkgDict := []
deriving DecidableEq, Repr

/-- Count the entry. -/
def Stats.count (s : Stats) : TransType → Stats
  | .remove => { s with rmPkgcnt := s.rmPkgcnt + 1 }
  | .configure => { s with cfPkgcnt := s.cfPkgcnt + 1 }
  | .install | .reinstall => { s with instPkgcnt := s.instPkgcnt + 1 }
  | .update => { s with upPkgcnt := s.upPkgcnt + 1 }
  | .hold => { s with holdPkgcnt := s.holdPkgcnt + 1 }
  | .unknown | .download => s

/-- `flappy_dictionary_get_uint64` into `tsize`. -/
def Stats.read (s : Stats) (size : Option Nat) : Stats := { s with tsize := size.getD s.tsize }

/-- The file has to be downloaded. -/
def Stats.addDownload (s : Stats) (obj : PkgDict) : Stats :=
  let s := s.read obj.filenameSize
  let tsize := uint64 (s.tsize + 512)
  { s with tsize, dlsize := uint64 (s.dlsize + tsize), dlPkgcnt := s.dlPkgcnt + 1,
           download := obj :: s.download }

/-- The entry will be installed. -/
def Stats.addInstalled (s : Stats) (obj : PkgDict) : Stats :=
  let s := s.read obj.installedSize
  { s with instsize := uint64 (s.instsize + s.tsize) }

/-- The installed package will be gone. -/
def Stats.addRemoved (s : Stats) (pkgMetad : PkgDict) : Stats :=
  let s := s.read pkgMetad.installedSize
  { s with rmsize := uint64 (s.rmsize + s.tsize) }

/-- Is this an entry that brings a package? -/
def TransType.brings : TransType → Bool
  | .configure | .remove | .hold => false
  | .unknown | .install | .reinstall | .update | .download => true

/-- Is this an entry that takes an installed package away? -/
def PkgDict.takes (obj : PkgDict) : Bool :=
  obj.transaction = .remove || (obj.transaction = .update && obj.preserve ≠ some true)

section

variable (access : Str → Bool) (cachedir : Str) (xhp : Handle)

/-- `flappy_binpkg_exists`; `access` says which files can be read. -/
def binpkgExists (pkgd : PkgDict) : Bool :=
  match pkgd.architecture, pkgd.repository with
  | some arch, some repoloc =>
    access ((binpkgFile (if repositoryIsRemote repoloc then cachedir else repoloc)
      pkgd.pkgver arch).take (pathMax - 1))
  | _, _ => false

/-- The entry has to be downloaded. -/
def toDownload (obj : PkgDict) : Bool :=
  obj.transaction.brings && obj.repository.any repositoryIsRemote &&
    !binpkgExists access cachedir obj

/-- One entry; `none` if `flappy_repository_is_remote` gets no URI. -/
def statsEntry (s : Stats) (obj : PkgDict) : Option Stats :=
  let s := s.count obj.transaction
  if obj.transaction.brings = true ∧ obj.repository = none then none
  else
    let s := if toDownload access cachedir obj then s.addDownload obj else s
    if xhp.flags.downloadOnly then some s
    else
      let s := if obj.transaction.brings then s.addInstalled obj else s
      if obj.takes then
        match pkgdbGetPkg xhp obj.pkgver with
        | none => some s
        | some pkgMetad => some (s.addRemoved pkgMetad)
      else some s

/-- The loop over the entries. -/
def statsLoop : Stats → List PkgDict → Option Stats
  | s, [] => some s
  | s, obj :: pkgs =>
    match statsEntry access cachedir xhp s obj with
    | none => none
    | some s => statsLoop s pkgs

/-- What is left of the two sizes. -/
def Stats.settle (s : Stats) : Stats :=
  if s.instsize > s.rmsize then { s with instsize := s.instsize - s.rmsize, rmsize := 0 }
  else if s.rmsize > s.instsize then { s with rmsize := s.rmsize - s.instsize, instsize := 0 }
  else { s with instsize := 0, rmsize := 0 }

/-- `compute_transaction_stats`; `freeSize` is the free space of the root directory, if it is
known.  `none` if an entry that brings a package has no repository. -/
def computeTransactionStats (freeSize : Option Nat) (pkgs : List PkgDict) : Option (Stats × Rv) :=
  (statsLoop access cachedir xhp {} pkgs).map fun s =>
    let s := s.settle
    (s, if freeSize.any (s.instsize > ·) then .err .enospc else .ok)

end

/-! ### What is meant -/

/-- The sums of the loop. -/
inductive SizeSum where
  | download
  | installed
  | removed
deriving DecidableEq, Repr

/-- What the entry adds to the disk. -/
def PkgDict.repositorySize (obj : PkgDict) : Nat :=
  if obj.transaction.unpacks then obj.installedSize.getD 0 else 0

/-- The installed version of the package. -/
def installedVersion (xhp : Handle) (obj : PkgDict) : Option PkgDict :=
  (pkgName obj.pkgver).bind xhp.pkgdb.get

/-- What the entry takes off the disk. -/
def takenSize (xhp : Handle) (obj : PkgDict) : Nat :=
  if obj.takes then ((installedVersion xhp obj).bind PkgDict.installedSize).getD 0 else 0

section

variable (access : Str → Bool) (cachedir : Str) (xhp : Handle)

/-- The download of the entry. -/
def downloadSize (obj : PkgDict) : Nat :=
  if toDownload access cachedir obj then obj.filenameSize.getD 0 + 512 else 0

/-- The sizes that are stored are the right ones. -/
structure SizesRight (pkgs : List PkgDict) (s : Stats) : Prop where
  difference : (s.instsize : ℤ) - s.rmsize =
    (pkgs.map PkgDict.repositorySize).sum - (pkgs.map (takenSize xhp)).sum
  oneZero : s.instsize = 0 ∨ s.rmsize = 0
  download : s.dlsize = (pkgs.map (downloadSize access cachedir)).sum

/-- A prepared list of packages. -/
structure Prepared (pkgs : List PkgDict) : Prop where
  pkgver : ∀ obj ∈ pkgs, request obj.pkgver = .pkgver
  repository : ∀ obj ∈ pkgs, obj.transaction.brings = true → obj.repository.isSome
  typed : xhp.flags.downloadOnly = false →
    ∀ obj ∈ pkgs, obj.transaction ≠ .unknown ∧ obj.transaction ≠ .download

/-- The sizes that are read for an entry, the latest one first. -/
def entryReads (obj : PkgDict) : List (Read SizeSum) :=
  (if xhp.flags.downloadOnly = false ∧ obj.takes = true then
      (pkgdbGetPkg xhp obj.pkgver).toList.map fun d =>
        { sum := .removed, value := d.installedSize }
    else []) ++
  ((if xhp.flags.downloadOnly = false ∧ obj.transaction.brings = true then
      [{ sum := .installed, value := obj.installedSize }]
    else []) ++
  (if toDownload access cachedir obj then
      [{ sum := .download, value := obj.filenameSize, extra := 512 }]
    else []))

/-- The sizes that are read for all entries. -/
def statsReads : List PkgDict → List (Read SizeSum)
  | [] => []
  | obj :: pkgs => statsReads pkgs ++ entryReads access cachedir xhp obj

/-- The size of an installed version that is taken away, but is not the one that the
package database is asked for. -/
def overlookedSize (obj : PkgDict) : Nat :=
  if (installedVersion xhp obj).any fun d => d.pkgver ≠ obj.pkgver then takenSize xhp obj else 0

/-- No download gets a size that was read before, and what is carried over otherwise and what
is overlooked cancel out. -/
structure SizesWhen (pkgs : List PkgDict) : Prop where
  download : carried .download (statsReads access cachedir xhp pkgs) = 0
  balance : if xhp.flags.downloadOnly then
      (pkgs.map PkgDict.repositorySize).sum = (pkgs.map (takenSize xhp)).sum
    else carried .installed (statsReads access cachedir xhp pkgs) +
        (pkgs.map (overlookedSize xhp)).sum =
      carried .removed (statsReads access cachedir xhp pkgs)

end

/-! ### What the loop sums up -/

/-- The sums stay below `2 ^ 64`. -/
def Fits (reads : List (Read SizeSum)) : Prop := ∀ k, total k reads < 2 ^ 64

/-- The variables after the reads. -/
structure Tracks (before : List (Read SizeSum)) (s : Stats) : Prop where
  tsize : s.tsize = left before
  dlsize : s.dlsize = total .download before
  instsize : s.instsize = total .installed before
  rmsize : s.rmsize = total .removed before

theorem Fits.of_append {reads before : List (Read SizeSum)} (h : Fits (reads ++ before)) :
    Fits before :=
  fun k => lt_of_le_of_lt (total_le_append k reads before) (h k)

theorem Fits.uint64_left {r : Read SizeSum} {before : List (Read SizeSum)}
    (h : Fits (r :: before)) : uint64 (left (r :: before)) = left (r :: before) := by
  have := h r.sum
  rw [total_cons_self] at this
  exact Nat.mod_eq_of_lt (by omega)

theorem Fits.uint64_total {r : Read SizeSum} {before : List (Read SizeSum)}
    (h : Fits (r :: before)) :
    uint64 (total r.sum before + left (r :: before)) = total r.sum (r :: before) := by
  have := h r.sum
  rw [total_cons_self] at this ⊢
  rw [Nat.add_comm, uint64]
  exact Nat.mod_eq_of_lt this

theorem Tracks.count {before : List (Read SizeSum)} {s : Stats} (h : Tracks before s)
    (ttype : TransType) : Tracks before (s.count ttype) := by
  cases ttype <;> exact ⟨h.tsize, h.dlsize, h.instsize, h.rmsize⟩

theorem Tracks.addDownload {before : List (Read SizeSum)} {s : Stats} (h : Tracks before s)
    {obj : PkgDict}
    (hfit : Fits ({ sum := .download, value := obj.filenameSize, extra := 512 } :: before)) :
    Tracks ({ sum := .download, value := obj.filenameSize, extra := 512 } :: before)
      (s.addDownload obj) := by
  have hleft := hfit.uint64_left
  have htotal := hfit.uint64_total
  simp only [left, ← h.tsize, ← h.dlsize] at hleft htotal
  refine ⟨?_, ?_, ?_, ?_⟩
  · rw [left, ← h.tsize]
    exact hleft
  · rw [← htotal]
    show uint64 (s.dlsize + uint64 (obj.filenameSize.getD s.tsize + 512)) = _
    rw [hleft]
  · rw [total_cons_of_ne (by simp), ← h.instsize, Stats.addDownload, Stats.read]
  · rw [total_cons_of_ne (by simp), ← h.rmsize, Stats.addDownload, Stats.read]

theorem Tracks.addInstalled {before : List (Read SizeSum)} {s : Stats} (h : Tracks before s)
    {obj : PkgDict} (hfit : Fits ({ sum := .installed, value := obj.installedSize } :: before)) :
    Tracks ({ sum := .installed, value := obj.installedSize } :: before) (s.addInstalled obj) := by
  have htotal := hfit.uint64_total
  simp only [left, ← h.tsize, ← h.instsize] at htotal
  refine ⟨?_, ?_, htotal, ?_⟩
  · rw [left, ← h.tsize]
    rfl
  · rw [total_cons_of_ne (by simp)]
    exact h.dlsize
  · rw [total_cons_of_ne (by simp)]
    exact h.rmsize

theorem Tracks.addRemoved {before : List (Read SizeSum)} {s : Stats} (h : Tracks before s)
    {d : PkgDict} (hfit : Fits ({ sum := .removed, value := d.installedSize } :: before)) :
    Tracks ({ sum := .removed, value := d.installedSize } :: before) (s.addRemoved d) := by
  have htotal := hfit.uint64_total
  simp only [left, ← h.tsize, ← h.rmsize] at htotal
  refine ⟨?_, ?_, ?_, htotal⟩
  · rw [left, ← h.tsize]
    rfl
  · rw [total_cons_of_ne (by simp)]
    exact h.dlsize
  · rw [total_cons_of_ne (by simp)]
    exact h.instsize

/-- A read that only some entries make. -/
theorem Tracks.ite {before : List (Read SizeSum)} {s s' : Stats} (h : Tracks before s) {p : Prop}
    [Decidable p] {read : Read SizeSum} (hadd : p → Tracks (read :: before) s') :
    Tracks ((if p then [read] else []) ++ before) (if p then s' else s) := by
  split
  · next hp => exact hadd hp
  · exact h

section

variable {access : Str → Bool} {cachedir : Str} {xhp : Handle}

/-- One entry: its reads come on top. -/
theorem statsEntry_tracks {before : List (Read SizeSum)} {s : Stats} (h : Tracks before s)
    {obj : PkgDict} (hrepo : obj.transaction.brings = true → obj.repository.isSome)
    (hfit : Fits (entryReads access cachedir xhp obj ++ before)) :
    ∃ s', statsEntry access cachedir xhp s obj = some s' ∧
      Tracks (entryReads access cachedir xhp obj ++ before) s' := by
  have hassert : ¬ (obj.transaction.brings = true ∧ obj.repository = none) := by
    rintro ⟨hb, hn⟩
    simpa [hn] using hrepo hb
  rw [statsEntry, if_neg hassert]
  rw [entryReads, List.append_assoc, List.append_assoc] at hfit ⊢
  -- the download is counted first
  have hdownload : Tracks ((if toDownload access cachedir obj then
      [{ sum := .download, value := obj.filenameSize, extra := 512 }] else []) ++ before)
      (if toDownload access cachedir obj then (s.count obj.transaction).addDownload obj
        else s.count obj.transaction) := by
    refine (h.count obj.transaction).ite fun hd => (h.count _).addDownload ?_
    have hbefore := hfit.of_append.of_append
    rwa [if_pos hd] at hbefore
  generalize (if toDownload access cachedir obj then (s.count obj.transaction).addDownload obj
        else s.count obj.transaction) = s₁ at hdownload ⊢
  generalize ((if toDownload access cachedir obj then
      [{ sum := SizeSum.download, value := obj.filenameSize, extra := 512 }] else []) ++ before) =
    before₁ at hdownload hfit ⊢
  cases hflag : xhp.flags.downloadOnly with
  | true => exact ⟨s₁, rfl, by simpa using hdownload⟩
  | false =>
    simp only [hflag, true_and, Bool.false_eq_true, if_false] at hfit ⊢
    -- then what the entry brings
    have hinstalled : Tracks ((if obj.transaction.brings = true then
        [{ sum := .installed, value := obj.installedSize }] else []) ++ before₁)
        (if obj.transaction.brings = true then s₁.addInstalled obj else s₁) := by
      refine hdownload.ite fun hb => hdownload.addInstalled ?_
      have hbefore := hfit.of_append
      rwa [if_pos hb] at hbefore
    generalize (if obj.transaction.brings = true then s₁.addInstalled obj else s₁) = s₂
      at hinstalled ⊢
    generalize ((if obj.transaction.brings = true then
        [{ sum := SizeSum.installed, value := obj.installedSize }] else []) ++ before₁) =
      before₂ at hinstalled hfit ⊢
    split
    · next ht =>
      rw [if_pos ht] at hfit
      cases hp : pkgdbGetPkg xhp obj.pkgver with
      | none => exact ⟨s₂, rfl, hinstalled⟩
      | some d =>
        rw [hp] at hfit
        exact ⟨_, rfl, hinstalled.addRemoved hfit⟩
    · exact ⟨s₂, rfl, hinstalled⟩

/-- **The loop**: all reads come on top. -/
theorem statsLoop_tracks {pkgs : List PkgDict}
    (hrepo : ∀ obj ∈ pkgs, obj.transaction.brings = true → obj.repository.isSome)
    {before : List (Read SizeSum)} {s : Stats} (h : Tracks before s)
    (hfit : Fits (statsReads access cachedir xhp pkgs ++ before)) :
    ∃ s', statsLoop access cachedir xhp s pkgs = some s' ∧
      Tracks (statsReads access cachedir xhp pkgs ++ before) s' := by
  induction pkgs generalizing before s with
  | nil => exact ⟨s, rfl, h⟩
  | cons obj pkgs ih =>
    rw [statsReads, List.append_assoc] at hfit ⊢
    obtain ⟨s₁, hs₁, htracks⟩ :=
      statsEntry_tracks h (hrepo obj List.mem_cons_self) hfit.of_append
    rw [statsLoop, hs₁]
    exact ih (fun d hd => hrepo d (List.mem_cons_of_mem _ hd)) htracks hfit

/-! ### The sums that are meant -/

theorem proper_download (obj : PkgDict) :
    proper .download (entryReads access cachedir xhp obj) = downloadSize access cachedir obj := by
  have htaken : ∀ d : Option PkgDict, proper SizeSum.download (d.toList.map fun d =>
      { sum := .removed, value := d.installedSize }) = 0 := by
    intro d
    cases d <;> simp [proper]
  rw [entryReads, downloadSize, proper_append, proper_append]
  split <;> split <;> split <;> simp [proper, htaken]

theorem proper_installed (hflag : xhp.flags.downloadOnly = false) {obj : PkgDict}
    (htyped : obj.transaction ≠ .unknown ∧ obj.transaction ≠ .download) :
    proper .installed (entryReads access cachedir xhp obj) = obj.repositorySize := by
  have htaken : ∀ d : Option PkgDict, proper SizeSum.installed (d.toList.map fun d =>
      { sum := .removed, value := d.installedSize }) = 0 := by
    intro d
    cases d <;> simp [proper]
  have hbrings : obj.transaction.brings = obj.transaction.unpacks := by
    cases ht : obj.transaction <;> simp_all [TransType.brings, TransType.unpacks]
  rw [entryReads, PkgDict.repositorySize, ← hbrings, proper_append, proper_append]
  split <;> split <;> split <;> simp_all [proper]

/-- A package of the database is found under its own pkgver. -/
theorem pkgdbGetPkg_pkgver {obj : PkgDict} (hreq : request obj.pkgver = .pkgver) :
    pkgdbGetPkg xhp obj.pkgver =
      (installedVersion xhp obj).filter fun d => d.pkgver = obj.pkgver := by
  rw [pkgdbGetPkg, findPkgInDict, hreq, installedVersion]
  simp only [matchPkgByPkgver]
  cases pkgName obj.pkgver <;> rfl

theorem proper_removed (hflag : xhp.flags.downloadOnly = false) {obj : PkgDict}
    (hreq : request obj.pkgver = .pkgver) :
    proper .removed (entryReads access cachedir xhp obj) + overlookedSize xhp obj =
      takenSize xhp obj := by
  have hrest : proper .removed ((if xhp.flags.downloadOnly = false ∧
        obj.transaction.brings = true then
        [{ sum := SizeSum.installed, value := obj.installedSize }] else []) ++
      (if toDownload access cachedir obj then
        [{ sum := .download, value := obj.filenameSize, extra := 512 }] else [])) = 0 := by
    rw [proper_append]
    split <;> split <;> simp [proper]
  rw [entryReads, proper_append, hrest, Nat.add_zero, overlookedSize, takenSize,
    pkgdbGetPkg_pkgver hreq]
  cases ht : obj.takes with
  | false => simp [proper]
  | true =>
    cases hd : installedVersion xhp obj with
    | none => simp [proper]
    | some d =>
      by_cases hver : d.pkgver = obj.pkgver
      · simp [hflag, hver, proper, Option.filter]
      · simp [hver, proper, Option.filter]

theorem proper_statsReads {k : SizeSum} {size : PkgDict → Nat} {pkgs : List PkgDict}
    (h : ∀ obj ∈ pkgs, proper k (entryReads access cachedir xhp obj) = size obj) :
    proper k (statsReads access cachedir xhp pkgs) = (pkgs.map size).sum := by
  induction pkgs with
  | nil => rfl
  | cons obj pkgs ih =>
    rw [statsReads, proper_append, h obj List.mem_cons_self,
      ih fun d hd => h d (List.mem_cons_of_mem _ hd), List.map_cons, List.sum_cons, Nat.add_comm]

variable (access cachedir) in
theorem sum_takenSize (hflag : xhp.flags.downloadOnly = false) {pkgs : List PkgDict}
    (hreq : ∀ obj ∈ pkgs, request obj.pkgver = .pkgver) :
    (pkgs.map (takenSize xhp)).sum =
      proper .removed (statsReads access cachedir xhp pkgs) +
        (pkgs.map (overlookedSize xhp)).sum := by
  rw [proper_statsReads fun _ _ => rfl, ← List.sum_map_add]
  exact congrArg List.sum
    (List.map_congr_left fun obj hobj => (proper_removed hflag (hreq obj hobj)).symm)

/-- Where only files are downloaded, nothing else is read. -/
theorem total_downloadOnly (hflag : xhp.flags.downloadOnly = true) {k : SizeSum}
    (hk : k ≠ .download) (pkgs : List PkgDict) :
    total k (statsReads access cachedir xhp pkgs) = 0 := by
  refine total_eq_zero _ fun r hr => ?_
  induction pkgs with
  | nil => cases hr
  | cons obj pkgs ih =>
    rw [statsReads, List.mem_append] at hr
    rcases hr with hr | hr
    · exact ih hr
    · simp only [entryReads, hflag, Bool.true_eq_false, false_and, if_false, List.nil_append] at hr
      split at hr
      · rw [List.mem_singleton.mp hr]
        exact hk.symm
      · cases hr

theorem Stats.settle_difference (s : Stats) :
    (s.settle.instsize : ℤ) - s.settle.rmsize = s.instsize - s.rmsize := by
  rw [settle]
  split
  · simp only
    omega
  · split <;> simp only <;> omega

theorem Stats.settle_oneZero (s : Stats) : s.settle.instsize = 0 ∨ s.settle.rmsize = 0 := by
  rw [settle]
  split
  · exact Or.inr rfl
  · split
    · exact Or.inl rfl
    · exact Or.inl rfl

theorem Stats.settle_dlsize (s : Stats) : s.settle.dlsize = s.dlsize := by
  rw [settle]
  split
  · rfl
  · split <;> rfl

end

section

variable {access : Str → Bool} {cachedir : Str} {xhp : Handle}

/-- **When the sizes that are stored are the right ones**: no download gets a size that was
read before, and otherwise what is carried over and what is overlooked cancel out. -/
theorem computeTransactionStats_iff (freeSize : Option Nat) {pkgs : List PkgDict}
    (hprep : Prepared xhp pkgs) (hfit : Fits (statsReads access cachedir xhp pkgs)) :
    ∃ s rv, computeTransactionStats access cachedir xhp freeSize pkgs = some (s, rv) ∧
      (SizesRight access cachedir xhp pkgs s ↔ SizesWhen access cachedir xhp pkgs) := by
  have hstart : Tracks [] {} := ⟨rfl, rfl, rfl, rfl⟩
  obtain ⟨s, hs, htracks⟩ := statsLoop_tracks hprep.repository hstart
    (by rwa [List.append_nil] : Fits (statsReads access cachedir xhp pkgs ++ []))
  rw [List.append_nil] at htracks
  rw [computeTransactionStats, hs]
  refine ⟨_, _, rfl, ?_⟩
  have hdl : s.dlsize = (pkgs.map (downloadSize access cachedir)).sum +
      carried .download (statsReads access cachedir xhp pkgs) := by
    rw [htracks.dlsize, total_eq, proper_statsReads fun obj _ => proper_download obj]
  have hsizes : (s.instsize : ℤ) - s.rmsize =
      (pkgs.map PkgDict.repositorySize).sum - (pkgs.map (takenSize xhp)).sum ↔
      if xhp.flags.downloadOnly then
        (pkgs.map PkgDict.repositorySize).sum = (pkgs.map (takenSize xhp)).sum
      else carried .installed (statsReads access cachedir xhp pkgs) +
          (pkgs.map (overlookedSize xhp)).sum =
        carried .removed (statsReads access cachedir xhp pkgs) := by
    cases hflag : xhp.flags.downloadOnly with
    | true =>
      rw [htracks.instsize, htracks.rmsize, total_downloadOnly hflag (by decide),
        total_downloadOnly hflag (by decide), if_pos rfl]
      omega
    | false =>
      rw [htracks.instsize, htracks.rmsize, total_eq, total_eq,
        proper_statsReads fun obj hobj => proper_installed hflag (hprep.typed hflag obj hobj),
        sum_takenSize access cachedir hflag hprep.pkgver, if_neg (by decide)]
      omega
  constructor
  · rintro ⟨hdiff, -, hdown⟩
    rw [Stats.settle_difference] at hdiff
    rw [Stats.settle_dlsize, hdl] at hdown
    exact ⟨by omega, hsizes.mp hdiff⟩
  · rintro ⟨hdown, hbal⟩
    refine ⟨?_, s.settle_oneZero, ?_⟩
    · rw [Stats.settle_difference]
      exact hsizes.mpr hbal
    · rw [Stats.settle_dlsize, hdl, hdown, Nat.add_zero]

/-- The sizes are right where every size is there that is read, and every installed version
that is taken away is the one that is asked for. -/
theorem sizesWhen_of_complete (hflag : xhp.flags.downloadOnly = false) {pkgs : List PkgDict}
    (hsize : ∀ r ∈ statsReads access cachedir xhp pkgs, r.value.isSome)
    (hversion : ∀ obj ∈ pkgs, obj.takes = true →
      ∀ d, installedVersion xhp obj = some d → d.pkgver = obj.pkgver) :
    SizesWhen access cachedir xhp pkgs := by
  have hoverlooked : (pkgs.map (overlookedSize xhp)).sum = 0 := by
    refine List.sum_eq_zero fun n hn => ?_
    obtain ⟨obj, hobj, rfl⟩ := List.mem_map.mp hn
    rw [overlookedSize, takenSize]
    cases ht : obj.takes with
    | false => simp
    | true =>
      cases hd : installedVersion xhp obj with
      | none => rfl
      | some d => simp [hversion obj hobj ht d hd]
  refine ⟨carried_eq_zero _ fun r hr _ => hsize r hr, ?_⟩
  rw [hflag, if_neg (by decide), hoverlooked, carried_eq_zero _ fun r hr _ => hsize r hr,
    carried_eq_zero _ fun r hr _ => hsize r hr]

end

/-- Two packages of a local repository, the second one without an `installed_size`. -/
def sizelessPkgs : List PkgDict :=
  [{ pkgver := "foo-1_1".toList, repository := some "/repo".toList, transaction := .install,
     installedSize := some 100 },
   { pkgver := "bar-1_1".toList, repository := some "/repo".toList, transaction := .install }]

/-- An update of an installed package. -/
def updatePkgs : List PkgDict :=
  [{ pkgver := "foo-2_1".toList, repository := some "/repo".toList, transaction := .update,
     installedSize := some 60 }]

/-- The package it replaces. -/
def fooInstalled : Handle :=
  { pkgdb := Dict.empty.set "foo".toList
      { pkgver := "foo-1_1".toList, installedSize := some 50 } }

theorem computeTransactionStats_iff_update :
    ∃ s rv, computeTransactionStats (fun _ => false) [] fooInstalled none updatePkgs =
        some (s, rv) ∧
      (SizesRight (fun _ => false) [] fooInstalled updatePkgs s ↔
        SizesWhen (fun _ => false) [] fooInstalled updatePkgs) :=
  computeTransactionStats_iff none
    ⟨by decide, by decide, by decide⟩ (by intro k; cases k <;> decide)

/-- The size of `foo` counts for `bar` once more, and the version that `foo-2_1` replaces does
not count. -/
theorem sizes_wrong :
    (∃ s, computeTransactionStats (fun _ => false) [] {} none sizelessPkgs = some (s, .ok) ∧
        s.instsize = 200 ∧ ¬ SizesRight (fun _ => false) [] {} sizelessPkgs s) ∧
      ∃ s, computeTransactionStats (fun _ => false) [] fooInstalled none updatePkgs =
          some (s, .ok) ∧
        s.instsize = 60 ∧ ¬ SizesRight (fun _ => false) [] fooInstalled updatePkgs s := by
  refine ⟨⟨_, rfl, by decide, fun h => ?_⟩, ⟨_, rfl, by decide, fun h => ?_⟩⟩
  · exact absurd h.difference (by decide)
  · exact absurd h.difference (by decide)

end Flappy
