/-
Obsolete files (`lib/transaction_files.c`, second half).

After the collection pass `collect_obsoletes` decides, longest path first, which
paths have to go before the transaction unpacks anything: paths that no new
package provides, and paths whose type changes.  A path stays if the
configuration preserves it, if it is one of the base symlinks, or if the file
on disk is not the one its package installed.

* `transactionFiles_sound` — which paths can enter an `obsolete_files` list, for
  which package, and which hashes are compared with the disk;
* `transactionFiles_complete` — unless a directory is in the way, all of them do.
-/
import Mathlib.Data.List.Sort
import Flappy.Files.Collect

open CStr

namespace Flappy

/-- What the pass sees of the file system, below the root directory. -/
structure Disk where
  /-- `flappy_file_sha256_raw`, as a string. -/
  sha256 : Str → Except Errno Str
  /-- `opendir` and `readdir`: the names other than `.` and `..`. -/
  opendir : Str → Except Errno (List Str)
  /-- `flappy_symlink_target`. -/
  symlinkTarget : Str → Str → Option Str

/-- `flappy_file_sha256_check`; `none` is 0. -/
def fileSha256Check (disk : Disk) (file sha256 : Str) : Option Errno :=
  match disk.sha256 file with
  | .error e => some e
  | .ok digest => if digest = sha256 then none else some .erange

/-- `match_preserved_file`. -/
def matchPreservedFile (xhp : Handle) (file : Str) : Bool :=
  matchStringInArray xhp.preservedFiles file.tail

/-- `has_dir_prefix`. -/
def hasDirPrefix (dir file : Str) : Bool := (dir ++ ['/']).isPrefixOf file

/-- `can_delete_directory`; `done` are the items before the directory's own. -/
def canDeleteDirectory (disk : Disk) (done : List Item) (dir : Str) : Bool :=
  match disk.opendir dir with
  | .error e => e = .enoent
  | .ok entries =>
    let inside := done.filter fun item => hasDirPrefix dir item.file
    inside.all Item.deleted && decide (entries.length ≤ inside.length)

/-- `basesymlinks`. -/
def baseSymlinks : List Str :=
  ["/bin", "/sbin", "/usr/sbin", "/lib", "/lib32", "/lib64", "/usr/lib32", "/usr/lib64",
    "/var/run"].map String.toList

/-- What the tests before the hash check make of an item. -/
inductive Candidate where
  | skip
  | candidate
  /-- A directory that has to make room and cannot be deleted. -/
  | blocked
deriving DecidableEq, Repr

/-- The tests of `collect_obsoletes` before the hash check. -/
def Item.candidate (xhp : Handle) (disk : Disk) (done : List Item) (item : Item) : Candidate :=
  if matchPreservedFile xhp item.file then .skip
  else
    let tail := if item.file.tail ∈ baseSymlinks then Candidate.skip else .candidate
    match item.new with
    | none => if (item.old.map FileRecord.preserve).getD false then .skip else tail
    | some new =>
      if new.type = .conffile then .skip
      else
        match item.old with
        | none => .skip
        | some old =>
          if old.type = .dir ∧ new.type ≠ .dir then
            if canDeleteDirectory disk done item.file then tail else .blocked
          else if new.type ≠ old.type then tail
          else .skip

/-- What the hash check makes of a candidate. -/
inductive HashCheck where
  | proceed
  | missing
  | keep
deriving DecidableEq, Repr

/-- The hash check of `collect_obsoletes`. -/
def Item.hashCheck (xhp : Handle) (disk : Disk) (item : Item) (sha256 : Str) : HashCheck :=
  match fileSha256Check disk item.file sha256 with
  | none => .proceed
  | some .enoent => .missing
  | some .erange =>
    if (item.old.map FileRecord.removepkg).getD false ∧ item.new = none ∧
        xhp.flags.forceRemoveFiles = true then .proceed
    else .keep
  -- the `default` label: the error is remembered, and the path goes on
  | some _ => .proceed

/-- The return value after the hash check. -/
def hashRv (disk : Disk) (file sha256 : Str) : Option Errno :=
  match fileSha256Check disk file sha256 with
  | none | some .enoent | some .erange => none
  | some e => some e

/-- The symlink check of `collect_obsoletes`: does the path stay? -/
def Item.keepsSymlink (xhp : Handle) (disk : Disk) (item : Item) : Bool :=
  match item.old, item.new with
  | some old, none =>
    if old.removepkg = true ∧ old.type = .link ∧ xhp.flags.forceRemoveFiles = false then
      disk.symlinkTarget item.file.tail (old.target.getD []) ≠ some (old.target.getD [])
    else false
  | _, _ => false

/-- Which package removes the obsolete path. -/
def Item.remover (item : Item) : Option Str :=
  match item.old, item.new with
  | some old, some new => some (if old.index > new.index then new.pkgname else old.pkgname)
  | some old, none => some old.pkgname
  | none, some new => some new.pkgname
  | none, none => none

/-- The state of the loop of `collect_obsoletes`. -/
structure Obsoletes where
  /-- `items[0..i)`. -/
  done : List Item := []
  /-- `obsolete_files`. -/
  obsd : Dict Str (List Str) := Dict.empty
  rv : Option Errno := none
  /-- The calls of `flappy_file_sha256_check` made so far. -/
  checks : List (Str × Str) := []

/-- The end of the loop body: mark the path and put it on its remover's list. -/
def Obsoletes.add (s : Obsoletes) (item : Item) : Obsoletes :=
  match item.remover with
  | none => { s with done := s.done ++ [item] }
  | some pkgname =>
    { s with
      done := s.done ++ [{ item with deleted := true }]
      obsd := s.obsd.set pkgname ((s.obsd.get pkgname).getD [] ++ [item.file]) }

/-- The loop body after the hash check. -/
def Obsoletes.finish (xhp : Handle) (disk : Disk) (s : Obsoletes) (item : Item) : Obsoletes :=
  if item.keepsSymlink xhp disk then { s with done := s.done ++ [item] } else s.add item

/-- The loop body of `collect_obsoletes` for a candidate. -/
def Obsoletes.judge (xhp : Handle) (disk : Disk) (s : Obsoletes) (item : Item) : Obsoletes :=
  match item.old.bind FileRecord.sha256 with
  | none => s.finish xhp disk item
  | some sha256 =>
    let s := { s with
      rv := hashRv disk item.file sha256
      checks := s.checks ++ [(item.file, sha256)] }
    match item.hashCheck xhp disk sha256 with
    | .proceed => s.finish xhp disk item
    | .missing => { s with done := s.done ++ [{ item with deleted := true }] }
    | .keep => { s with done := s.done ++ [item] }

/-- The loop of `collect_obsoletes`. -/
def collectObsoletesLoop (xhp : Handle) (disk : Disk) : List Item → Obsoletes → Obsoletes
  | [], s => s
  | item :: items, s =>
    match item.candidate xhp disk s.done with
    | .skip => collectObsoletesLoop xhp disk items { s with done := s.done ++ [item] }
    | .candidate => collectObsoletesLoop xhp disk items (s.judge xhp disk item)
    | .blocked => { s with rv := some .enotempty }

/-- `collect_obsoletes`. -/
def collectObsoletes (xhp : Handle) (disk : Disk) (items : List Item) : Obsoletes :=
  collectObsoletesLoop xhp disk items {}

/-- A sorting routine that obeys `pathcmp`; `qsort` leaves open in which order
items of the same length come. -/
structure PathSort where
  sort : List Item → List Item
  perm : ∀ items, (sort items).Perm items
  longestFirst : ∀ items, (sort items).Pairwise fun a b => b.file.length ≤ a.file.length

/-- Insertion sort obeys `pathcmp`. -/
def insertionPathSort : PathSort where
  sort items := items.insertionSort fun a b => b.file.length ≤ a.file.length
  perm items := List.perm_insertionSort _ items
  longestFirst items :=
    have : Std.Total fun a b : Item => b.file.length ≤ a.file.length :=
      ⟨fun a b => Nat.le_total b.file.length a.file.length⟩
    have : IsTrans Item fun a b => b.file.length ≤ a.file.length :=
      ⟨fun _ _ _ hab hbc => Nat.le_trans hbc hab⟩
    List.pairwise_insertionSort _ items

/-- What `flappy_transaction_files` takes from outside. -/
structure FilesEnv where
  lists : FileLists
  disk : Disk
  pathSort : PathSort
  /-- The result of `chdir` to the root directory. -/
  chdir : Option Errno := none

/-- `flappy_transaction_files`: the state in which `collect_obsoletes` ends, or the
error before it. -/
def transactionFiles (xhp : Handle) (env : FilesEnv) (pkgs : List PkgDict) :
    Except Errno Obsoletes :=
  match transactionCollect xhp env.lists 0 pkgs [] with
  | (_, some e) => .error e
  | (items, none) =>
    match env.chdir with
    | some e => .error e
    | none => .ok (collectObsoletes xhp env.disk (env.pathSort.sort items))

/-! ### One item -/

/-- No new package keeps the path as it is: the tests before the hash check,
less the one on directories that have to be empty. -/
def Item.retired (xhp : Handle) (item : Item) : Bool :=
  !matchPreservedFile xhp item.file && decide (item.file.tail ∉ baseSymlinks) &&
    match item.new, item.old with
    | none, old => !(old.map FileRecord.preserve).getD false
    | some new, some old => decide (new.type ≠ .conffile) && decide (new.type ≠ old.type)
    | some _, none => false

/-- A candidate passes the hash check and the symlink check. -/
def Item.goes (xhp : Handle) (disk : Disk) (item : Item) : Bool :=
  (match item.old.bind FileRecord.sha256 with
    | none => true
    | some sha256 => decide (item.hashCheck xhp disk sha256 = .proceed)) &&
    !item.keepsSymlink xhp disk

/-- The `obsolete_files` list of a package. -/
def obsoletesOf (obsd : Dict Str (List Str)) (pkgname : Str) : List Str :=
  (obsd.get pkgname).getD []

theorem Item.retired_of_candidate {xhp : Handle} {disk : Disk} {done : List Item} {item : Item}
    (h : item.candidate xhp disk done = .candidate) : item.retired xhp = true := by
  rw [Item.candidate] at h
  by_cases hp : matchPreservedFile xhp item.file = true
  · simp [hp] at h
  · rw [if_neg hp] at h
    by_cases hb : item.file.tail ∈ baseSymlinks
    · -- the base symlinks end as `skip` or `blocked`
      simp only [hb, if_true] at h
      repeat' split at h
      all_goals cases h
    · simp only [hb, if_false] at h
      rw [Item.retired]
      cases hn : item.new with
      | none =>
        simp only [hn] at h
        split at h
        · cases h
        · next hpr => simp [hp, hb, Bool.eq_false_iff.mpr hpr]
      | some new =>
        simp only [hn] at h
        split at h
        · cases h
        · next hcf =>
          cases ho : item.old with
          | none => simp [ho] at h
          | some old =>
            simp only [ho] at h
            have hty : new.type ≠ old.type := by
              intro he
              rw [if_neg (by rw [he]; exact fun hc => hc.2 hc.1), if_neg (not_not.mpr he)] at h
              cases h
            simp [hp, hb, hcf, hty]

theorem Item.candidate_ne_skip {xhp : Handle} {disk : Disk} {done : List Item} {item : Item}
    (h : item.retired xhp = true) : item.candidate xhp disk done ≠ .skip := by
  rw [Item.retired, Bool.and_eq_true, Bool.and_eq_true, Bool.not_eq_true',
    decide_eq_true_eq] at h
  obtain ⟨⟨hp, hb⟩, h⟩ := h
  rw [Item.candidate, hp, if_neg (by simp)]
  simp only [if_neg hb]
  cases hn : item.new with
  | none =>
    simp only [hn] at h ⊢
    rw [if_neg (by simpa using h)]
    simp
  | some new =>
    cases ho : item.old with
    | none => simp [hn, ho] at h
    | some old =>
      simp only [hn, ho, Bool.and_eq_true, decide_eq_true_eq] at h
      simp only [if_neg h.1, if_pos h.2]
      split
      · split <;> simp
      · simp

theorem Obsoletes.mem_add {s : Obsoletes} {item : Item} {n file : Str} :
    file ∈ obsoletesOf (s.add item).obsd n ↔
      file ∈ obsoletesOf s.obsd n ∨ (item.remover = some n ∧ file = item.file) := by
  rw [Obsoletes.add]
  cases hr : item.remover with
  | none => simp
  | some m =>
    by_cases hm : m = n
    · subst hm
      simp [obsoletesOf]
    · simp [obsoletesOf, Dict.get_set_ne _ _ (Ne.symm hm), hm]

theorem Obsoletes.mem_finish {xhp : Handle} {disk : Disk} {s : Obsoletes} {item : Item}
    {n file : Str} :
    file ∈ obsoletesOf (s.finish xhp disk item).obsd n ↔
      file ∈ obsoletesOf s.obsd n ∨
        (item.keepsSymlink xhp disk = false ∧ item.remover = some n ∧ file = item.file) := by
  rw [Obsoletes.finish]
  by_cases hk : item.keepsSymlink xhp disk = true
  · simp [hk]
  · rw [if_neg hk, Obsoletes.mem_add]
    simp [hk]

/-- Judging a candidate adds at most its own path, to the list of its remover. -/
theorem Obsoletes.mem_judge {xhp : Handle} {disk : Disk} {s : Obsoletes} {item : Item}
    {n file : Str} :
    file ∈ obsoletesOf (s.judge xhp disk item).obsd n ↔
      file ∈ obsoletesOf s.obsd n ∨
        (item.goes xhp disk = true ∧ item.remover = some n ∧ file = item.file) := by
  rw [Obsoletes.judge, Item.goes]
  cases hs : item.old.bind FileRecord.sha256 with
  | none =>
    simp only [Obsoletes.mem_finish, Bool.true_and, Bool.not_eq_true']
  | some sha256 =>
    cases hc : item.hashCheck xhp disk sha256 with
    | proceed => simp [Obsoletes.mem_finish, hc]
    | missing => simp [hc]
    | keep => simp [hc]

theorem Obsoletes.finish_checks {xhp : Handle} {disk : Disk} {s : Obsoletes} {item : Item} :
    (s.finish xhp disk item).checks = s.checks := by
  rw [Obsoletes.finish]
  split
  · rfl
  · rw [Obsoletes.add]
    split <;> rfl

/-- Judging a candidate compares at most the hash on its old side. -/
theorem Obsoletes.mem_judge_checks {xhp : Handle} {disk : Disk} {s : Obsoletes} {item : Item}
    {check : Str × Str} :
    check ∈ (s.judge xhp disk item).checks ↔ check ∈ s.checks ∨
      ∃ sha256, item.old.bind FileRecord.sha256 = some sha256 ∧ check = (item.file, sha256) := by
  rw [Obsoletes.judge]
  cases hs : item.old.bind FileRecord.sha256 with
  | none => simp [Obsoletes.finish_checks]
  | some sha256 =>
    cases hc : item.hashCheck xhp disk sha256 <;> simp [hc, Obsoletes.finish_checks]

/-! ### The loop -/

theorem collectObsoletesLoop_sound (xhp : Handle) (disk : Disk) :
    ∀ (items : List Item) (s : Obsoletes),
      (∀ n file, file ∈ obsoletesOf (collectObsoletesLoop xhp disk items s).obsd n →
        file ∈ obsoletesOf s.obsd n ∨ ∃ item ∈ items, item.retired xhp = true ∧
          item.goes xhp disk = true ∧ item.remover = some n ∧ file = item.file) ∧
      (∀ check ∈ (collectObsoletesLoop xhp disk items s).checks, check ∈ s.checks ∨
        ∃ item ∈ items, item.retired xhp = true ∧ ∃ sha256,
          item.old.bind FileRecord.sha256 = some sha256 ∧ check = (item.file, sha256)) := by
  intro items
  induction items with
  | nil => intro s; simp [collectObsoletesLoop]
  | cons item items ih =>
    intro s
    rw [collectObsoletesLoop]
    cases hc : item.candidate xhp disk s.done with
    | skip =>
      obtain ⟨ih₁, ih₂⟩ := ih { s with done := s.done ++ [item] }
      refine ⟨fun n file h => ?_, fun check h => ?_⟩
      · exact (ih₁ n file h).imp_right fun ⟨i, hi, hr⟩ => ⟨i, List.mem_cons_of_mem _ hi, hr⟩
      · exact (ih₂ check h).imp_right fun ⟨i, hi, hr⟩ => ⟨i, List.mem_cons_of_mem _ hi, hr⟩
    | candidate =>
      have hret := Item.retired_of_candidate hc
      obtain ⟨ih₁, ih₂⟩ := ih (s.judge xhp disk item)
      refine ⟨fun n file h => ?_, fun check h => ?_⟩
      · rcases ih₁ n file h with h | ⟨i, hi, hr⟩
        · rcases Obsoletes.mem_judge.mp h with h | hgo
          · exact Or.inl h
          · exact Or.inr ⟨item, by simp, hret, hgo⟩
        · exact Or.inr ⟨i, List.mem_cons_of_mem _ hi, hr⟩
      · rcases ih₂ check h with h | ⟨i, hi, hr⟩
        · rcases Obsoletes.mem_judge_checks.mp h with h | hch
          · exact Or.inl h
          · exact Or.inr ⟨item, by simp, hret, hch⟩
        · exact Or.inr ⟨i, List.mem_cons_of_mem _ hi, hr⟩
    | blocked => exact ⟨fun n file h => Or.inl h, fun check h => Or.inl h⟩

/-- Nothing leaves a list or the log. -/
theorem collectObsoletesLoop_mono (xhp : Handle) (disk : Disk) :
    ∀ (items : List Item) (s : Obsoletes),
      (∀ n file, file ∈ obsoletesOf s.obsd n →
        file ∈ obsoletesOf (collectObsoletesLoop xhp disk items s).obsd n) ∧
      ∀ check ∈ s.checks, check ∈ (collectObsoletesLoop xhp disk items s).checks := by
  intro items
  induction items with
  | nil => intro s; simp [collectObsoletesLoop]
  | cons item items ih =>
    intro s
    rw [collectObsoletesLoop]
    cases item.candidate xhp disk s.done with
    | skip => exact ih { s with done := s.done ++ [item] }
    | candidate =>
      obtain ⟨ih₁, ih₂⟩ := ih (s.judge xhp disk item)
      exact ⟨fun n file h => ih₁ n file (Obsoletes.mem_judge.mpr (Or.inl h)),
        fun check h => ih₂ check (Obsoletes.mem_judge_checks.mpr (Or.inl h))⟩
    | blocked => exact ⟨fun n file h => h, fun check h => h⟩

theorem collectObsoletesLoop_complete {xhp : Handle} {disk : Disk} :
    ∀ {items : List Item} {s : Obsoletes},
      (collectObsoletesLoop xhp disk items s).rv ≠ some .enotempty →
      ∀ item ∈ items, item.retired xhp = true →
        (∀ n, item.goes xhp disk = true → item.remover = some n →
          item.file ∈ obsoletesOf (collectObsoletesLoop xhp disk items s).obsd n) ∧
        ∀ sha256, item.old.bind FileRecord.sha256 = some sha256 →
          (item.file, sha256) ∈ (collectObsoletesLoop xhp disk items s).checks := by
  intro items
  induction items with
  | nil => intro s _ item hi; simp at hi
  | cons i items ih =>
    intro s hrv item hi hret
    rw [collectObsoletesLoop] at hrv ⊢
    cases hc : i.candidate xhp disk s.done with
    | skip =>
      simp only [hc] at hrv ⊢
      rcases List.mem_cons.mp hi with rfl | hi
      · exact absurd hc (Item.candidate_ne_skip hret)
      · exact ih hrv item hi hret
    | candidate =>
      simp only [hc] at hrv ⊢
      rcases List.mem_cons.mp hi with rfl | hi
      · obtain ⟨hm₁, hm₂⟩ := collectObsoletesLoop_mono xhp disk items
          (s.judge xhp disk item)
        exact ⟨fun n hg hr => hm₁ n _ (Obsoletes.mem_judge.mpr (Or.inr ⟨hg, hr, rfl⟩)),
          fun sha256 hs => hm₂ _ (Obsoletes.mem_judge_checks.mpr (Or.inr ⟨sha256, hs, rfl⟩))⟩
      · exact ih hrv item hi hret
    | blocked => simp [hc] at hrv

/-! ### The whole pass -/

/-- A successful pass went over the items that describe the transaction's calls. -/
theorem transactionFiles_eq_ok {xhp : Handle} {env : FilesEnv} {pkgs : List PkgDict}
    {s : Obsoletes} (h : transactionFiles xhp env pkgs = .ok s) :
    ∃ items, Describes items (transactionCalls xhp env.lists 0 pkgs) ∧
      s = collectObsoletes xhp env.disk (env.pathSort.sort items) := by
  rw [transactionFiles] at h
  have hd := transactionCollect_describes xhp env.lists pkgs 0 Describes.nil
  generalize transactionCollect xhp env.lists 0 pkgs [] = r at h hd
  obtain ⟨items, rv⟩ := r
  cases rv with
  | some e => cases h
  | none =>
    simp only at h
    cases hch : env.chdir with
    | some e => simp [hch] at h
    | none =>
      simp only [hch, Except.ok.injEq] at h
      exact ⟨items, by simpa using hd rfl, h.symm⟩

/-- A path in an `obsolete_files` list is retired, went through the checks, and is
with its remover; only hashes of retired items are compared. -/
theorem transactionFiles_sound {xhp : Handle} {env : FilesEnv} {pkgs : List PkgDict}
    {s : Obsoletes} (h : transactionFiles xhp env pkgs = .ok s) :
    (∀ n file, file ∈ obsoletesOf s.obsd n → ∃ f item, file = '.' :: f ∧
      itemOf (transactionCalls xhp env.lists 0 pkgs) f = some item ∧
      item.retired xhp = true ∧ item.goes xhp env.disk = true ∧ item.remover = some n) ∧
    ∀ check ∈ s.checks, ∃ f item sha256, check = ('.' :: f, sha256) ∧
      itemOf (transactionCalls xhp env.lists 0 pkgs) f = some item ∧
      item.retired xhp = true ∧ item.old.bind FileRecord.sha256 = some sha256 := by
  obtain ⟨items, hd, rfl⟩ := transactionFiles_eq_ok h
  have hmem : ∀ item ∈ env.pathSort.sort items, ∃ f, item.file = '.' :: f ∧
      itemOf (transactionCalls xhp env.lists 0 pkgs) f = some item := by
    intro item hi
    obtain ⟨f, hf⟩ := hd.mem ((env.pathSort.perm items).mem_iff.mp hi)
    exact ⟨f, (lookupItem_mem ((hd.lookup f).trans hf)).2, hf⟩
  obtain ⟨h₁, h₂⟩ := collectObsoletesLoop_sound xhp env.disk (env.pathSort.sort items) {}
  refine ⟨fun n file hf => ?_, fun check hc => ?_⟩
  · rcases h₁ n file hf with hf | ⟨item, hi, hr, hg, hrem, rfl⟩
    · simp [obsoletesOf, Dict.get, Dict.empty] at hf
    · obtain ⟨f, hf, hitem⟩ := hmem item hi
      exact ⟨f, item, hf, hitem, hr, hg, hrem⟩
  · rcases h₂ check hc with hc | ⟨item, hi, hr, sha256, hs, rfl⟩
    · simp at hc
    · obtain ⟨f, hf, hitem⟩ := hmem item hi
      exact ⟨f, item, sha256, by rw [hf], hitem, hr, hs⟩

/-- Unless a directory is in the way, every retired path is judged. -/
theorem transactionFiles_complete {xhp : Handle} {env : FilesEnv} {pkgs : List PkgDict}
    {s : Obsoletes} (h : transactionFiles xhp env pkgs = .ok s) (hrv : s.rv ≠ some .enotempty)
    {f : Str} {item : Item}
    (hitem : itemOf (transactionCalls xhp env.lists 0 pkgs) f = some item)
    (hret : item.retired xhp = true) :
    (∀ n, item.goes xhp env.disk = true → item.remover = some n →
      '.' :: f ∈ obsoletesOf s.obsd n) ∧
    ∀ sha256, item.old.bind FileRecord.sha256 = some sha256 → ('.' :: f, sha256) ∈ s.checks := by
  obtain ⟨items, hd, rfl⟩ := transactionFiles_eq_ok h
  obtain ⟨hmem, hfile⟩ := lookupItem_mem ((hd.lookup f).trans hitem)
  rw [← hfile]
  exact collectObsoletesLoop_complete hrv item ((env.pathSort.perm items).mem_iff.mpr hmem) hret

end Flappy
