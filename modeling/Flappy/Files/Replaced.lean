/-
A directory that makes room for a file (`lib/transaction_files.c`,
`lib/package_unpack.c`, `lib/package_remove.c`).

Where a new package has a file or a symlink in the place of an installed directory,
`can_delete_directory` decides whether the directory is going to be empty: no tracked
path below it may stay, and it may not have more entries than tracked paths below it
are deleted.  The two numbers count different things, the entries of the directory and
the deletions at any depth, and the deletions may belong to packages that come later.

* `transactionFiles_emptied_iff` — the execution finds an obsolete path empty exactly
  when the paths below it can be given turns that are over in time.
-/
import Mathlib.Data.List.Infix
import Flappy.ConfigFiles
import Flappy.Files.Timeline
import Flappy.Lib.Clearing

open CStr Clearing

namespace Flappy

/-! ### The tree on disk -/

theorem hasDirPrefix_iff {dir file : Str} :
    hasDirPrefix dir file = true ↔ ∃ rest, file = dir ++ '/' :: rest := by
  rw [hasDirPrefix, List.isPrefixOf_iff_prefix]
  constructor
  · rintro ⟨rest, h⟩
    exact ⟨rest, by simpa using h.symm⟩
  · rintro ⟨rest, h⟩
    exact ⟨rest, by simpa using h.symm⟩

theorem length_lt_of_hasDirPrefix {dir file : Str} (h : hasDirPrefix dir file = true) :
    dir.length < file.length := by
  obtain ⟨rest, rfl⟩ := hasDirPrefix_iff.mp h
  rw [List.length_append, List.length_cons]
  omega

/-- Paths below directories. -/
def pathNesting : Nesting Str where
  under := hasDirPrefix
  above path := path.inits.filter fun dir => hasDirPrefix dir path
  mem_above dir path := by
    rw [List.mem_filter, List.mem_inits, and_iff_right_iff_imp]
    intro h
    obtain ⟨rest, rfl⟩ := hasDirPrefix_iff.mp h
    exact List.prefix_append dir _
  trans a b c hab hbc := by
    obtain ⟨r, rfl⟩ := hasDirPrefix_iff.mp hab
    obtain ⟨q, rfl⟩ := hasDirPrefix_iff.mp hbc
    exact hasDirPrefix_iff.mpr ⟨r ++ '/' :: q, by simp⟩
  irrefl a := by
    rw [← Bool.not_eq_true]
    intro h
    exact absurd (length_lt_of_hasDirPrefix h) (Nat.lt_irrefl _)

@[simp] theorem pathNesting_under : pathNesting.under = hasDirPrefix := rfl

/-- The names in a directory. -/
def entriesOf (paths : List Str) (dir : Str) : List Str :=
  (paths.filter fun path => hasDirPrefix dir path && decide ('/' ∉ path.drop (dir.length + 1))).map
    fun path => path.drop (dir.length + 1)

/-- A tree that agrees with what the pass sees of it: the paths below the root directory
`.`, none of which leads through a symbolic link. -/
structure DiskTree (disk : Disk) where
  paths : List Str
  isDir : Str → Bool
  nodup : paths.Nodup
  closed : ∀ path ∈ paths, ∀ dir, hasDirPrefix dir path = true → dir ∈ paths ∧ isDir dir = true
  opendir : ∀ dir ∈ paths, isDir dir = true → disk.opendir dir = .ok (entriesOf paths dir) ∨
    ∃ e, e ≠ .enoent ∧ disk.opendir dir = .error e

theorem DiskTree.closed_paths {disk : Disk} (tree : DiskTree disk) :
    pathNesting.Closed tree.paths :=
  fun path hp dir hd => (tree.closed path hp dir hd).1

/-! ### Carrying out the transaction -/

/-- What decides which paths a step of the commit removes and extracts. -/
structure StepEnv where
  /-- Does `flappy_remove_pkg` get to the files of a package? -/
  reaches : PkgDict → Bool := fun _ => true
  noextract : List Str := []

/-- The name under which the step of an entry removes obsolete paths. -/
def PkgDict.removesAs (c : StepEnv) (obj : PkgDict) : Option Str :=
  if obj.transaction = .remove then
    if c.reaches obj then pkgName obj.pkgver else none
  else if obj.transaction.unpacks then
    if obj.preserve.getD false then none else obj.pkgname
  else none

/-- The obsolete paths that the step of an entry removes, in order. -/
def PkgDict.removals (c : StepEnv) (obsd : Dict Str (List Str)) (obj : PkgDict) : List Str :=
  match obj.removesAs c with
  | none => []
  | some pkgname => obsoletesOf obsd pkgname

/-- The paths that the step of an entry extracts: the directories of the archive and
the paths that match a `noextract` pattern are passed over. -/
def PkgDict.extractions (lists : FileLists) (c : StepEnv) (obj : PkgDict) : List Str :=
  if obj.pkgname.isSome then
    ((newOccurrencesOf lists obj).filter fun e =>
      decide (e.2 ≠ .dir) && !patternsMatch c.noextract e.1).map fun e => '.' :: e.1
  else []

/-- What the step of an entry does to the paths. -/
def PkgDict.actions (lists : FileLists) (obsd : Dict Str (List Str)) (c : StepEnv)
    (obj : PkgDict) : List (Action Str) :=
  (obj.removals c obsd).map .remove ++ (obj.extractions lists c).map .extract

/-- The actions of a transaction, each with the position of its entry. -/
def commitActions (lists : FileLists) (obsd : Dict Str (List Str)) (c : StepEnv) :
    Nat → List PkgDict → List (Nat × Action Str)
  | _, [] => []
  | k, obj :: pkgs =>
    (obj.actions lists obsd c).map (fun a => (k, a)) ++ commitActions lists obsd c (k + 1) pkgs

/-- The item of a path below the root directory. -/
def itemAt (calls : List FileCall) : Str → Option Item
  | '.' :: f => itemOf calls f
  | _ => none

/-- The code's own condition for `can_delete_directory`. -/
def Item.replacesDir (item : Item) : Bool :=
  match item.old, item.new with
  | some old, some new => decide (old.type = .dir ∧ new.type ≠ .dir)
  | _, _ => false

/-- The file of a recorded hash seems to be missing (a symbolic link that leads nowhere
does as well). -/
def Item.seemsMissing (disk : Disk) (item : Item) : Bool :=
  (item.old.bind FileRecord.sha256).isSome && decide (disk.sha256 item.file = .error .enoent)

/-- What the execution finds when it reaches a removal of `d`: nothing is below `d`, and
all that was there at the beginning are tracked paths whose removal came before. -/
def Emptied (xhp : Handle) (env : FilesEnv) (c : StepEnv) (tree : DiskTree env.disk)
    (pkgs : List PkgDict) (s : Obsoletes) (d : Str) : Prop :=
  ∀ before t after,
    commitActions env.lists s.obsd c 0 pkgs = before ++ (t, .remove d) :: after →
      (∀ x ∈ pathNesting.run tree.paths (before.map Prod.snd), hasDirPrefix d x = false) ∧
      ∀ y ∈ tree.paths, hasDirPrefix d y = true →
        (itemAt (transactionCalls xhp env.lists 0 pkgs) y).isSome ∧ ∃ k, (k, .remove y) ∈ before

section Turns

variable (xhp : Handle) (env : FilesEnv) (c : StepEnv) (pkgs : List PkgDict)

/-- The entry at position `k` removes obsolete paths under the name of the path's remover. -/
def HasTurn (y : Str) (k : Nat) : Prop :=
  ∃ obj item n, pkgs[k]? = some obj ∧ obj.removesAs c = some n ∧
    itemAt (transactionCalls xhp env.lists 0 pkgs) y = some item ∧ item.remover = some n

/-- The entry at position `k` extracts the path or something below it. -/
def Extracts (y : Str) (k : Nat) : Prop :=
  ∃ obj x, pkgs[k]? = some obj ∧ x ∈ obj.extractions env.lists c ∧ pathNesting.Brings x y

/-- Before the entry at position `t` has removed its paths, `y` is in `d` at some time. -/
def Inside (tree : DiskTree env.disk) (d : Str) (t : Nat) (y : Str) : Prop :=
  hasDirPrefix d y = true ∧ (y ∈ tree.paths ∨ ∃ k < t, Extracts env c pkgs y k)

/-- The paths below `d` have turns that are over in time. -/
structure InTime (tree : DiskTree env.disk) (d : Str) (t : Nat) (turn : Str → Nat) : Prop where
  /-- The path is tracked, and it goes.  For what is on disk below a directory that
  changes its type, the pass itself has made sure of the second, unless it took the
  path for missing. -/
  goes : ∀ y, Inside env c pkgs tree d t y →
    ∃ item, itemAt (transactionCalls xhp env.lists 0 pkgs) y = some item ∧
      (item.retired xhp = true ∧ item.goes xhp env.disk = true ∨
        y ∈ tree.paths ∧ item.seemsMissing env.disk = false ∧
          ((itemAt (transactionCalls xhp env.lists 0 pkgs) d).map Item.replacesDir).getD false =
            true)
  due : ∀ y, Inside env c pkgs tree d t y → HasTurn xhp env c pkgs y (turn y) ∧ turn y ≤ t
  /-- A turn comes after all steps that bring the path back. -/
  later : ∀ y, Inside env c pkgs tree d t y → ∀ k < t, Extracts env c pkgs y k → k < turn y
  /-- A directory has no turn before what is in it. -/
  inner : ∀ y z, Inside env c pkgs tree d t y → Inside env c pkgs tree d t z →
    hasDirPrefix y z = true → turn z ≤ turn y

end Turns

/-- The timeline of the commit takes the same removals. -/
theorem commitStep_eq (lists : FileLists) (obsd : Dict Str (List Str)) (c : StepEnv)
    (t : Timeline) {obj : PkgDict} (hname : obj.transaction.unpacks = true → obj.pkgname.isSome) :
    commitStep lists obsd c.reaches t obj =
      (t.removeObsoletes (obj.removals c obsd)).extract (newFiles lists obj) := by
  have hnone : t.removeObsoletes [] = t := by simp [Timeline.removeObsoletes]
  have hnil : ∀ u : Timeline, u.extract [] = u := fun u => by simp [Timeline.extract]
  rw [commitStep, PkgDict.removals, PkgDict.removesAs]
  by_cases hrm : obj.transaction = .remove
  · have hnew : newFiles lists obj = [] := by
      simp [newFiles, newOccurrencesOf, hrm, TransType.unpacks]
    rw [if_pos hrm, if_pos hrm, hnew, hnil]
    cases hn : pkgName obj.pkgver with
    | none => simp [hnone]
    | some pkgname =>
      by_cases hr : c.reaches obj = true
      · simp [hr]
      · simp [hr, hnone]
  · rw [if_neg hrm, if_neg hrm]
    by_cases hu : obj.transaction.unpacks = true
    · obtain ⟨pkgname, hn⟩ := Option.isSome_iff_exists.mp (hname hu)
      rw [if_pos hu, if_pos hu, hn]
      by_cases hp : obj.preserve.getD false = true
      · simp [hp, hnone]
      · simp [hp]
    · have hnew : newFiles lists obj = [] := by simp [newFiles, newOccurrencesOf, hu]
      rw [if_neg hu, if_neg hu, hnew, hnil]
      exact hnone.symm

/-! ### What the pass has made sure of -/

theorem itemAt_eq_some {calls : List FileCall} {y : Str} {item : Item}
    (h : itemAt calls y = some item) : ∃ f, y = '.' :: f ∧ itemOf calls f = some item := by
  unfold itemAt at h
  split at h
  · exact ⟨_, rfl, h⟩
  · cases h

theorem deleted_of_itemOf {calls : List FileCall} {f : Str} {item : Item}
    (h : itemOf calls f = some item) : item.deleted = false := by
  rw [itemOf] at h
  split at h
  · cases h
    rfl
  · cases h

/-- What becomes of an item once it is judged. -/
def Flagged (xhp : Handle) (disk : Disk) (item item' : Item) : Prop :=
  item'.file = item.file ∧ (item'.deleted = true →
    item.retired xhp = true ∧ (item.goes xhp disk = true ∨ item.seemsMissing disk = true))

theorem Item.seemsMissing_of_hashCheck {xhp : Handle} {disk : Disk} {item : Item} {sha256 : Str}
    (hs : item.old.bind FileRecord.sha256 = some sha256)
    (h : item.hashCheck xhp disk sha256 = .missing) : item.seemsMissing disk = true := by
  have he : disk.sha256 item.file = .error .enoent := by
    rw [Item.hashCheck, fileSha256Check] at h
    cases hd : disk.sha256 item.file with
    | ok digest =>
      simp only [hd] at h
      by_cases heq : digest = sha256
      · simp [heq] at h
      · simp only [if_neg heq] at h
        split at h <;> cases h
    | error e =>
      cases e <;> simp_all
      all_goals split at h <;> cases h
  simp [Item.seemsMissing, hs, he]

theorem Obsoletes.finish_done (xhp : Handle) (disk : Disk) (s : Obsoletes) {item : Item}
    (hdel : item.deleted = false) :
    ∃ item', (s.finish xhp disk item).done = s.done ++ [item'] ∧ item'.file = item.file ∧
      (item'.deleted = true → item.keepsSymlink xhp disk = false) := by
  rw [Obsoletes.finish]
  by_cases hk : item.keepsSymlink xhp disk = true
  · rw [if_pos hk]
    exact ⟨item, rfl, rfl, fun h => by simp [hdel] at h⟩
  · rw [if_neg hk, Obsoletes.add]
    rw [Bool.not_eq_true] at hk
    cases item.remover with
    | none => exact ⟨item, rfl, rfl, fun _ => hk⟩
    | some n => exact ⟨{ item with deleted := true }, rfl, rfl, fun _ => hk⟩

/-- Judging a candidate marks it as deleted only if it goes, or seems to have gone. -/
theorem Obsoletes.judge_done {xhp : Handle} (disk : Disk) (s : Obsoletes) {item : Item}
    (hdel : item.deleted = false) (hret : item.retired xhp = true) :
    ∃ item', (s.judge xhp disk item).done = s.done ++ [item'] ∧ Flagged xhp disk item item' := by
  rw [Obsoletes.judge]
  cases hs : item.old.bind FileRecord.sha256 with
  | none =>
    obtain ⟨item', hdone, hfile, hk⟩ := Obsoletes.finish_done xhp disk s hdel
    exact ⟨item', hdone, hfile, fun h => ⟨hret, Or.inl (by simp [Item.goes, hs, hk h])⟩⟩
  | some sha256 =>
    cases hc : item.hashCheck xhp disk sha256 with
    | proceed =>
      simp only [hc]
      obtain ⟨item', hdone, hfile, hk⟩ := Obsoletes.finish_done xhp disk
        { s with
          rv := hashRv disk item.file sha256
          checks := s.checks ++ [(item.file, sha256)] } hdel
      exact ⟨item', hdone, hfile, fun h => ⟨hret, Or.inl (by simp [Item.goes, hs, hc, hk h])⟩⟩
    | missing =>
      simp only [hc]
      exact ⟨{ item with deleted := true }, rfl, rfl,
        fun _ => ⟨hret, Or.inr (Item.seemsMissing_of_hashCheck hs hc)⟩⟩
    | keep =>
      simp only [hc]
      exact ⟨item, rfl, rfl, fun h => by simp [hdel] at h⟩

/-- A directory that makes room for a file is a candidate only if it can be deleted. -/
theorem Item.canDelete_of_candidate {xhp : Handle} {disk : Disk} {done : List Item} {item : Item}
    (hdir : item.replacesDir = true) (hret : item.retired xhp = true)
    (h : item.candidate xhp disk done = .candidate) :
    canDeleteDirectory disk done item.file = true := by
  rw [Item.replacesDir] at hdir
  cases ho : item.old with
  | none => simp [ho] at hdir
  | some old =>
    cases hn : item.new with
    | none => simp [ho, hn] at hdir
    | some new =>
      simp only [ho, hn, decide_eq_true_eq] at hdir
      simp only [Item.retired, ho, hn, Bool.and_eq_true, Bool.not_eq_true',
        decide_eq_true_eq] at hret
      rw [Item.candidate, hret.1.1, if_neg (by simp)] at h
      simp only [ho, hn, if_neg hret.2.1, if_pos hdir] at h
      by_contra hcan
      rw [if_neg hcan] at h
      cases h

/-- When the loop comes to a directory that makes room for a file, `can_delete_directory`
answers yes, and it has looked at all items before the directory. -/
theorem collectObsoletesLoop_canDelete {xhp : Handle} {disk : Disk} :
    ∀ {items : List Item} {s : Obsoletes} {passed : List Item},
      (∀ i ∈ passed, ∃ i' ∈ s.done, Flagged xhp disk i i') → (∀ i ∈ items, i.deleted = false) →
      (collectObsoletesLoop xhp disk items s).rv ≠ some .enotempty →
      ∀ {pre : List Item} {item : Item} {post : List Item}, items = pre ++ item :: post →
        item.replacesDir = true → item.retired xhp = true →
        ∃ done, (∀ i ∈ passed ++ pre, ∃ i' ∈ done, Flagged xhp disk i i') ∧
          canDeleteDirectory disk done item.file = true := by
  intro items
  induction items with
  | nil => intro s passed _ _ _ pre item post h; simp at h
  | cons i items ih =>
    intro s passed hpassed hdel hrv pre item post h hdir hret
    rw [collectObsoletesLoop] at hrv
    cases pre with
    | nil =>
      rw [List.nil_append, List.cons.injEq] at h
      obtain ⟨rfl, rfl⟩ := h
      rw [List.append_nil]
      refine ⟨s.done, hpassed, ?_⟩
      cases hc : i.candidate xhp disk s.done with
      | skip => exact absurd hc (Item.candidate_ne_skip hret)
      | candidate => exact Item.canDelete_of_candidate hdir hret hc
      | blocked => simp [hc] at hrv
    | cons i' pre =>
      rw [List.cons_append, List.cons.injEq] at h
      obtain ⟨rfl, rfl⟩ := h
      have hdi := hdel i (by simp)
      -- the item joins those that have been passed
      have hnext : ∀ (done : List Item) (i' : Item), done = s.done ++ [i'] → Flagged xhp disk i i' →
          ∀ j ∈ passed ++ [i], ∃ j' ∈ done, Flagged xhp disk j j' := by
        rintro done i' rfl hfl j hj
        rcases List.mem_append.mp hj with hj | hj
        · obtain ⟨j', hj', hfl'⟩ := hpassed j hj
          exact ⟨j', by simp [hj'], hfl'⟩
        · rw [List.mem_singleton] at hj
          subst hj
          exact ⟨i', by simp, hfl⟩
      have hgo : ∀ s' : Obsoletes, (∀ j ∈ passed ++ [i], ∃ j' ∈ s'.done, Flagged xhp disk j j') →
          (collectObsoletesLoop xhp disk (pre ++ item :: post) s').rv ≠ some .enotempty →
          ∃ done, (∀ j ∈ passed ++ i :: pre, ∃ j' ∈ done, Flagged xhp disk j j') ∧
            canDeleteDirectory disk done item.file = true := by
        intro s' hs' hrv'
        have := ih hs' (fun j hj => hdel j (by simp [hj])) hrv' rfl hdir hret
        rwa [List.append_assoc, List.singleton_append] at this
      cases hc : i.candidate xhp disk s.done with
      | skip =>
        simp only [hc] at hrv
        exact hgo _ (hnext _ i rfl ⟨rfl, fun h => by simp [hdi] at h⟩) hrv
      | candidate =>
        simp only [hc] at hrv
        obtain ⟨i', hdone, hfl⟩ := Obsoletes.judge_done disk s hdi
          (Item.retired_of_candidate hc)
        exact hgo _ (hnext _ i' hdone hfl) hrv
      | blocked => simp [hc] at hrv

/-- What was tracked on disk below a directory that makes room for a file goes, unless
it seems to be missing. -/
theorem goes_of_replacesDir {xhp : Handle} {env : FilesEnv} (tree : DiskTree env.disk)
    {pkgs : List PkgDict} {s : Obsoletes} (h : transactionFiles xhp env pkgs = .ok s)
    (hrv : s.rv ≠ some .enotempty) {d y : Str} {dir item : Item}
    (hd : itemAt (transactionCalls xhp env.lists 0 pkgs) d = some dir)
    (hdir : dir.replacesDir = true) (hret : dir.retired xhp = true)
    (hy : itemAt (transactionCalls xhp env.lists 0 pkgs) y = some item)
    (hin : hasDirPrefix d y = true) (hdisk : y ∈ tree.paths)
    (hmiss : item.seemsMissing env.disk = false) :
    item.retired xhp = true ∧ item.goes xhp env.disk = true := by
  obtain ⟨items, hdesc, rfl⟩ := transactionFiles_eq_ok h
  obtain ⟨f, rfl, hf⟩ := itemAt_eq_some hd
  obtain ⟨g, rfl, hg⟩ := itemAt_eq_some hy
  obtain ⟨hdmem, hdfile⟩ := lookupItem_mem ((hdesc.lookup f).trans hf)
  obtain ⟨hmem, hfile⟩ := lookupItem_mem ((hdesc.lookup g).trans hg)
  rw [← (env.pathSort.perm items).mem_iff] at hdmem hmem
  obtain ⟨pre, post, hsplit⟩ := List.append_of_mem hdmem
  -- the path is longer, so its item comes before that of the directory
  have hlen := length_lt_of_hasDirPrefix hin
  rw [← hdfile, ← hfile] at hlen
  have hpre : item ∈ pre := by
    rw [hsplit, List.mem_append, List.mem_cons] at hmem
    rcases hmem with hmem | rfl | hmem
    · exact hmem
    · omega
    · have hlong := env.pathSort.longestFirst items
      rw [hsplit, List.pairwise_append, List.pairwise_cons] at hlong
      have := hlong.2.1.1 item hmem
      omega
  have hdel : ∀ i ∈ env.pathSort.sort items, i.deleted = false := by
    intro i hi
    obtain ⟨q, hq⟩ := hdesc.mem ((env.pathSort.perm items).mem_iff.mp hi)
    exact deleted_of_itemOf hq
  have hnone : ∀ i ∈ ([] : List Item), ∃ i' ∈ ({} : Obsoletes).done,
      Flagged xhp env.disk i i' := by simp
  obtain ⟨done, hdone, hcan⟩ := collectObsoletesLoop_canDelete hnone hdel hrv hsplit hdir hret
  obtain ⟨item', hmem', hfile', hflag⟩ := hdone item (by simpa using hpre)
  -- the directory is there and can be read, so all tracked paths below it are marked
  have hdeleted : item'.deleted = true := by
    obtain ⟨hdp, hdd⟩ := tree.closed _ hdisk _ hin
    rw [canDeleteDirectory, hdfile] at hcan
    rcases tree.opendir _ hdp hdd with ho | ⟨e, he, ho⟩
    · simp only [ho, Bool.and_eq_true, List.all_eq_true] at hcan
      refine hcan.1 item' (List.mem_filter.mpr ⟨hmem', ?_⟩)
      rw [hfile', hfile]
      exact hin
    · simp only [ho, decide_eq_true_eq] at hcan
      exact absurd hcan he
  obtain ⟨hr, hg | hm⟩ := hflag hdeleted
  · exact ⟨hr, hg⟩
  · rw [hmiss] at hm
    cases hm

/-! ### The order of the removals -/

theorem Obsoletes.add_obsd (s : Obsoletes) (item : Item) (n : Str) :
    obsoletesOf (s.add item).obsd n = obsoletesOf s.obsd n ∨
      obsoletesOf (s.add item).obsd n = obsoletesOf s.obsd n ++ [item.file] := by
  rw [Obsoletes.add]
  cases item.remover with
  | none => exact Or.inl rfl
  | some m =>
    by_cases hm : m = n
    · subst hm
      right
      simp [obsoletesOf]
    · left
      simp [obsoletesOf, Dict.get_set_ne _ _ (Ne.symm hm)]

theorem Obsoletes.judge_obsd (xhp : Handle) (disk : Disk) (s : Obsoletes) (item : Item) (n : Str) :
    obsoletesOf (s.judge xhp disk item).obsd n = obsoletesOf s.obsd n ∨
      obsoletesOf (s.judge xhp disk item).obsd n = obsoletesOf s.obsd n ++ [item.file] := by
  have hfinish : ∀ s' : Obsoletes, s'.obsd = s.obsd →
      obsoletesOf (s'.finish xhp disk item).obsd n = obsoletesOf s.obsd n ∨
        obsoletesOf (s'.finish xhp disk item).obsd n = obsoletesOf s.obsd n ++ [item.file] := by
    intro s' hs'
    rw [Obsoletes.finish, ← hs']
    split
    · exact Or.inl rfl
    · exact Obsoletes.add_obsd s' item n
  rw [Obsoletes.judge]
  cases item.old.bind FileRecord.sha256 with
  | none => exact hfinish s rfl
  | some sha256 =>
    cases hc : item.hashCheck xhp disk sha256 with
    | proceed =>
      simp only [hc]
      exact hfinish _ rfl
    | missing => simp [hc]
    | keep => simp [hc]

/-- The lists are filled longest path first. -/
theorem collectObsoletesLoop_longestFirst {xhp : Handle} {disk : Disk} {n : Str} :
    ∀ {items : List Item} {s : Obsoletes},
      (items.Pairwise fun a b => b.file.length ≤ a.file.length) →
      ((obsoletesOf s.obsd n).Pairwise fun a b => b.length ≤ a.length) →
      (∀ a ∈ obsoletesOf s.obsd n, ∀ i ∈ items, i.file.length ≤ a.length) →
        (obsoletesOf (collectObsoletesLoop xhp disk items s).obsd n).Pairwise
          fun a b => b.length ≤ a.length := by
  intro items
  induction items with
  | nil => intro s _ hs _; exact hs
  | cons item items ih =>
    intro s hi hs hle
    obtain ⟨hitem, hi⟩ := List.pairwise_cons.mp hi
    rw [collectObsoletesLoop]
    cases item.candidate xhp disk s.done with
    | skip => exact ih hi hs fun a ha i hi => hle a ha i (by simp [hi])
    | candidate =>
      rcases Obsoletes.judge_obsd xhp disk s item n with he | he
      · refine ih hi ?_ fun a ha i hi => ?_
        · rw [he]
          exact hs
        · rw [he] at ha
          exact hle a ha i (by simp [hi])
      · refine ih hi ?_ fun a ha i hi => ?_
        · rw [he, List.pairwise_append]
          refine ⟨hs, List.pairwise_singleton _ _, fun a ha b hb => ?_⟩
          rw [List.mem_singleton] at hb
          subst hb
          exact hle a ha item (by simp)
        · rw [he, List.mem_append, List.mem_singleton] at ha
          rcases ha with ha | rfl
          · exact hle a ha i (by simp [hi])
          · exact hitem i hi
    | blocked => exact hs

/-- The order of the actions: entry by entry, the removals of an entry before its
extractions, and its removals longest path first. -/
def Precedes (a b : Nat × Action Str) : Prop :=
  a.1 < b.1 ∨ a.1 = b.1 ∧
    match a.2, b.2 with
    | .remove x, .remove y => y.length ≤ x.length
    | .extract _, .remove _ => False
    | _, .extract _ => True

theorem mem_commitActions {lists : FileLists} {obsd : Dict Str (List Str)} {c : StepEnv}
    {a : Action Str} {k : Nat} :
    ∀ {pkgs : List PkgDict} {i : Nat}, (k, a) ∈ commitActions lists obsd c i pkgs ↔
      ∃ j obj, k = i + j ∧ pkgs[j]? = some obj ∧ a ∈ obj.actions lists obsd c := by
  intro pkgs
  induction pkgs with
  | nil => intro i; simp [commitActions]
  | cons obj pkgs ih =>
    intro i
    rw [commitActions, List.mem_append, ih, List.mem_map]
    constructor
    · rintro (⟨a', ha', he⟩ | ⟨j, o, rfl, hj, ha⟩)
      · rw [Prod.mk.injEq] at he
        obtain ⟨rfl, rfl⟩ := he
        exact ⟨0, obj, rfl, rfl, ha'⟩
      · exact ⟨j + 1, o, by omega, hj, ha⟩
    · rintro ⟨j, o, rfl, hj, ha⟩
      cases j with
      | zero =>
        rw [List.getElem?_cons_zero, Option.some.injEq] at hj
        subst hj
        exact Or.inl ⟨a, ha, rfl⟩
      | succ j => exact Or.inr ⟨j, o, by omega, hj, ha⟩

theorem commitActions_pairwise {lists : FileLists} {obsd : Dict Str (List Str)} {c : StepEnv}
    (hobsd : ∀ n, (obsoletesOf obsd n).Pairwise fun a b => b.length ≤ a.length) :
    ∀ (pkgs : List PkgDict) (i : Nat), (commitActions lists obsd c i pkgs).Pairwise Precedes := by
  intro pkgs
  induction pkgs with
  | nil => intro i; exact List.Pairwise.nil
  | cons obj pkgs ih =>
    intro i
    rw [commitActions, List.pairwise_append]
    refine ⟨?_, ih (i + 1), ?_⟩
    · rw [List.pairwise_map, PkgDict.actions, List.pairwise_append, List.pairwise_map,
        List.pairwise_map]
      refine ⟨?_, ?_, ?_⟩
      · have hrem : (obj.removals c obsd).Pairwise fun a b => b.length ≤ a.length := by
          rw [PkgDict.removals]
          cases obj.removesAs c with
          | none => exact List.Pairwise.nil
          | some n => exact hobsd n
        exact hrem.imp fun hab => Or.inr ⟨rfl, hab⟩
      · exact List.pairwise_of_forall fun _ _ => Or.inr ⟨rfl, trivial⟩
      · intro a ha b hb
        obtain ⟨x, -, rfl⟩ := List.mem_map.mp ha
        obtain ⟨y, -, rfl⟩ := List.mem_map.mp hb
        exact Or.inr ⟨rfl, trivial⟩
    · intro a ha b hb
      obtain ⟨a', -, rfl⟩ := List.mem_map.mp ha
      obtain ⟨k, b'⟩ := b
      obtain ⟨j, o, rfl, -, -⟩ := mem_commitActions.mp hb
      exact Or.inl (by show i < i + 1 + j; omega)

/-! ### The execution up to a removal -/

section Execution

variable {xhp : Handle} {env : FilesEnv} {c : StepEnv} {pkgs : List PkgDict} {s : Obsoletes}

theorem mem_obsoletesOf_iff (h : transactionFiles xhp env pkgs = .ok s)
    (hrv : s.rv ≠ some .enotempty) {y n : Str} :
    y ∈ obsoletesOf s.obsd n ↔
      ∃ item, itemAt (transactionCalls xhp env.lists 0 pkgs) y = some item ∧
        item.retired xhp = true ∧ item.goes xhp env.disk = true ∧ item.remover = some n := by
  constructor
  · intro hy
    obtain ⟨f, item, rfl, hitem, hrest⟩ := (transactionFiles_sound h).1 n y hy
    exact ⟨item, hitem, hrest⟩
  · rintro ⟨item, hitem, hret, hgo, hrem⟩
    obtain ⟨f, rfl, hf⟩ := itemAt_eq_some hitem
    exact (transactionFiles_complete h hrv hf hret).1 n hgo hrem

/-- A removal is carried out at the turns of a path that goes. -/
theorem remove_mem_iff (h : transactionFiles xhp env pkgs = .ok s)
    (hrv : s.rv ≠ some .enotempty) {y : Str} {k : Nat} :
    (k, .remove y) ∈ commitActions env.lists s.obsd c 0 pkgs ↔
      HasTurn xhp env c pkgs y k ∧
        ∃ item, itemAt (transactionCalls xhp env.lists 0 pkgs) y = some item ∧
          item.retired xhp = true ∧ item.goes xhp env.disk = true := by
  rw [mem_commitActions]
  constructor
  · rintro ⟨j, obj, rfl, hj, ha⟩
    rw [Nat.zero_add]
    have hy : y ∈ obj.removals c s.obsd := by simpa [PkgDict.actions] using ha
    rw [PkgDict.removals] at hy
    cases hn : obj.removesAs c with
    | none => simp [hn] at hy
    | some n =>
      simp only [hn] at hy
      obtain ⟨item, hitem, hret, hgo, hrem⟩ := (mem_obsoletesOf_iff h hrv).mp hy
      exact ⟨⟨obj, item, n, hj, hn, hitem, hrem⟩, item, hitem, hret, hgo⟩
  · rintro ⟨⟨obj, item, n, hk, hn, hitem, hrem⟩, item', hitem', hret, hgo⟩
    rw [hitem, Option.some.injEq] at hitem'
    subst hitem'
    refine ⟨k, obj, (Nat.zero_add k).symm, hk, ?_⟩
    have hy := (mem_obsoletesOf_iff h hrv).mpr ⟨item, hitem, hret, hgo, hrem⟩
    simp [PkgDict.actions, PkgDict.removals, hn, hy]

theorem extract_mem_iff {x : Str} {k : Nat} :
    (k, .extract x) ∈ commitActions env.lists s.obsd c 0 pkgs ↔
      ∃ obj, pkgs[k]? = some obj ∧ x ∈ obj.extractions env.lists c := by
  rw [mem_commitActions]
  constructor
  · rintro ⟨j, obj, rfl, hj, ha⟩
    rw [Nat.zero_add]
    exact ⟨obj, hj, by simpa [PkgDict.actions] using ha⟩
  · rintro ⟨obj, hk, hx⟩
    exact ⟨k, obj, (Nat.zero_add k).symm, hk, by simp [PkgDict.actions, hx]⟩

/-- The actions in front of a removal of `d` by the entry at position `t`. -/
structure UpTo (env : FilesEnv) (c : StepEnv) (pkgs : List PkgDict) (s : Obsoletes) (d : Str)
    (t : Nat) (before : List (Nat × Action Str)) : Prop where
  split : ∃ after, commitActions env.lists s.obsd c 0 pkgs = before ++ (t, .remove d) :: after
  sorted : (commitActions env.lists s.obsd c 0 pkgs).Pairwise Precedes

variable {d : Str} {t : Nat} {before : List (Nat × Action Str)}

theorem upTo_of_split (h : transactionFiles xhp env pkgs = .ok s)
    {after : List (Nat × Action Str)}
    (hsplit : commitActions env.lists s.obsd c 0 pkgs = before ++ (t, .remove d) :: after) :
    UpTo env c pkgs s d t before := by
  refine ⟨⟨after, hsplit⟩, commitActions_pairwise (fun n => ?_) pkgs 0⟩
  obtain ⟨items, -, rfl⟩ := transactionFiles_eq_ok h
  exact collectObsoletesLoop_longestFirst (env.pathSort.longestFirst items)
    (by simp [obsoletesOf, Dict.get, Dict.empty]) (by simp [obsoletesOf, Dict.get, Dict.empty])

theorem UpTo.mem_actions (h : UpTo env c pkgs s d t before) {e : Nat × Action Str}
    (he : e ∈ before) : e ∈ commitActions env.lists s.obsd c 0 pkgs := by
  obtain ⟨after, hsplit⟩ := h.split
  rw [hsplit]
  exact List.mem_append_left _ he

theorem UpTo.precedes (h : UpTo env c pkgs s d t before) {e : Nat × Action Str}
    (he : e ∈ before) : Precedes e (t, .remove d) := by
  obtain ⟨after, hsplit⟩ := h.split
  have hs := h.sorted
  rw [hsplit, List.pairwise_append] at hs
  exact hs.2.2 e he _ List.mem_cons_self

theorem UpTo.mem_before (h : UpTo env c pkgs s d t before) {e : Nat × Action Str}
    (he : e ∈ commitActions env.lists s.obsd c 0 pkgs) (hne : e ≠ (t, .remove d))
    (hnot : ¬ Precedes (t, .remove d) e) : e ∈ before := by
  obtain ⟨after, hsplit⟩ := h.split
  have hs := h.sorted
  rw [hsplit] at hs he
  rcases List.mem_append.mp he with he | he
  · exact he
  · rcases List.mem_cons.mp he with he | he
    · exact absurd he hne
    · exact absurd ((List.pairwise_cons.mp (List.pairwise_append.mp hs).2.1).1 e he) hnot

theorem UpTo.precedes_of_lt (h : UpTo env c pkgs s d t before) {i j : Nat}
    {e e' : Nat × Action Str} (hi : before[i]? = some e) (hj : before[j]? = some e')
    (hij : i < j) : Precedes e e' := by
  obtain ⟨after, hsplit⟩ := h.split
  have hs := h.sorted
  rw [hsplit, List.pairwise_append] at hs
  obtain ⟨hi', rfl⟩ := List.getElem?_eq_some_iff.mp hi
  obtain ⟨hj', rfl⟩ := List.getElem?_eq_some_iff.mp hj
  exact List.pairwise_iff_getElem.mp hs.1 i j hi' hj' hij

/-- What is below `d` before its removal is carried out. -/
theorem UpTo.inside_iff (h : UpTo env c pkgs s d t before) (tree : DiskTree env.disk) {y : Str} :
    Inside env c pkgs tree d t y ↔
      pathNesting.Seen tree.paths (before.map Prod.snd) y ∧ hasDirPrefix d y = true := by
  rw [Inside, and_comm, and_congr_left_iff]
  intro _
  refine or_congr_right ⟨?_, ?_⟩
  · rintro ⟨k, hk, obj, x, hobj, hx, hb⟩
    have hmem := h.mem_before (extract_mem_iff.mpr ⟨obj, hobj, hx⟩) (by simp)
      (by rintro (hlt | ⟨he, -⟩) <;> simp only at * <;> omega)
    exact ⟨x, List.mem_map.mpr ⟨_, hmem, rfl⟩, hb⟩
  · rintro ⟨x, hx, hb⟩
    obtain ⟨⟨k, a⟩, hmem, rfl⟩ := List.mem_map.mp hx
    obtain ⟨obj, hobj, hx⟩ := extract_mem_iff.mp (h.mem_actions hmem)
    rcases h.precedes hmem with hlt | ⟨-, hf⟩
    · exact ⟨k, hlt, obj, x, hobj, hx, hb⟩
    · exact absurd hf id

/-- With turns that are over in time, nothing is left at the removal. -/
theorem UpTo.cleared (h : UpTo env c pkgs s d t before) (tree : DiskTree env.disk)
    {turn : Str → Nat} (hin : InTime xhp env c pkgs tree d t turn)
    (hmem : ∀ y, Inside env c pkgs tree d t y → (turn y, .remove y) ∈ before) :
    ∀ x ∈ pathNesting.run tree.paths (before.map Prod.snd), hasDirPrefix d x = false := by
  -- the position of a path is that of the removal at its turn
  let pos : Str → Nat := fun y => before.idxOf (turn y, Action.remove y)
  have hpos : ∀ y, Inside env c pkgs tree d t y → before[pos y]? = some (turn y, .remove y) := by
    intro y hy
    have hlt := List.idxOf_lt_length_of_mem (hmem y hy)
    rw [List.getElem?_eq_getElem hlt, List.getElem_idxOf]
  refine (Nesting.cleared_iff tree.closed_paths d).mpr ⟨pos, fun y hseen hd => ?_⟩
  have hy := (h.inside_iff tree).mpr ⟨hseen, hd⟩
  constructor
  · rw [List.getElem?_map, hpos y hy]
    rfl
  · intro i x hi hb
    rw [List.getElem?_map, Option.map_eq_some_iff] at hi
    obtain ⟨⟨k, a⟩, hi, rfl⟩ := hi
    obtain ⟨obj, hobj, hx⟩ := extract_mem_iff.mp (h.mem_actions (List.mem_of_getElem? hi))
    have hkt : k < t := by
      rcases h.precedes (List.mem_of_getElem? hi) with hlt | ⟨-, hf⟩
      · exact hlt
      · exact absurd hf id
    have hlater := hin.later y hy k hkt ⟨obj, x, hobj, hx, hb⟩
    by_contra hle
    rcases Nat.lt_or_eq_of_le (Nat.le_of_not_lt hle) with hlt | heq
    · rcases h.precedes_of_lt (hpos y hy) hi hlt with hp | ⟨hp, -⟩ <;> simp only at hp <;> omega
    · rw [← heq, hpos y hy] at hi
      cases hi
  · intro z hzseen hyz
    have hz := (h.inside_iff tree).mpr ⟨hzseen, pathNesting.trans d y z hd hyz⟩
    have hle := hin.inner y z hy hz hyz
    by_contra hnot
    rcases Nat.lt_or_eq_of_le (Nat.le_of_not_lt hnot) with hlt | heq
    · have hlen := length_lt_of_hasDirPrefix hyz
      rcases h.precedes_of_lt (hpos y hy) (hpos z hz) hlt with hp | ⟨-, hp⟩ <;>
        simp only at hp <;> omega
    · have he := hpos y hy
      rw [heq, hpos z hz, Option.some.injEq, Prod.mk.injEq, Action.remove.injEq] at he
      rw [he.2, pathNesting.irrefl] at hyz
      cases hyz

/-- Where nothing is left, the removals that have emptied `d` give the turns. -/
theorem UpTo.exists_inTime (h : UpTo env c pkgs s d t before) (tree : DiskTree env.disk)
    (hok : transactionFiles xhp env pkgs = .ok s) (hrv : s.rv ≠ some .enotempty)
    (hclear : ∀ x ∈ pathNesting.run tree.paths (before.map Prod.snd), hasDirPrefix d x = false) :
    ∃ turn, InTime xhp env c pkgs tree d t turn := by
  obtain ⟨pos, hpos⟩ := (Nesting.cleared_iff tree.closed_paths d).mp hclear
  -- the turn of a path is the one at the position where it is cleared
  let turn : Str → Nat := fun y => ((before[pos y]?).map Prod.fst).getD 0
  have hget : ∀ y, Inside env c pkgs tree d t y → before[pos y]? = some (turn y, .remove y) := by
    intro y hy
    obtain ⟨hseen, hd⟩ := (h.inside_iff tree).mp hy
    have hrem := (hpos y hseen hd).removed
    rw [List.getElem?_map, Option.map_eq_some_iff] at hrem
    obtain ⟨⟨k, a⟩, hk, rfl⟩ := hrem
    have : turn y = k := by simp [turn, hk]
    rw [this, hk]
  have hmem : ∀ y, Inside env c pkgs tree d t y →
      HasTurn xhp env c pkgs y (turn y) ∧
        ∃ item, itemAt (transactionCalls xhp env.lists 0 pkgs) y = some item ∧
          item.retired xhp = true ∧ item.goes xhp env.disk = true :=
    fun y hy => (remove_mem_iff hok hrv).mp (h.mem_actions (List.mem_of_getElem? (hget y hy)))
  refine ⟨turn, ?_, ?_, ?_, ?_⟩
  · intro y hy
    obtain ⟨-, item, hitem, hrest⟩ := hmem y hy
    exact ⟨item, hitem, Or.inl hrest⟩
  · intro y hy
    refine ⟨(hmem y hy).1, ?_⟩
    rcases h.precedes (List.mem_of_getElem? (hget y hy)) with hlt | ⟨heq, -⟩
    · exact Nat.le_of_lt hlt
    · exact Nat.le_of_eq heq
  · rintro y hy k hk ⟨obj, x, hobj, hx, hb⟩
    obtain ⟨hseen, hd⟩ := (h.inside_iff tree).mp hy
    have hext := h.mem_before (extract_mem_iff.mpr ⟨obj, hobj, hx⟩) (by simp)
      (by rintro (hlt | ⟨he, -⟩) <;> simp only at * <;> omega)
    -- the extraction comes before the removal that clears the path
    obtain ⟨i, hi⟩ := List.getElem?_of_mem hext
    have hlt := (hpos y hseen hd).later i x (by rw [List.getElem?_map, hi]; rfl) hb
    rcases h.precedes_of_lt hi (hget y hy) hlt with hlt | ⟨-, hf⟩
    · exact hlt
    · exact absurd hf id
  · intro y z hy hz hyz
    obtain ⟨hseen, hd⟩ := (h.inside_iff tree).mp hy
    have hlt := (hpos y hseen hd).inner z ((h.inside_iff tree).mp hz).1 hyz
    rcases h.precedes_of_lt (hget z hz) (hget y hy) hlt with hlt | ⟨heq, -⟩
    · exact Nat.le_of_lt hlt
    · exact Nat.le_of_eq heq

/-- After a pass without error, the execution finds an obsolete path empty at every one
of its removals exactly when the paths below it have turns that are over in time. -/
theorem transactionFiles_emptied_iff (xhp : Handle) (env : FilesEnv) (c : StepEnv)
    (tree : DiskTree env.disk) (pkgs : List PkgDict) (s : Obsoletes) (n d : Str)
    (h : transactionFiles xhp env pkgs = .ok s) (hrv : s.rv = none)
    (hd : d ∈ obsoletesOf s.obsd n) :
    Emptied xhp env c tree pkgs s d ↔
      ∀ t, HasTurn xhp env c pkgs d t → ∃ turn, InTime xhp env c pkgs tree d t turn := by
  have hrv' : s.rv ≠ some .enotempty := by
    rw [hrv]
    exact fun he => nomatch he
  obtain ⟨dir, hdir, hdret, hdgo, -⟩ := (mem_obsoletesOf_iff h hrv').mp hd
  constructor
  · intro hempty t ht
    have hrem := (remove_mem_iff h hrv').mpr ⟨ht, dir, hdir, hdret, hdgo⟩
    obtain ⟨before, after, hsplit⟩ := List.append_of_mem hrem
    exact (upTo_of_split h hsplit).exists_inTime tree h hrv' (hempty before t after hsplit).1
  · intro hturns before t after hsplit
    have hup := upTo_of_split h hsplit
    have hrem : (t, .remove d) ∈ commitActions env.lists s.obsd c 0 pkgs := by
      rw [hsplit]
      simp
    obtain ⟨turn, hin⟩ := hturns t ((remove_mem_iff h hrv').mp hrem).1
    -- every path below `d` is removed at its turn, and in time
    have hmem : ∀ y, Inside env c pkgs tree d t y →
        (itemAt (transactionCalls xhp env.lists 0 pkgs) y).isSome ∧
          (turn y, .remove y) ∈ before := by
      intro y hy
      obtain ⟨item, hitem, hgoes⟩ := hin.goes y hy
      have hgone : item.retired xhp = true ∧ item.goes xhp env.disk = true := by
        rcases hgoes with hgoes | ⟨hdisk, hmiss, hrepl⟩
        · exact hgoes
        · rw [hdir, Option.map_some, Option.getD_some] at hrepl
          exact goes_of_replacesDir tree h hrv' hdir hrepl hdret hitem hy.1 hdisk hmiss
      obtain ⟨hturn, hle⟩ := hin.due y hy
      refine ⟨by rw [hitem]; rfl, hup.mem_before ((remove_mem_iff h hrv').mpr
        ⟨hturn, item, hitem, hgone⟩) ?_ ?_⟩
      · intro he
        rw [Prod.mk.injEq, Action.remove.injEq] at he
        have := length_lt_of_hasDirPrefix hy.1
        rw [he.2] at this
        omega
      · have := length_lt_of_hasDirPrefix hy.1
        rintro (hlt | ⟨-, hlen⟩) <;> simp only at * <;> omega
    refine ⟨hup.cleared tree hin fun y hy => (hmem y hy).2, fun y hy hdy => ?_⟩
    obtain ⟨htracked, hbefore⟩ := hmem y ⟨hdy, Or.inl hy⟩
    exact ⟨htracked, turn y, hbefore⟩

end Execution

/-! ### A run that finds the directory empty, and two that do not -/

/-- A disk with some directories and files; the hash of a file is its path. -/
def plainDisk (dirs files : List Str) : Disk where
  sha256 path := if path ∈ files then .ok path else .error .enoent
  opendir dir := if dir ∈ dirs then .ok (entriesOf (dirs ++ files) dir)
    else .error (if dir ∈ files then .eacces else .enoent)
  symlinkTarget _ _ := none

def plainTree (dirs files : List Str) (hnodup : (dirs ++ files).Nodup)
    (hclosed : ∀ path ∈ dirs ++ files, ∀ dir ∈ pathNesting.above path, dir ∈ dirs) :
    DiskTree (plainDisk dirs files) where
  paths := dirs ++ files
  isDir dir := decide (dir ∈ dirs)
  nodup := hnodup
  closed path hp dir hd := by
    have := hclosed path hp dir ((pathNesting.mem_above dir path).mpr hd)
    simp [this]
  opendir dir _ hd := by
    left
    rw [decide_eq_true_eq] at hd
    simp [plainDisk, hd]

/-- `a` has the directory `/d`; of the new packages, `owner` has the file `/d`. -/
def roomEnv (old : FilesDict) (owner : Str) (dirs files : List Str) : FilesEnv where
  lists :=
    { binpkg := fun p => .ok (some
        (if p.pkgname = some owner then { files := [⟨"/d".toList, none, 1⟩] } else {}))
      pkgdb := fun pkgname => if pkgname = "a".toList then some old else none }
  disk := plainDisk dirs files
  pathSort := insertionPathSort

def updateA : PkgDict :=
  { pkgver := "a-2_1".toList, pkgname := some "a".toList, transaction := .update }

def installB : PkgDict :=
  { pkgver := "b-1_1".toList, pkgname := some "b".toList, transaction := .install }

/-- `a` has a file in `/d`, and nothing else is there. -/
def flatEnv (owner : Str) : FilesEnv :=
  roomEnv { files := [⟨"/d/x".toList, some "./d/x".toList, 1⟩], dirs := ["/d".toList] } owner
    ([".", "./d"].map String.toList) ["./d/x".toList]

def flatTree (owner : Str) : DiskTree (flatEnv owner).disk := plainTree _ _ (by decide) (by decide)

/-- `a` has a file in a directory in `/d`, and no package knows the file `/d/u`. -/
def deepEnv (owner : Str) : FilesEnv :=
  roomEnv { files := [⟨"/d/sub/x".toList, some "./d/sub/x".toList, 1⟩]
            dirs := ["/d/sub".toList, "/d".toList] } owner
    ([".", "./d", "./d/sub"].map String.toList) (["./d/sub/x", "./d/u"].map String.toList)

def deepTree (owner : Str) : DiskTree (deepEnv owner).disk := plainTree _ _ (by decide) (by decide)

theorem transactionFiles_emptied_flat : ∃ s,
    transactionFiles handoverHandle (flatEnv "a".toList) [updateA] = .ok s ∧
    obsoletesOf s.obsd "a".toList = ["./d/x", "./d"].map String.toList ∧
    Emptied handoverHandle (flatEnv "a".toList) {} (flatTree _) [updateA] s "./d".toList := by
  refine ⟨_, rfl, by decide, ?_⟩
  refine (transactionFiles_emptied_iff handoverHandle (flatEnv "a".toList) {} (flatTree _)
    [updateA] _ "a".toList "./d".toList rfl (by decide) (by decide)).mpr ?_
  rintro t ⟨obj, -, -, hobj, -⟩
  obtain rfl : t = 0 := by
    have := (List.getElem?_eq_some_iff.mp hobj).1
    simpa using this
  have hinside : ∀ y, Inside (flatEnv "a".toList) {} [updateA] (flatTree _) "./d".toList 0 y →
      y = "./d/x".toList := by
    rintro y ⟨hd, hy | ⟨k, hk, -⟩⟩
    · have hall : ∀ y ∈ (flatTree "a".toList).paths, hasDirPrefix "./d".toList y = true →
          y = "./d/x".toList := by decide
      exact hall y hy hd
    · exact absurd hk (Nat.not_lt_zero k)
  refine ⟨fun _ => 0, ?_, ?_, ?_, ?_⟩
  · intro y hy
    rw [hinside y hy]
    exact ⟨_, rfl, Or.inl (by decide)⟩
  · intro y hy
    rw [hinside y hy]
    exact ⟨⟨updateA, _, "a".toList, rfl, by decide, rfl, by decide⟩, Nat.le_refl 0⟩
  · intro y _ k hk
    exact absurd hk (Nat.not_lt_zero k)
  · intro y z _ _ _
    exact Nat.le_refl 0

/-- The pass lets a directory go that is not empty when its turn comes: it counts two
entries of `/d`, one of them unknown, against two deletions below `/d`; and it files `/d`
under a package that comes before the one that removes what is in `/d`. -/
theorem transactionFiles_not_emptied :
    (∃ s, transactionFiles handoverHandle (deepEnv "a".toList) [updateA] = .ok s ∧ s.rv = none ∧
      (itemAt (transactionCalls handoverHandle (deepEnv "a".toList).lists 0 [updateA])
        "./d".toList).map Item.replacesDir = some true ∧
      "./d".toList ∈ obsoletesOf s.obsd "a".toList ∧
      ¬ Emptied handoverHandle (deepEnv "a".toList) {} (deepTree _) [updateA] s "./d".toList) ∧
    ∃ s, transactionFiles handoverHandle (flatEnv "b".toList) [installB, updateA] = .ok s ∧
      s.rv = none ∧
      (itemAt (transactionCalls handoverHandle (flatEnv "b".toList).lists 0 [installB, updateA])
        "./d".toList).map Item.replacesDir = some true ∧
      "./d".toList ∈ obsoletesOf s.obsd "b".toList ∧
      ¬ Emptied handoverHandle (flatEnv "b".toList) {} (flatTree _) [installB, updateA] s
        "./d".toList := by
  constructor
  · refine ⟨_, rfl, by decide, by decide, by decide, fun h => ?_⟩
    have := (h [(0, .remove "./d/sub/x".toList), (0, .remove "./d/sub".toList)] 0
      [(0, .extract "./d".toList)] (by decide)).1 "./d/u".toList (by decide)
    exact absurd this (by decide)
  · refine ⟨_, rfl, by decide, by decide, by decide, fun h => ?_⟩
    have := (h [] 0 [(0, .extract "./d".toList), (1, .remove "./d/x".toList)]
      (by decide)).1 "./d/x".toList (by decide)
    exact absurd this (by decide)

end Flappy
