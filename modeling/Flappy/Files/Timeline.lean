/-
When obsolete files are removed (`lib/transaction_commit.c`,
`lib/package_unpack.c`, `lib/package_remove.c`).

The transaction is carried out in the order of its entries.  The step of an
entry first removes the paths filed under its name in `obsolete_files`, and
then, unless the entry is a removal, extracts its binary package.  A path that
changes hands must therefore be filed under a package that comes no later than
the first one to install it.

* `obsolete_index_le` — a path is filed under an entry that comes no later than
  any entry that installs it;
* `transactionFiles_timeline` — carrying out the transaction never removes a
  path that it has extracted before.
-/
import Flappy.Files.Obsoletes

open CStr

namespace Flappy

/-- The paths extracted so far, and those that were removed after that. -/
structure Timeline where
  extracted : List Str := []
  lost : List Str := []
deriving DecidableEq, Repr

/-- Remove a list of obsolete paths. -/
def Timeline.removeObsoletes (t : Timeline) (obsoletes : List Str) : Timeline :=
  { t with lost := t.lost ++ obsoletes.filter (· ∈ t.extracted) }

/-- Extract the files of a binary package. -/
def Timeline.extract (t : Timeline) (files : List Str) : Timeline :=
  { t with extracted := t.extracted ++ files }

/-- The paths of an entry's binary package, relative to the root directory. -/
def newFiles (lists : FileLists) (obj : PkgDict) : List Str :=
  (newOccurrencesOf lists obj).map fun e => '.' :: e.1

/-- One step of the loop of `flappy_transaction_commit`: what `flappy_remove_pkg`
and `unpack_archive` do to the paths.  `reaches` says whether `flappy_remove_pkg`
gets to the files of a package (it does not if the package is half removed, gone
already, or only makes room for an update). -/
def commitStep (lists : FileLists) (obsd : Dict Str (List Str)) (reaches : PkgDict → Bool)
    (t : Timeline) (obj : PkgDict) : Timeline :=
  if obj.transaction = .remove then
    match pkgName obj.pkgver with
    | none => t
    | some pkgname => if reaches obj then t.removeObsoletes (obsoletesOf obsd pkgname) else t
  else if obj.transaction.unpacks then
    match obj.pkgname with
    | none => t
    | some pkgname =>
      let t :=
        if obj.preserve.getD false then t else t.removeObsoletes (obsoletesOf obsd pkgname)
      t.extract (newFiles lists obj)
  else t

/-- The loop of `flappy_transaction_commit` over the transaction. -/
def commit (lists : FileLists) (obsd : Dict Str (List Str)) (reaches : PkgDict → Bool)
    (pkgs : List PkgDict) : Timeline :=
  pkgs.foldl (commitStep lists obsd reaches) {}

/-- The step of this entry removes obsolete paths. -/
def PkgDict.acts (obj : PkgDict) : Prop :=
  obj.transaction ≠ .hold ∧ obj.transaction ≠ .configure

instance (obj : PkgDict) : Decidable obj.acts := inferInstanceAs (Decidable (_ ∧ _))

/-! ### The index of a call -/

/-- A call comes from the entry whose index it carries, under that entry's name. -/
theorem transactionCalls_index {xhp : Handle} {lists : FileLists} {c : FileCall} :
    ∀ {pkgs : List PkgDict} {idx : Nat}, c ∈ transactionCalls xhp lists idx pkgs →
      ∃ k obj, pkgs[k]? = some obj ∧ obj.acts ∧ obj.pkgname = some c.record.pkgname ∧
        c.record.index = idx + k + 1 := by
  intro pkgs
  induction pkgs with
  | nil => intro idx h; simp [transactionCalls] at h
  | cons obj pkgs ih =>
    intro idx h
    rw [transactionCalls, List.mem_append, List.mem_append] at h
    rcases h with (h | h) | h
    · refine ⟨0, obj, rfl, ?_, ?_⟩
      · -- a call for a file of the new package
        rw [newCalls] at h
        split at h
        · simp at h
        · split at h
          · next hu =>
            exact ⟨fun he => by simp [he, TransType.unpacks] at hu,
              fun he => by simp [he, TransType.unpacks] at hu⟩
          · simp at h
      · rw [newCalls] at h
        split at h
        · simp at h
        · next hn =>
          split at h
          · split at h
            · obtain ⟨_, _, _, _, _, rfl⟩ := FilesPass.calls_common h
              exact ⟨hn, rfl⟩
            · simp at h
          · simp at h
    · -- a call for a file of the installed one
      rw [oldCalls] at h
      split at h
      · simp at h
      · next hskip =>
        split at h
        · simp at h
        · next hn =>
          split at h
          · simp at h
          · obtain ⟨_, _, _, _, _, rfl⟩ := FilesPass.calls_common h
            exact ⟨0, obj, rfl, not_or.mp hskip, hn, rfl⟩
    · obtain ⟨k, o, hk, hacts, hn, hi⟩ := ih h
      exact ⟨k + 1, o, hk, hacts, hn, by omega⟩

/-- The calls come in the order of their indices. -/
theorem transactionCalls_pairwise {xhp : Handle} {lists : FileLists} :
    ∀ {pkgs : List PkgDict} {idx : Nat}, (transactionCalls xhp lists idx pkgs).Pairwise
      fun a b => a.record.index ≤ b.record.index := by
  intro pkgs
  induction pkgs with
  | nil => intro idx; exact List.Pairwise.nil
  | cons obj pkgs ih =>
    intro idx
    -- the calls of one entry all carry its index
    have hown : ∀ c ∈ newCalls lists (idx + 1) obj ++ oldCalls xhp lists (idx + 1) obj,
        c.record.index = idx + 1 := by
      intro c hc
      have hc' : c ∈ transactionCalls xhp lists idx [obj] := by
        rw [transactionCalls, transactionCalls, List.append_nil]
        exact hc
      obtain ⟨k, o, hk, -, -, hi⟩ := transactionCalls_index hc'
      have : k = 0 := by
        cases k with
        | zero => rfl
        | succ k => simp at hk
      rw [hi, this]
    rw [transactionCalls, List.pairwise_append]
    refine ⟨List.pairwise_iff_forall_sublist.mpr ?_, ih, ?_⟩
    · intro a b hab
      exact Nat.le_of_eq ((hown a (hab.subset (by simp))).trans (hown b (hab.subset (by simp))).symm)
    · intro a ha b hb
      obtain ⟨k, o, -, -, -, hi⟩ := transactionCalls_index hb
      rw [hown a ha, hi]
      omega

/-- A path of an entry's binary package has a call with that entry's index. -/
theorem exists_newCall (xhp : Handle) {lists : FileLists} {f : Str} :
    ∀ {pkgs : List PkgDict} (idx : Nat) {j : Nat} {obj : PkgDict}, pkgs[j]? = some obj →
      obj.pkgname.isSome → '.' :: f ∈ newFiles lists obj →
        ∃ c ∈ transactionCalls xhp lists idx pkgs,
          c.removefile = false ∧ c.file = f ∧ c.record.index = idx + j + 1 := by
  intro pkgs
  induction pkgs with
  | nil => intro idx j obj h; simp at h
  | cons o pkgs ih =>
    intro idx j obj h hname hf
    cases j with
    | zero =>
      simp only [List.getElem?_cons_zero, Option.some.injEq] at h
      subst h
      rw [newFiles, ← map_newCalls (idx + 1) fun _ => hname, List.map_map] at hf
      obtain ⟨c, hc, hcf⟩ := List.mem_map.mp hf
      have hmem : c ∈ transactionCalls xhp lists idx [o] := by
        rw [transactionCalls]
        simp [hc]
      obtain ⟨k, _, hk, -, -, hi⟩ := transactionCalls_index hmem
      have hk0 : k = 0 := by
        cases k with
        | zero => rfl
        | succ k => simp at hk
      refine ⟨c, ?_, removefile_of_mem_newCalls hc, by simpa using hcf, by rw [hi, hk0]⟩
      rw [transactionCalls]
      simp [hc]
    | succ j =>
      obtain ⟨c, hc, hr, hcf, hi⟩ := ih (idx + 1) h hname hf
      refine ⟨c, ?_, hr, hcf, by omega⟩
      rw [transactionCalls]
      simp [hc]

/-- The new side of an item carries the smallest index of all new calls for the path. -/
theorem newRecord_index_le {calls : List FileCall} {c : FileCall}
    (hp : calls.Pairwise fun a b => a.record.index ≤ b.record.index) (hc : c ∈ calls)
    (hr : c.removefile = false) :
    ∃ new, newRecord calls c.file = some new ∧ new.index ≤ c.record.index := by
  induction calls with
  | nil => simp at hc
  | cons a calls ih =>
    obtain ⟨ha, hp'⟩ := List.pairwise_cons.mp hp
    by_cases hm : a.removefile = false ∧ a.file = c.file
    · refine ⟨{ a.record with sha256 := none }, ?_, ?_⟩
      · rw [newRecord, List.find?_cons_of_pos (by simpa using hm)]
        rfl
      · rcases List.mem_cons.mp hc with rfl | hc
        · exact Nat.le_refl _
        · exact ha c hc
    · have hc' : c ∈ calls := by
        rcases List.mem_cons.mp hc with rfl | hc
        · exact absurd ⟨hr, rfl⟩ hm
        · exact hc
      obtain ⟨new, hn, hle⟩ := ih hp' hc'
      refine ⟨new, ?_, hle⟩
      rw [newRecord, List.find?_cons_of_neg (by simpa using hm)]
      exact hn

/-! ### Removal comes first -/

/-- The remover of a retired path with a new owner made a call no later than the
first one that installs the path. -/
theorem Item.remover_index_le {xhp : Handle} {calls : List FileCall} {f n : Str} {item : Item}
    {new : FileRecord} (hitem : itemOf calls f = some item) (hret : item.retired xhp = true)
    (hnew : newRecord calls f = some new) (hn : item.remover = some n) :
    ∃ c ∈ calls, c.record.pkgname = n ∧ c.record.index ≤ new.index := by
  rw [itemOf] at hitem
  split at hitem
  · rw [Option.some.injEq] at hitem
    subst hitem
    cases ho : oldRecord calls f with
    | none => simp [Item.retired, hnew, ho] at hret
    | some old =>
      simp only [Item.remover, ho, hnew, Option.some.injEq] at hn
      obtain ⟨co, hco, -, -, -, hname, hidx, -⟩ := oldRecord_owner ho
      obtain ⟨cn, hcn, -, -, hrec⟩ := newRecord_eq_some hnew
      by_cases hlt : old.index > new.index
      · rw [if_pos hlt] at hn
        refine ⟨cn, hcn, ?_, ?_⟩
        · rw [← hn, hrec]
        · exact Nat.le_of_eq (congrArg FileRecord.index hrec).symm
      · rw [if_neg hlt] at hn
        refine ⟨co, hco, ?_, ?_⟩
        · rw [← hn, hname]
        · rw [← hidx]
          omega
  · cases hitem

/-- Entries with obsolete lists have their pkgver's name, and no two the same. -/
structure DistinctNames (pkgs : List PkgDict) : Prop where
  named : ∀ obj ∈ pkgs, obj.pkgname = pkgName obj.pkgver ∧ obj.pkgname.isSome
  distinct : pkgs.Pairwise fun p q => p.acts → q.acts → p.pkgname ≠ q.pkgname

theorem DistinctNames.index_eq {pkgs : List PkgDict} (h : DistinctNames pkgs) {i j : Nat}
    {p q : PkgDict} (hi : pkgs[i]? = some p) (hj : pkgs[j]? = some q) (hp : p.acts) (hq : q.acts)
    (hn : p.pkgname = q.pkgname) : i = j := by
  obtain ⟨hi', rfl⟩ := List.getElem?_eq_some_iff.mp hi
  obtain ⟨hj', rfl⟩ := List.getElem?_eq_some_iff.mp hj
  have hd := List.pairwise_iff_getElem.mp h.distinct
  rcases Nat.lt_trichotomy i j with hlt | heq | hgt
  · exact absurd hn (hd i j hi' hj' hlt hp hq)
  · exact heq
  · exact absurd hn.symm (hd j i hj' hi' hgt hq hp)

/-- A path is filed under an entry that comes no later than any entry that installs it. -/
theorem obsolete_index_le {xhp : Handle} {env : FilesEnv} {pkgs : List PkgDict} {s : Obsoletes}
    (h : transactionFiles xhp env pkgs = .ok s) (hnames : DistinctNames pkgs) {i j : Nat}
    {p q : PkgDict} {n f : Str} (hi : pkgs[i]? = some p) (hj : pkgs[j]? = some q)
    (hp : p.acts) (hn : p.pkgname = some n) (hf : '.' :: f ∈ newFiles env.lists q)
    (hobs : '.' :: f ∈ obsoletesOf s.obsd n) : i ≤ j := by
  obtain ⟨f', item, hff, hitem, hret, -, hrem⟩ := (transactionFiles_sound h).1 n _ hobs
  obtain rfl : f = f' := by simpa using hff
  obtain ⟨c, hc, hr, rfl, hidx⟩ :=
    exists_newCall xhp 0 hj
      (hnames.named q (List.mem_of_getElem? hj)).2 hf
  obtain ⟨new, hnew, hle⟩ := newRecord_index_le transactionCalls_pairwise hc hr
  obtain ⟨c', hc', hname, hle'⟩ := Item.remover_index_le hitem hret hnew hrem
  obtain ⟨k, o, hk, hacts, hon, hoi⟩ := transactionCalls_index hc'
  -- the entry whose call files the path is the one of that name
  have : k = i := by
    refine hnames.index_eq hk hi hacts hp ?_
    rw [hon, hname, hn]
  omega

theorem newFiles_dotted {lists : FileLists} {obj : PkgDict} {path : Str}
    (h : path ∈ newFiles lists obj) : ∃ f, path = '.' :: f := by
  obtain ⟨e, -, rfl⟩ := List.mem_map.mp h
  exact ⟨e.1, rfl⟩

theorem Timeline.lost_removeObsoletes {t : Timeline} {obsoletes : List Str} (ht : t.lost = [])
    (h : ∀ path ∈ t.extracted, path ∉ obsoletes) : (t.removeObsoletes obsoletes).lost = [] := by
  rw [Timeline.removeObsoletes, ht, List.nil_append, List.filter_eq_nil_iff]
  intro path hpath
  rw [decide_eq_true_eq]
  exact fun he => h path he hpath

/-- One step, when the paths extracted so far are not filed under the entry's name. -/
theorem commitStep_lost (lists : FileLists) {obsd : Dict Str (List Str)}
    (reaches : PkgDict → Bool) {t : Timeline} {obj : PkgDict} (ht : t.lost = []) (hname : obj.pkgname = pkgName obj.pkgver)
    (h : ∀ n, obj.acts → obj.pkgname = some n → ∀ path ∈ t.extracted,
      path ∉ obsoletesOf obsd n) :
    (commitStep lists obsd reaches t obj).lost = [] ∧
      ∀ path ∈ (commitStep lists obsd reaches t obj).extracted,
        path ∈ t.extracted ∨ path ∈ newFiles lists obj := by
  rw [commitStep]
  by_cases hrm : obj.transaction = .remove
  · have hacts : obj.acts := by simp [PkgDict.acts, hrm]
    rw [if_pos hrm, ← hname]
    cases hn : obj.pkgname with
    | none => exact ⟨ht, fun path hp => Or.inl hp⟩
    | some n =>
      simp only
      split
      · exact ⟨Timeline.lost_removeObsoletes ht (h n hacts hn), fun path hp => Or.inl hp⟩
      · exact ⟨ht, fun path hp => Or.inl hp⟩
  · rw [if_neg hrm]
    by_cases hu : obj.transaction.unpacks = true
    · have hacts : obj.acts :=
        ⟨fun he => by simp [he, TransType.unpacks] at hu,
          fun he => by simp [he, TransType.unpacks] at hu⟩
      rw [if_pos hu]
      cases hn : obj.pkgname with
      | none => exact ⟨ht, fun path hp => Or.inl hp⟩
      | some n =>
        simp only
        split
        · exact ⟨ht, fun path hp => List.mem_append.mp hp⟩
        · exact ⟨Timeline.lost_removeObsoletes ht (h n hacts hn),
            fun path hp => List.mem_append.mp hp⟩
    · rw [if_neg hu]
      exact ⟨ht, fun path hp => Or.inl hp⟩

/-- For a transaction whose entries have different names: a path is in no
`obsolete_files` list of an entry that comes after one that installs it, and
carrying out the transaction never removes a path it has extracted before. -/
theorem transactionFiles_timeline (xhp : Handle) (env : FilesEnv) (pkgs : List PkgDict)
    (s : Obsoletes) (hnames : DistinctNames pkgs)
    (h : transactionFiles xhp env pkgs = .ok s) :
    (∀ (i j : Nat) (p q : PkgDict) (n f : Str), pkgs[i]? = some p → pkgs[j]? = some q →
      p.acts → p.pkgname = some n → '.' :: f ∈ newFiles env.lists q → j < i →
        '.' :: f ∉ obsoletesOf s.obsd n) ∧
    ∀ reaches : PkgDict → Bool, (commit env.lists s.obsd reaches pkgs).lost = [] := by
  have hle : ∀ (i j : Nat) (p q : PkgDict) (n f : Str), pkgs[i]? = some p → pkgs[j]? = some q →
      p.acts → p.pkgname = some n → '.' :: f ∈ newFiles env.lists q → j < i →
        '.' :: f ∉ obsoletesOf s.obsd n := by
    intro i j p q n f hi hj hp hn hf hji hobs
    have := obsolete_index_le h hnames hi hj hp hn hf hobs
    omega
  refine ⟨hle, fun reaches => ?_⟩
  -- by induction on the entries carried out: nothing is lost, and what has been
  -- extracted comes from one of them
  suffices hrun : ∀ k ≤ pkgs.length,
      ((pkgs.take k).foldl (commitStep env.lists s.obsd reaches) {}).lost = [] ∧
      ∀ path ∈ ((pkgs.take k).foldl (commitStep env.lists s.obsd reaches) {}).extracted,
        ∃ j q, j < k ∧ pkgs[j]? = some q ∧ path ∈ newFiles env.lists q by
    have := (hrun pkgs.length (Nat.le_refl _)).1
    rwa [List.take_length] at this
  intro k
  induction k with
  | zero => intro _; simp
  | succ k ih =>
    intro hk
    obtain ⟨ih₁, ih₂⟩ := ih (by omega)
    have hobj : pkgs[k]? = some pkgs[k] := List.getElem?_eq_getElem (by omega)
    rw [List.take_succ_eq_append_getElem (by omega), List.foldl_append]
    simp only [List.foldl_cons, List.foldl_nil]
    have hstep := commitStep_lost env.lists reaches ih₁ (hnames.named _ (List.mem_of_getElem? hobj)).1 (by
        intro n hacts hn path hpath
        obtain ⟨j, q, hjk, hq, hnew⟩ := ih₂ path hpath
        obtain ⟨f, rfl⟩ := newFiles_dotted hnew
        exact hle k j _ q n f hobj hq hacts hn hnew hjk)
    refine ⟨hstep.1, fun path hpath => ?_⟩
    rcases hstep.2 path hpath with hpath | hpath
    · obtain ⟨j, q, hjk, hq, hnew⟩ := ih₂ path hpath
      exact ⟨j, q, by omega, hq, hnew⟩
    · exact ⟨k, _, by omega, hobj, hpath⟩

/-- `/f` is a link of `a-1_1`, and a file of the new package `x`. -/
def handoverEnv : FilesEnv where
  lists :=
    { binpkg := fun p =>
        if p.pkgver = "x-1_1".toList then .ok (some { files := [⟨"/f".toList, none, 1⟩] })
        else .ok (some {})
      pkgdb := fun _ => some { links := [("/f".toList, "/g".toList)] } }
  disk :=
    { sha256 := fun _ => .error .enoent, opendir := fun _ => .error .enoent
      symlinkTarget := fun _ _ => none }
  pathSort := insertionPathSort

def handoverHandle : Handle :=
  { pkgdb := ⟨[("a".toList, { pkgver := "a-1_1".toList })], by decide⟩ }

/-- `a` is updated after `x` is installed: `x` itself removes the link. -/
def handoverPkgs : List PkgDict :=
  [{ pkgver := "x-1_1".toList, pkgname := some "x".toList, transaction := .install },
   { pkgver := "a-2_1".toList, pkgname := some "a".toList, transaction := .update }]

theorem transactionFiles_handover : ∃ s,
    transactionFiles handoverHandle handoverEnv handoverPkgs = .ok s ∧
    obsoletesOf s.obsd "x".toList = ["./f".toList] ∧
    (commit handoverEnv.lists s.obsd (fun _ => true) handoverPkgs).lost = [] :=
  ⟨_, rfl, by decide, (transactionFiles_timeline handoverHandle handoverEnv handoverPkgs _
    ⟨by decide, by decide⟩ rfl).2 _⟩

/-- Two updates of `a`, before and after the new package. -/
def twicePkgs : List PkgDict :=
  [{ pkgver := "a-2_1".toList, pkgname := some "a".toList, transaction := .update },
   { pkgver := "x-1_1".toList, pkgname := some "x".toList, transaction := .install },
   { pkgver := "a-3_1".toList, pkgname := some "a".toList, transaction := .update }]

/-- The link is removed at the first step, and what `x` put there at the last one. -/
theorem transactionFiles_twice : ∃ s,
    transactionFiles handoverHandle handoverEnv twicePkgs = .ok s ∧ s.rv = none ∧
    (commit handoverEnv.lists s.obsd (fun _ => true) twicePkgs).lost = ["./f".toList] :=
  ⟨_, rfl, by decide, by decide⟩

end Flappy
