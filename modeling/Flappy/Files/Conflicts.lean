/-
File conflicts of a transaction (`lib/transaction_files.c`).

Two packages of a transaction must not install the same path, unless both
install it as a directory.  The check is made while the file lists are
collected, against the first occurrence of the path only, and it shares the
loop with the bookkeeping about removed files.

* `transactionCollect_verdict` — the pass ends with `EEXIST` iff two of its
  calls clash;
* `transactionCollect_conflict_iff` — the same in terms of the file lists, with
  the independence of all orders and of the installed versions.
-/
import Mathlib.Data.List.Pairwise
import Mathlib.Data.List.Perm.Basic
import Flappy.Files.Collect

open CStr

namespace Flappy

/-! ### Calls that clash -/

/-- Two calls that install the same path both install a directory. -/
def NewCompatible (c₁ c₂ : FileCall) : Prop :=
  c₁.removefile = false → c₂.removefile = false → c₁.file = c₂.file →
    c₁.record.type = .dir ∧ c₂.record.type = .dir

instance : Std.Symm NewCompatible :=
  ⟨fun _ _ h hr₁ hr₂ hf => (h hr₂ hr₁ hf.symm).symm⟩

/-- Two calls that remove the same path, not both as a directory, agree on `preserve`. -/
def OldCompatible (c₁ c₂ : FileCall) : Prop :=
  c₁.removefile = true → c₂.removefile = true → c₁.file = c₂.file →
    ¬ (c₁.record.type = .dir ∧ c₂.record.type = .dir) → c₁.record.preserve = c₂.record.preserve

/-- One call, when all calls before it went through. -/
theorem collectFile_spec {flags : Flags} {items : List Item} {calls : List FileCall} {c : FileCall}
    (hflag : flags.ignoreFileConflicts = false) (hd : Describes items calls)
    (hnew : calls.Pairwise NewCompatible) (hold : ∀ c' ∈ calls, OldCompatible c' c) :
    (∃ items', collectFile flags items c = .ok items' ∧ ∀ c' ∈ calls, NewCompatible c' c) ∨
      (collectFile flags items c = .error .eexist ∧ ∃ c' ∈ calls, ¬ NewCompatible c' c) := by
  rw [collectFile, hd.lookup, itemOf]
  by_cases hex : ∃ c' ∈ calls, c'.file = c.file
  · simp only [if_pos hex, Item.collect]
    by_cases hr : c.removefile = true
    · have hcompat : ∀ c' ∈ calls, NewCompatible c' c := by
        intro c' _ _ h2
        simp [hr] at h2
      simp only [if_pos hr]
      left
      cases ho : oldRecord calls c.file with
      | none => exact ⟨_, rfl, hcompat⟩
      | some old =>
        simp only
        by_cases hdir : c.record.type = .dir ∧ old.type = .dir
        · rw [if_pos hdir]
          split
          · exact ⟨_, rfl, hcompat⟩
          · exact ⟨_, rfl, hcompat⟩
        · -- the owner of the record agrees with the call, so `EPERM` is out
          obtain ⟨c', hc', hr', hf', ht', -, -, hp', -⟩ := oldRecord_owner ho
          have hp : old.preserve = c.record.preserve := by
            rw [hp']
            refine hold c' hc' hr' hr hf' fun hboth => hdir ⟨hboth.2, ?_⟩
            rw [ht']
            exact hboth.1
          rw [if_neg hdir, hp, if_neg (by simp), if_neg (by simp)]
          exact ⟨_, rfl, hcompat⟩
    · simp only [if_neg hr]
      rw [Bool.not_eq_true] at hr
      cases hn : newRecord calls c.file with
      | none =>
        left
        refine ⟨_, rfl, fun c' hc' hr' _ hf' => ?_⟩
        obtain ⟨new, hsome⟩ := newRecord_isSome hc' hr'
        rw [hf', hn] at hsome
        cases hsome
      | some new =>
        obtain ⟨c₁, hc₁, hr₁, hf₁, rfl⟩ := newRecord_eq_some hn
        simp only
        by_cases hdir : c.record.type = .dir ∧ c₁.record.type = .dir
        · left
          rw [if_pos hdir]
          refine ⟨_, rfl, fun c' hc' hr' _ hf' => ?_⟩
          -- the first occurrence is a directory, hence so are all the others
          refine ⟨?_, hdir.1⟩
          by_cases heq : c' = c₁
          · rw [heq]
            exact hdir.2
          · exact (hnew.forall hc' hc₁ heq hr' hr₁ (hf'.trans hf₁.symm)).1
        · right
          rw [if_neg hdir, hflag]
          refine ⟨rfl, c₁, hc₁, fun h => hdir ?_⟩
          exact (h hr₁ hr hf₁).symm
  · simp only [if_neg hex]
    left
    refine ⟨_, rfl, fun c' hc' _ _ hf' => absurd ⟨c', hc', hf'⟩ hex⟩

/-- The outcome of a pass is right about the calls made so far. -/
def Verdict (r : List Item × Option Errno) (calls : List FileCall) : Prop :=
  (r.2 = none ∧ Describes r.1 calls ∧ calls.Pairwise NewCompatible) ∨
    (r.2 = some .eexist ∧ ¬ calls.Pairwise NewCompatible)

/-- All removals of the calls agree on `preserve`. -/
def OldAgree (calls : List FileCall) : Prop := ∀ c ∈ calls, ∀ c' ∈ calls, OldCompatible c c'

theorem OldAgree.left {calls cs : List FileCall} (h : OldAgree (calls ++ cs)) : OldAgree calls :=
  fun c hc c' hc' => h c (by simp [hc]) c' (by simp [hc'])

theorem not_pairwise_append {calls : List FileCall} (cs : List FileCall)
    (h : ¬ calls.Pairwise NewCompatible) : ¬ (calls ++ cs).Pairwise NewCompatible :=
  fun hp => h (hp.sublist (List.sublist_append_left calls cs))

/-- A conflict stays one, whatever is collected later. -/
theorem Verdict.conflict {r r' : List Item × Option Errno} {calls : List FileCall}
    (h : Verdict r calls) {e : Errno} (he : r.2 = some e) (hr : r'.2 = r.2)
    (cs : List FileCall) : Verdict r' (calls ++ cs) := by
  rcases h with ⟨hn, -⟩ | ⟨hx, hp⟩
  · rw [hn] at he
    cases he
  · exact Or.inr ⟨hr.trans hx, not_pairwise_append cs hp⟩

section Passes

variable {flags : Flags} (hflag : flags.ignoreFileConflicts = false)

include hflag

theorem collectCalls_verdict :
    ∀ {cs : List FileCall} {items : List Item} {calls : List FileCall}, Describes items calls →
      calls.Pairwise NewCompatible → OldAgree (calls ++ cs) →
        Verdict (collectCalls flags cs false items) (calls ++ cs) := by
  intro cs
  induction cs with
  | nil =>
    intro items calls hd hp _
    rw [List.append_nil]
    exact Or.inl ⟨rfl, hd, hp⟩
  | cons c cs ih =>
    intro items calls hd hp ho
    have hassoc : calls ++ c :: cs = calls ++ [c] ++ cs := by simp
    rw [collectCalls]
    rcases collectFile_spec hflag hd hp fun c' hc' => ho c' (by simp [hc']) c (by simp) with
      ⟨items', hok, hcompat⟩ | ⟨herr, c', hc', hbad⟩
    · simp only [hok]
      rw [hassoc] at ho ⊢
      refine ih (hd.collectFile_ok hok) ?_ ho
      rw [List.pairwise_append]
      refine ⟨hp, List.pairwise_singleton _ _, fun a ha b hb => ?_⟩
      rw [List.mem_singleton] at hb
      exact hb ▸ hcompat a ha
    · simp only [herr, if_true]
      refine Or.inr ⟨collectCalls_true flags cs items, ?_⟩
      rw [hassoc]
      refine not_pairwise_append cs fun hpw => hbad ?_
      exact (List.pairwise_append.mp hpw).2.2 c' hc' c (by simp)

theorem collectBinpkgFiles_verdict {lists : FileLists} {idx : Nat} {obj : PkgDict} {pkgname : Str}
    {items : List Item} {calls : List FileCall} (hd : Describes items calls)
    (hp : calls.Pairwise NewCompatible) (hn : obj.pkgname = some pkgname)
    (hread : obj.transaction.unpacks = true → ∃ d, lists.binpkg obj = .ok (some d))
    (ho : OldAgree (calls ++ newCalls lists idx obj)) :
    Verdict (if obj.transaction.unpacks then collectBinpkgFiles flags lists idx obj pkgname items
      else (items, none)) (calls ++ newCalls lists idx obj) := by
  rw [newCalls, hn] at ho ⊢
  by_cases hu : obj.transaction.unpacks = true
  · obtain ⟨d, hb⟩ := hread hu
    simp only [if_pos hu, hb] at ho ⊢
    rw [collectBinpkgFiles, hb]
    exact collectCalls_verdict hflag hd hp ho
  · simp only [if_neg hu, List.append_nil] at ho ⊢
    exact Or.inl ⟨rfl, hd, hp⟩

end Passes

theorem collectPkg_verdict {xhp : Handle} (hflag : xhp.flags.ignoreFileConflicts = false)
    {lists : FileLists} {idx : Nat} {obj : PkgDict} {items : List Item} {calls : List FileCall}
    (hd : Describes items calls) (hp : calls.Pairwise NewCompatible)
    (hname : obj.pkgname.isSome)
    (hread : obj.transaction.unpacks = true → ∃ d, lists.binpkg obj = .ok (some d))
    (ho : OldAgree (calls ++ (newCalls lists idx obj ++ oldCalls xhp lists idx obj))) :
    Verdict (collectPkg xhp lists idx obj items)
      (calls ++ (newCalls lists idx obj ++ oldCalls xhp lists idx obj)) := by
  obtain ⟨pkgname, hn⟩ := Option.isSome_iff_exists.mp hname
  rw [← List.append_assoc] at ho ⊢
  have hv := collectBinpkgFiles_verdict hflag hd hp hn hread ho.left
  rw [collectPkg]
  by_cases hskip : obj.transaction = .hold ∨ obj.transaction = .configure
  · have hu : obj.transaction.unpacks = false := by
      rcases hskip with hs | hs <;> rw [hs] <;> rfl
    have hnone : newCalls lists idx obj ++ oldCalls xhp lists idx obj = [] := by
      simp [newCalls, oldCalls, hskip, hn, hu]
    rw [if_pos hskip, List.append_assoc, hnone, List.append_nil]
    exact Or.inl ⟨rfl, hd, hp⟩
  · rw [if_neg hskip]
    simp only [hn]
    generalize hg : (if obj.transaction.unpacks then
      collectBinpkgFiles xhp.flags lists idx obj pkgname items else (items, none)) = r at hv ⊢
    obtain ⟨items₁, rv⟩ := r
    simp only
    cases rv with
    | some e => exact hv.conflict rfl (by simp) _
    | none =>
      rcases hv with ⟨-, hd₁, hp₁⟩ | ⟨hx, -⟩
      · simp only [ne_eq, not_true_eq_false, if_false]
        rw [oldCalls, if_neg hskip, hn] at ho ⊢
        cases hf : installedFiles xhp lists pkgname with
        | none =>
          simp only [hf, List.append_nil]
          exact Or.inl ⟨rfl, hd₁, hp₁⟩
        | some d =>
          simp only [hf] at ho ⊢
          exact collectCalls_verdict hflag hd₁ hp₁ ho
      · cases hx

/-- With readable packages and no dispute about `preserve`, the pass is right
about the conflicts among all calls of the transaction. -/
theorem transactionCollect_verdict {xhp : Handle}
    (hflag : xhp.flags.ignoreFileConflicts = false) {lists : FileLists} :
    ∀ {pkgs : List PkgDict} {idx : Nat} {items : List Item} {calls : List FileCall},
      Describes items calls → calls.Pairwise NewCompatible →
      (∀ p ∈ pkgs, p.pkgname.isSome) →
      (∀ p ∈ pkgs, p.transaction.unpacks = true → ∃ d, lists.binpkg p = .ok (some d)) →
      OldAgree (calls ++ transactionCalls xhp lists idx pkgs) →
        Verdict (transactionCollect xhp lists idx pkgs items)
          (calls ++ transactionCalls xhp lists idx pkgs) := by
  intro pkgs
  induction pkgs with
  | nil =>
    intro idx items calls hd hp _ _ _
    rw [transactionCalls, List.append_nil]
    exact Or.inl ⟨rfl, hd, hp⟩
  | cons obj pkgs ih =>
    intro idx items calls hd hp hname hread ho
    rw [transactionCalls, ← List.append_assoc] at ho ⊢
    have hv := collectPkg_verdict hflag hd hp (hname obj (by simp)) (hread obj (by simp)) ho.left
    rw [transactionCollect]
    generalize hg : collectPkg xhp lists (idx + 1) obj items = r at hv ⊢
    obtain ⟨items₁, rv⟩ := r
    cases rv with
    | some e => exact hv.conflict rfl rfl _
    | none =>
      rcases hv with ⟨-, hd₁, hp₁⟩ | ⟨hx, -⟩
      · exact ih hd₁ hp₁ (fun p h => hname p (by simp [h])) (fun p h => hread p (by simp [h])) ho
      · cases hx

/-! ### Conflicts in terms of the file lists -/

/-- The paths in the file lists of the installed versions, with the `preserve`
of the transaction entry. -/
def oldOccurrences (xhp : Handle) (lists : FileLists) (pkgs : List PkgDict) :
    List ((Str × FileType) × Bool) :=
  pkgs.flatMap fun obj =>
    if obj.transaction = .hold ∨ obj.transaction = .configure then []
    else
      match obj.pkgname.bind (installedFiles xhp lists) with
      | none => []
      | some d => d.occurrences.map fun e => (e, obj.preserve.getD false)

/-- Some path occurs twice in the new file lists, and not only as a directory. -/
def FileConflict (lists : FileLists) (pkgs : List PkgDict) : Prop :=
  ∃ f, 2 ≤ ((newOccurrences lists pkgs).filter fun e => e.1 = f).length ∧
    ∃ t, (f, t) ∈ newOccurrences lists pkgs ∧ t ≠ .dir

/-- Two packages that remove the same path, not both as a directory, are both
preserved or both not. -/
def PreserveAgrees (xhp : Handle) (lists : FileLists) (pkgs : List PkgDict) : Prop :=
  ∀ a ∈ oldOccurrences xhp lists pkgs, ∀ b ∈ oldOccurrences xhp lists pkgs,
    a.1.1 = b.1.1 → ¬ (a.1.2 = .dir ∧ b.1.2 = .dir) → a.2 = b.2

/-- What an old call says is in the file lists of the installed versions. -/
theorem mem_oldOccurrences {xhp : Handle} {lists : FileLists} {c : FileCall} :
    ∀ {pkgs : List PkgDict} {idx : Nat}, c ∈ transactionCalls xhp lists idx pkgs →
      c.removefile = true →
        ((c.file, c.record.type), c.record.preserve) ∈ oldOccurrences xhp lists pkgs := by
  intro pkgs
  induction pkgs with
  | nil => intro idx hc _; simp [transactionCalls] at hc
  | cons obj pkgs ih =>
    intro idx hc hr
    rw [transactionCalls, List.mem_append, List.mem_append] at hc
    rw [oldOccurrences, List.flatMap_cons, List.mem_append]
    rcases hc with (hc | hc) | hc
    · rw [removefile_of_mem_newCalls hc] at hr
      cases hr
    · left
      rw [oldCalls] at hc
      split at hc
      · simp at hc
      · next hskip =>
        rw [if_neg hskip]
        split at hc
        · simp at hc
        · next pkgname hn =>
          rw [hn, Option.bind_some]
          cases hd : installedFiles xhp lists pkgname with
          | none => simp [hd] at hc
          | some d =>
            simp only [hd] at hc
            refine List.mem_map.mpr ⟨(c.file, c.record.type), ?_, ?_⟩
            · rw [← FilesPass.map_calls]
              exact List.mem_map.mpr ⟨c, hc, rfl⟩
            · obtain ⟨_, _, _, _, _, rfl⟩ := FilesPass.calls_common hc
              rfl
    · exact Or.inr (ih hc hr)

theorem oldAgree_of_preserveAgrees {xhp : Handle} {lists : FileLists} {pkgs : List PkgDict}
    (h : PreserveAgrees xhp lists pkgs) (idx : Nat) :
    OldAgree (transactionCalls xhp lists idx pkgs) := by
  intro c hc c' hc' hr hr' hf hdir
  exact h _ (mem_oldOccurrences hc hr) _ (mem_oldOccurrences hc' hr') hf hdir

/-- A list of paths without a conflict, by pairs and by counting. -/
theorem pairwise_dir_iff {occ : List (Str × FileType)} :
    (occ.Pairwise fun a b => a.1 = b.1 → a.2 = .dir ∧ b.2 = .dir) ↔
      ¬ ∃ f, 2 ≤ (occ.filter fun e => e.1 = f).length ∧ ∃ t, (f, t) ∈ occ ∧ t ≠ .dir := by
  constructor
  · rintro hp ⟨f, hlen, t, ht, hdir⟩
    have hp' : (occ.filter fun e => e.1 = f).Pairwise fun a b => a.2 = .dir ∧ b.2 = .dir := by
      rw [List.pairwise_filter]
      refine hp.imp fun hab ha hb => hab ?_
      simp only [decide_eq_true_eq] at ha hb
      rw [ha, hb]
    have hmem : (f, t) ∈ occ.filter fun e => e.1 = f := List.mem_filter.mpr ⟨ht, by simp⟩
    match hl : occ.filter fun e => e.1 = f with
    | [] => simp [hl] at hlen
    | [a] => simp [hl] at hlen
    | a :: b :: rest =>
      rw [hl] at hp' hmem
      have ha := (List.pairwise_cons.mp hp').1
      rcases List.mem_cons.mp hmem with h | h
      · have := (ha b (by simp)).1
        rw [← h] at this
        exact hdir this
      · exact hdir (ha _ h).2
  · intro h
    induction occ with
    | nil => exact List.Pairwise.nil
    | cons a occ ih =>
      refine List.pairwise_cons.mpr ⟨fun b hb hab => ?_, ih ?_⟩
      · -- `a` and `b` are two occurrences of one path, so all of them are directories
        have hb' : b ∈ occ.filter fun e => e.1 = a.1 := List.mem_filter.mpr ⟨hb, by simp [hab]⟩
        have hlen : 2 ≤ ((a :: occ).filter fun e => e.1 = a.1).length := by
          rw [List.filter_cons_of_pos (by simp), List.length_cons]
          have := List.length_pos_of_mem hb'
          omega
        constructor
        · by_contra hd
          exact h ⟨a.1, hlen, a.2, by simp, hd⟩
        · by_contra hd
          refine h ⟨a.1, hlen, b.2, List.mem_cons_of_mem _ ?_, hd⟩
          rw [hab]
          exact hb
      · rintro ⟨f, hlen, t, ht, hd⟩
        have hle := ((List.sublist_cons_self a occ).filter fun e => decide (e.1 = f)).length_le
        exact h ⟨f, Nat.le_trans hlen hle, t, List.mem_cons_of_mem _ ht, hd⟩

theorem pairwise_newCompatible_iff {xhp : Handle} {lists : FileLists} {pkgs : List PkgDict}
    (hname : ∀ p ∈ pkgs, p.pkgname.isSome) (idx : Nat) :
    (transactionCalls xhp lists idx pkgs).Pairwise NewCompatible ↔ ¬ FileConflict lists pkgs := by
  rw [FileConflict, ← pairwise_dir_iff, ← map_transactionCalls_new xhp lists pkgs idx fun p hp _ => hname p hp,
    List.pairwise_map, List.pairwise_filter]
  simp only [decide_eq_true_eq]
  exact Iff.rfl

theorem transactionCollect_eexist_iff {xhp : Handle} {lists : FileLists} {pkgs : List PkgDict}
    (hflag : xhp.flags.ignoreFileConflicts = false) (hname : ∀ p ∈ pkgs, p.pkgname.isSome)
    (hread : ∀ p ∈ pkgs, p.transaction.unpacks = true → ∃ d, lists.binpkg p = .ok (some d))
    (hpres : PreserveAgrees xhp lists pkgs) :
    (transactionCollect xhp lists 0 pkgs []).2 = some .eexist ↔ FileConflict lists pkgs := by
  have hv := transactionCollect_verdict hflag Describes.nil List.Pairwise.nil hname hread
    (oldAgree_of_preserveAgrees hpres 0)
  rw [List.nil_append, Verdict, pairwise_newCompatible_iff hname] at hv
  rcases hv with ⟨hn, -, hc⟩ | ⟨hx, hc⟩
  · simp [hn, hc]
  · simpa [hx] using not_not.mp hc

/-! ### Independence of the orders -/

/-- The same file list with its entries in another order. -/
structure FilesDict.Reorders (d d' : FilesDict) : Prop where
  files : d'.files.Perm d.files
  confFiles : d'.confFiles.Perm d.confFiles
  links : d'.links.Perm d.links
  dirs : d'.dirs.Perm d.dirs

theorem FilesDict.Reorders.occurrences {d d' : FilesDict} (h : d.Reorders d') :
    d'.occurrences.Perm d.occurrences :=
  (((h.files.map _).append (h.confFiles.map _)).append (h.links.map _)).append (h.dirs.map _)

/-- A conflict does not depend on the order of the packages and of their entries. -/
theorem FileConflict.congr {lists lists' : FileLists} {pkgs pkgs' : List PkgDict}
    (h : (newOccurrences lists' pkgs').Perm (newOccurrences lists pkgs)) :
    FileConflict lists' pkgs' ↔ FileConflict lists pkgs := by
  refine exists_congr fun f => ?_
  rw [(h.filter _).length_eq]
  simp only [h.mem_iff]

theorem newOccurrences_perm {lists lists' : FileLists} {pkgs pkgs' : List PkgDict}
    (hp : pkgs'.Perm pkgs)
    (hl : ∀ p ∈ pkgs, ∀ d, lists.binpkg p = .ok (some d) →
      ∃ d', lists'.binpkg p = .ok (some d') ∧ d.Reorders d')
    (hread : ∀ p ∈ pkgs, p.transaction.unpacks = true → ∃ d, lists.binpkg p = .ok (some d)) :
    (newOccurrences lists' pkgs').Perm (newOccurrences lists pkgs) := by
  refine (hp.flatMap_right _).trans ?_
  refine List.Perm.flatMap_left _ fun p hmem => ?_
  rw [newOccurrencesOf, newOccurrencesOf]
  by_cases hu : p.transaction.unpacks = true
  · obtain ⟨d, hd⟩ := hread p hmem hu
    obtain ⟨d', hd', hr⟩ := hl p hmem d hd
    simp only [if_pos hu, hd, hd']
    exact hr.occurrences
  · simp [hu]

/-- The collection pass fails with `EEXIST` iff some path occurs at least twice in
the new file lists and not only as a directory.  So its verdict is the same for
every order of the packages, every order of the entries of their file lists, and
whatever the installed versions own. -/
theorem transactionCollect_conflict_iff (xhp : Handle) (lists : FileLists) (pkgs : List PkgDict)
    (hflag : xhp.flags.ignoreFileConflicts = false) (hname : ∀ p ∈ pkgs, p.pkgname.isSome)
    (hread : ∀ p ∈ pkgs, p.transaction.unpacks = true → ∃ d, lists.binpkg p = .ok (some d))
    (hpres : PreserveAgrees xhp lists pkgs) :
    ((transactionCollect xhp lists 0 pkgs []).2 = some .eexist ↔ FileConflict lists pkgs) ∧
    ∀ (xhp' : Handle) (lists' : FileLists) (pkgs' : List PkgDict),
      xhp'.flags.ignoreFileConflicts = false → PreserveAgrees xhp' lists' pkgs' →
      pkgs'.Perm pkgs →
      (∀ p ∈ pkgs, ∀ d, lists.binpkg p = .ok (some d) →
        ∃ d', lists'.binpkg p = .ok (some d') ∧ d.Reorders d') →
      ((transactionCollect xhp' lists' 0 pkgs' []).2 = some .eexist ↔
        (transactionCollect xhp lists 0 pkgs []).2 = some .eexist) := by
  have hiff := transactionCollect_eexist_iff hflag hname hread hpres
  refine ⟨hiff, fun xhp' lists' pkgs' hflag' hpres' hperm hl => ?_⟩
  have hread' : ∀ p ∈ pkgs', p.transaction.unpacks = true →
      ∃ d, lists'.binpkg p = .ok (some d) := by
    intro p hp hu
    obtain ⟨d, hd⟩ := hread p (hperm.mem_iff.mp hp) hu
    obtain ⟨d', hd', -⟩ := hl p (hperm.mem_iff.mp hp) d hd
    exact ⟨d', hd'⟩
  rw [hiff, transactionCollect_eexist_iff hflag' (fun p hp => hname p (hperm.mem_iff.mp hp)) hread'
    hpres']
  exact FileConflict.congr (newOccurrences_perm hperm hl hread)

/-- The file lists of two new packages that both install `/etc/motd`. -/
def motdLists : FileLists where
  binpkg p :=
    if p.pkgver = "hello-2_1".toList then
      .ok (some { files := [⟨"/etc/motd".toList, none, 5⟩], dirs := ["/etc".toList] })
    else .ok (some { links := [("/etc/motd".toList, "/run/motd".toList)], dirs := ["/etc".toList] })
  pkgdb _ := none

def motdPkgs : List PkgDict :=
  [{ pkgver := "hello-2_1".toList, pkgname := some "hello".toList, transaction := .install },
   { pkgver := "world-1_1".toList, pkgname := some "world".toList, transaction := .install }]

theorem transactionCollect_motd : FileConflict motdLists motdPkgs :=
  (transactionCollect_conflict_iff {} motdLists motdPkgs rfl (by decide)
    (fun p _ _ => by simp only [motdLists]; split <;> exact ⟨_, rfl⟩)
    (by unfold PreserveAgrees; decide)).1.mp (by decide)

/-- `/srv` is a directory of `a` and a link of the preserved package `b`. -/
def srvLists : FileLists where
  binpkg p :=
    if p.pkgver = "c-1_1".toList then
      .ok (some { files := [⟨"/c".toList, none, 0⟩], links := [("/c".toList, "/d".toList)] })
    else .ok (some {})
  pkgdb name :=
    if name = "a".toList then some { dirs := ["/srv".toList] }
    else some { links := [("/srv".toList, "/var/srv".toList)] }

def srvHandle : Handle :=
  { pkgdb := ⟨[("a".toList, { pkgver := "a-1_1".toList }),
               ("b".toList, { pkgver := "b-1_1".toList })], by decide⟩ }

def srvPkgs : List PkgDict :=
  [{ pkgver := "a-1_1".toList, pkgname := some "a".toList, transaction := .remove },
   { pkgver := "b-2_1".toList, pkgname := some "b".toList, transaction := .update
     preserve := some true },
   { pkgver := "c-1_1".toList, pkgname := some "c".toList, transaction := .install }]

/-- No path is recorded twice as a non-directory by the installed versions, the
new package `c` conflicts with itself, but the pass ends with `EPERM`. -/
theorem transactionCollect_srv :
    srvHandle.flags.ignoreFileConflicts = false ∧
    (∀ p ∈ srvPkgs, ∃ d, srvLists.binpkg p = .ok (some d)) ∧
    (((oldOccurrences srvHandle srvLists srvPkgs).filter fun a => a.1.2 ≠ .dir).map
      (fun a => a.1.1)).Nodup ∧
    FileConflict srvLists srvPkgs ∧
    (transactionCollect srvHandle srvLists 0 srvPkgs []).2 = some .eperm := by
  refine ⟨rfl, ?_, by decide, ⟨"/c".toList, by decide, .file, by decide, by decide⟩, by decide⟩
  intro p _
  simp only [srvLists]
  split <;> exact ⟨_, rfl⟩

end Flappy
