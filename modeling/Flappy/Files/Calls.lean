/-
Several calls of `flappy_transaction_files` in one process
(`lib/transaction_files.c`).

The paths of a call stand in a static hash table and in a static array with its
own counter.  An error leaves them where they are; the end of a call without one
frees the items and the array, but not the counter.  The next call finds what the
calls before it left.

* `FilesStatics.call` — one call, with what it finds and leaves; a call that has
  to touch freed memory has no result;
* `FilesStatics.call_freed` — which calls have a result after one that freed items;
* `FilesStatics.Undisturbed` — nothing that a call finds is anything to it;
* `runCalls_independent` — as long as all calls are so, each returns what it returns alone.
-/
import Flappy.Files.Obsoletes
import Flappy.Lib.Run

open CStr Run

namespace Flappy

/-- The static variables of `transaction_files.c`. -/
structure FilesStatics where
  /-- What the hash table holds, in the order of the array. -/
  items : List Item := []
  /-- The freed items at the front of the array.  The array itself is freed with
  them. -/
  freed : Nat := 0
deriving DecidableEq

/-- `itemsidx`. -/
def FilesStatics.itemsidx (s : FilesStatics) : Nat := s.freed + s.items.length

/-- What one call of `flappy_transaction_files` is about. -/
structure FilesCall where
  xhp : Handle
  env : FilesEnv
  pkgs : List PkgDict

/-- The call in a fresh process. -/
def FilesCall.fresh (c : FilesCall) : Except Errno Obsoletes :=
  transactionFiles c.xhp c.env c.pkgs

/-- `flappy_transaction_files` with the static variables; `none` if freed memory
is used. -/
def FilesStatics.call (s : FilesStatics) (c : FilesCall) :
    Option (FilesStatics × Except Errno Obsoletes) :=
  match transactionCollect c.xhp c.env.lists 0 c.pkgs s.items with
  | (items, rv) =>
    -- `addItem` stores into the array
    if 0 < s.freed ∧ s.items.length < items.length then none
    else
      match rv with
      | some e => some ({ s with items := items }, .error e)
      | none =>
        -- `pathcmp` reads what it compares
        if 0 < s.freed ∧ 1 < s.freed + items.length then none
        else
          let items := c.env.pathSort.sort items
          match c.env.chdir with
          | some e => some ({ s with items := items }, .error e)
          | none =>
            -- the loop of `collect_obsoletes` starts at the front of the array
            if 0 < s.freed then none
            else
              some ({ items := [], freed := items.length },
                .ok (collectObsoletes c.xhp c.env.disk items))

/-- The static variables after a call. -/
def FilesStatics.step (s : FilesStatics) (c : FilesCall) : Option FilesStatics :=
  (s.call c).map Prod.fst

/-- What a sequence of calls returns. -/
def runCalls (s : FilesStatics) : List FilesCall → Option (List (Except Errno Obsoletes))
  | [] => some []
  | c :: cs => (s.call c).bind fun r => (runCalls r.1 cs).map fun rs => r.2 :: rs

/-- What the call collects alone, and the error its collection ends with. -/
def FilesCall.collected (c : FilesCall) : List Item × Option Errno :=
  transactionCollect c.xhp c.env.lists 0 c.pkgs []

/-- What a caller sees of a call: the `obsolete_files`, and the code. -/
def filesAnswer : Except Errno Obsoletes → Except Errno (Dict Str (List Str) × Option Errno)
  | .error e => .error e
  | .ok o => .ok (o.obsd, o.rv)

/-- The tests before the hash check pass over the item, whatever stands before it. -/
def Item.passedOver (xhp : Handle) (item : Item) : Bool :=
  matchPreservedFile xhp item.file ||
    match item.new, item.old with
    | none, old => (old.map FileRecord.preserve).getD false || decide (item.file.tail ∈ baseSymlinks)
    | some _, none => true
    | some new, some old =>
      decide (new.type = .conffile ∨ ¬(old.type = .dir ∧ new.type ≠ .dir) ∧
        (new.type = old.type ∨ item.file.tail ∈ baseSymlinks))

/-- The path of the item is not left from before. -/
def Own (left : List Item) (item : Item) : Bool := decide (item.file ∉ left.map Item.file)

/-- After a call that has freed its items: the call meets no path, and its collection ends with
an error; or one item was freed, which `qsort` does not read, and the root directory cannot be
entered. -/
def FilesStatics.AfterCleanup (s : FilesStatics) (c : FilesCall) : Prop :=
  c.collected.1 = [] ∧ (c.collected.2.isSome ∨ (s.freed = 1 ∧ c.env.chdir.isSome))

/-- Where the call gets to its last loop: that passes over what is left, of which nothing lies
below a path of the call, and the paths of the call are sorted as they are alone. -/
structure FilesStatics.PassedOver (s : FilesStatics) (c : FilesCall) : Prop where
  skipped : ∀ left ∈ s.items, left.passedOver c.xhp = true
  below : ∀ left ∈ s.items, ∀ item ∈ c.collected.1, hasDirPrefix item.file left.file = false
  order : (c.env.pathSort.sort (s.items ++ c.collected.1)).filter (Own s.items) =
    c.env.pathSort.sort c.collected.1

/-- After calls that have ended with an error: none of the paths of the call is left from them. -/
structure FilesStatics.AfterError (s : FilesStatics) (c : FilesCall) : Prop where
  paths : ∀ left ∈ s.items, left.file ∉ c.collected.1.map Item.file
  loop : c.collected.2 = none → c.env.chdir = none → s.PassedOver c

/-- Nothing that the call finds is anything to it. -/
def FilesStatics.Undisturbed (s : FilesStatics) (c : FilesCall) : Prop :=
  if 0 < s.freed then s.AfterCleanup c else s.AfterError c

instance FilesStatics.decidableAfterCleanup (s : FilesStatics) (c : FilesCall) :
    Decidable (s.AfterCleanup c) :=
  inferInstanceAs (Decidable (_ ∧ _))

instance FilesStatics.decidablePassedOver (s : FilesStatics) (c : FilesCall) :
    Decidable (s.PassedOver c) :=
  decidable_of_iff
    ((∀ left ∈ s.items, left.passedOver c.xhp = true) ∧
      (∀ left ∈ s.items, ∀ item ∈ c.collected.1, hasDirPrefix item.file left.file = false) ∧
      (c.env.pathSort.sort (s.items ++ c.collected.1)).filter (Own s.items) =
        c.env.pathSort.sort c.collected.1)
    ⟨fun h => ⟨h.1, h.2.1, h.2.2⟩, fun h => ⟨h.skipped, h.below, h.order⟩⟩

instance FilesStatics.decidableAfterError (s : FilesStatics) (c : FilesCall) :
    Decidable (s.AfterError c) :=
  decidable_of_iff
    ((∀ left ∈ s.items, left.file ∉ c.collected.1.map Item.file) ∧
      (c.collected.2 = none → c.env.chdir = none → s.PassedOver c))
    ⟨fun h => ⟨h.1, h.2⟩, fun h => ⟨h.paths, h.loop⟩⟩

instance FilesStatics.decidableUndisturbed (s : FilesStatics) (c : FilesCall) :
    Decidable (s.Undisturbed c) :=
  inferInstanceAs (Decidable (if 0 < s.freed then s.AfterCleanup c else s.AfterError c))

/-! ### Collecting beside what is left -/

theorem Item.collect_file {flags : Flags} {item item' : Item} {c : FileCall}
    (h : item.collect flags c = .ok item') : item'.file = item.file := by
  have hadd : (item.add c).file = item.file := by
    rw [Item.add]
    split
    · rfl
    · rfl
  rw [Item.collect] at h
  repeat' split at h
  all_goals cases h
  all_goals first | rfl | exact hadd

/-- The paths of a table after one more call: none is lost, and that of the call is there. -/
theorem collectFile_files (flags : Flags) (items : List Item) (c : FileCall) :
    match collectFile flags items c with
    | .ok items' => items.map Item.file ⊆ items'.map Item.file ∧
        '.' :: c.file ∈ items'.map Item.file
    | .error _ => '.' :: c.file ∈ items.map Item.file := by
  rw [collectFile]
  cases hl : lookupItem items c.file with
  | none =>
    have hfile : (Item.add { file := '.' :: c.file } c).file = '.' :: c.file := by
      rw [Item.add]
      split
      · rfl
      · rfl
    simp only [List.map_append, List.map_cons, List.map_nil, hfile]
    exact ⟨List.subset_append_left _ _, List.mem_append_right _ List.mem_cons_self⟩
  | some item =>
    obtain ⟨hmem, hfile⟩ := lookupItem_mem hl
    have hin : '.' :: c.file ∈ items.map Item.file := List.mem_map.mpr ⟨item, hmem, hfile⟩
    simp only
    cases hc : item.collect flags c with
    | error e => exact hin
    | ok item' =>
      have hsame : (items.map fun i => if i.file = item.file then item' else i).map Item.file =
          items.map Item.file := by
        rw [List.map_map]
        refine List.map_congr_left fun i _ => ?_
        rw [Function.comp_apply]
        split
        · next h => rw [Item.collect_file hc, h]
        · rfl
      simp only [Except.map]
      rw [hsame]
      exact ⟨List.Subset.refl _, hin⟩

/-- A call for a path that is not left from before goes as if nothing were left. -/
theorem collectFile_append {flags : Flags} {left items : List Item} {c : FileCall}
    (h : ∀ l ∈ left, l.file ≠ '.' :: c.file) :
    collectFile flags (left ++ items) c = (collectFile flags items c).map (left ++ ·) := by
  have hl : lookupItem (left ++ items) c.file = lookupItem items c.file := by
    rw [lookupItem, List.find?_append, List.find?_eq_none.mpr (by simpa using h), Option.none_or]
    rfl
  rw [collectFile, hl, collectFile]
  cases hi : lookupItem items c.file with
  | none => simp only [Except.map, List.append_assoc]
  | some item =>
    have hfile := (lookupItem_mem hi).2
    simp only
    cases item.collect flags c with
    | error e => rfl
    | ok item' =>
      have hleft : (left.map fun i => if i.file = item.file then item' else i) = left := by
        refine (List.map_congr_left fun i hmem => ?_).trans (List.map_id left)
        rw [if_neg (by rw [hfile]; exact h i hmem), id]
      simp only [Except.map, List.map_append, hleft]

/-- A pass over file lists: it loses no path of the table, and goes as if nothing were left from
before if none of the paths it ends with is. -/
structure Beside (pass : List Item → List Item × Option Errno) : Prop where
  files : ∀ items, items.map Item.file ⊆ (pass items).1.map Item.file
  append : ∀ left items, (∀ l ∈ left, l.file ∉ (pass items).1.map Item.file) →
    pass (left ++ items) = (left ++ (pass items).1, (pass items).2)

theorem Beside.stop (rv : Option Errno) : Beside fun items => (items, rv) where
  files _ := List.Subset.refl _
  append _ _ _ := rfl

/-- One pass after another, unless the first ends with an error. -/
theorem Beside.andThen {pass next : List Item → List Item × Option Errno} (hp : Beside pass)
    (hn : Beside next) : Beside fun items =>
      match pass items with
      | (items, none) => next items
      | (items, some e) => (items, some e) where
  files items := by
    have hsub := hp.files items
    generalize pass items = r at hsub
    obtain ⟨items', rv⟩ := r
    cases rv with
    | some e => exact hsub
    | none => exact List.Subset.trans hsub (hn.files items')
  append left items h := by
    have hfiles := hn.files (pass items).1
    have happ := hp.append left items
    generalize pass items = r at h hfiles happ
    obtain ⟨items', rv⟩ := r
    cases rv with
    | some e =>
      simp only at h ⊢
      rw [happ h]
    | none =>
      simp only at h ⊢
      rw [happ fun l hl hmem => h l hl (hfiles hmem)]
      exact hn.append left items' h

theorem beside_collectCalls (flags : Flags) :
    ∀ (cs : List FileCall) (error : Bool), Beside (collectCalls flags cs error) := by
  intro cs
  induction cs with
  | nil => exact fun error => Beside.stop (if error then some .eexist else none)
  | cons c cs ih =>
    intro error
    refine ⟨fun items => ?_, fun left items h => ?_⟩
    · rw [collectCalls]
      have hfiles := collectFile_files flags items c
      cases hc : collectFile flags items c with
      | ok items' =>
        rw [hc] at hfiles
        exact List.Subset.trans hfiles.1 ((ih error).files items')
      | error e =>
        simp only
        split
        · exact (ih true).files items
        · exact List.Subset.refl _
    · -- the path of the call is among those the pass ends with
      rw [collectCalls] at h
      have hfiles := collectFile_files flags items c
      cases hc : collectFile flags items c with
      | ok items' =>
        rw [hc] at hfiles
        simp only [hc] at h
        have hne : ∀ l ∈ left, l.file ≠ '.' :: c.file := fun l hl he =>
          h l hl ((ih error).files items' (he ▸ hfiles.2))
        simp only [collectCalls, collectFile_append hne, hc, Except.map]
        exact (ih error).append left items' h
      | error e =>
        rw [hc] at hfiles
        simp only [hc] at h
        have hsub : items.map Item.file ⊆ (if e = .eexist then collectCalls flags cs true items
            else (items, some (if error then .eexist else e))).1.map Item.file := by
          split
          · exact (ih true).files items
          · exact List.Subset.refl _
        have hne : ∀ l ∈ left, l.file ≠ '.' :: c.file := fun l hl he =>
          h l hl (hsub (he ▸ hfiles))
        simp only [collectCalls, collectFile_append hne, hc, Except.map]
        by_cases he : e = .eexist
        · rw [if_pos he] at h
          rw [if_pos he, if_pos he]
          exact (ih true).append left items h
        · rw [if_neg he, if_neg he]

theorem beside_collectPkg (xhp : Handle) (lists : FileLists) (idx : Nat) (obj : PkgDict) :
    Beside (collectPkg xhp lists idx obj) := by
  by_cases hskip : obj.transaction = .hold ∨ obj.transaction = .configure
  · have heq : collectPkg xhp lists idx obj = fun items => (items, none) := by
      funext items
      rw [collectPkg, if_pos hskip]
    rw [heq]
    exact Beside.stop none
  · cases hn : obj.pkgname with
    | none =>
      have heq : collectPkg xhp lists idx obj = fun items => (items, some .einval) := by
        funext items
        rw [collectPkg, if_neg hskip, hn]
      rw [heq]
      exact Beside.stop (some .einval)
    | some pkgname =>
      -- the archive first, then the installed version
      have hbin : Beside fun items =>
          if obj.transaction.unpacks then
            collectBinpkgFiles xhp.flags lists idx obj pkgname items
          else (items, none) := by
        split
        · simp only [collectBinpkgFiles]
          cases lists.binpkg obj with
          | error e => exact Beside.stop (some e)
          | ok d =>
            cases d with
            | none => exact Beside.stop none
            | some d => exact beside_collectCalls xhp.flags _ false
        · exact Beside.stop none
      have hdb : Beside fun items => (installedFiles xhp lists pkgname).elim (items, none) fun d =>
          collectFiles xhp.flags (pkgdbPass idx obj pkgname) d items := by
        cases installedFiles xhp lists pkgname with
        | none => exact Beside.stop none
        | some d => exact beside_collectCalls xhp.flags _ false
      have heq : collectPkg xhp lists idx obj = fun items =>
          match (if obj.transaction.unpacks then
            collectBinpkgFiles xhp.flags lists idx obj pkgname items else (items, none)) with
          | (items, none) => (installedFiles xhp lists pkgname).elim (items, none) fun d =>
              collectFiles xhp.flags (pkgdbPass idx obj pkgname) d items
          | (items, some e) => (items, some e) := by
        funext items
        rw [collectPkg, if_neg hskip, hn]
        simp only
        generalize (if obj.transaction.unpacks then
          collectBinpkgFiles xhp.flags lists idx obj pkgname items else (items, none)) = r
        obtain ⟨items', rv⟩ := r
        cases rv with
        | none =>
          cases installedFiles xhp lists pkgname with
          | none => rfl
          | some d => rfl
        | some e => rfl
      rw [heq]
      exact hbin.andThen hdb

theorem beside_transactionCollect (xhp : Handle) (lists : FileLists) :
    ∀ (pkgs : List PkgDict) (idx : Nat), Beside (transactionCollect xhp lists idx pkgs) := by
  intro pkgs
  induction pkgs with
  | nil => exact fun idx => Beside.stop none
  | cons obj pkgs ih =>
    intro idx
    exact (beside_collectPkg xhp lists (idx + 1) obj).andThen (ih (idx + 1))

/-! ### The last loop beside what is left -/

/-- One state of the loop of `collect_obsoletes` is another one without what is left. -/
structure Obsoletes.Less (left : List Item) (s t : Obsoletes) : Prop where
  done : t.done = s.done.filter (Own left)
  obsd : t.obsd = s.obsd
  rv : t.rv = s.rv

theorem Item.candidate_of_passedOver {xhp : Handle} {item : Item}
    (h : item.passedOver xhp = true) (disk : Disk) (done : List Item) :
    item.candidate xhp disk done = .skip := by
  rw [Item.passedOver, Bool.or_eq_true] at h
  rw [Item.candidate]
  rcases h with h | h
  · rw [if_pos h]
  · split
    · rfl
    · cases hn : item.new with
      | none =>
        simp only [hn, Bool.or_eq_true, decide_eq_true_eq] at h ⊢
        split
        · rfl
        · next hp => rw [if_pos (h.resolve_left hp)]
      | some new =>
        cases ho : item.old with
        | none =>
          simp only
          split
          · rfl
          · rfl
        | some old =>
          simp only [hn, ho, decide_eq_true_eq] at h
          simp only
          rcases h with h | ⟨hdir, h⟩
          · rw [if_pos h]
          · split
            · rfl
            · rcases h with h | h
              · rw [if_neg (not_not.mpr h)]
              · rw [if_pos h, ite_self]

variable {left : List Item} {xhp : Handle} {disk : Disk} {s t : Obsoletes} {item : Item}

/-- What does not lie below the item plays no part in its tests. -/
theorem Obsoletes.Less.candidate (h : s.Less left t)
    (hbelow : ∀ l ∈ left, hasDirPrefix item.file l.file = false) :
    item.candidate xhp disk t.done = item.candidate xhp disk s.done := by
  have hdel : canDeleteDirectory disk t.done item.file =
      canDeleteDirectory disk s.done item.file := by
    have hinside : t.done.filter (fun i => hasDirPrefix item.file i.file) =
        s.done.filter (fun i => hasDirPrefix item.file i.file) := by
      rw [h.done, List.filter_filter]
      refine List.filter_congr fun i _ => ?_
      by_cases hown : Own left i = true
      · rw [hown, Bool.and_true]
      · -- an item that is left is not below
        rw [Own, decide_eq_true_eq, not_not] at hown
        obtain ⟨l, hl, hfile⟩ := List.mem_map.mp hown
        rw [← hfile, hbelow l hl, Bool.false_and]
    rw [canDeleteDirectory, canDeleteDirectory, hinside]
  rw [Item.candidate, Item.candidate, hdel]

theorem Obsoletes.Less.push (h : s.Less left t) (hown : Own left item = true) :
    t.done ++ [item] = (s.done ++ [item]).filter (Own left) := by
  rw [List.filter_append, ← h.done, List.filter_cons_of_pos hown, List.filter_nil]

theorem Obsoletes.Less.push_deleted (h : s.Less left t) (hown : Own left item = true) :
    t.done ++ [{ item with deleted := true }] =
      (s.done ++ [{ item with deleted := true }]).filter (Own left) := by
  have hown' : Own left { item with deleted := true } = true := hown
  exact h.push hown'

theorem Obsoletes.Less.add (h : s.Less left t) (hown : Own left item = true) :
    (s.add item).Less left (t.add item) := by
  rw [Obsoletes.add, Obsoletes.add]
  cases item.remover with
  | none => exact ⟨h.push hown, h.obsd, h.rv⟩
  | some pkgname => exact ⟨h.push_deleted hown, by rw [h.obsd], h.rv⟩

theorem Obsoletes.Less.finish (h : s.Less left t) (hown : Own left item = true) :
    (s.finish xhp disk item).Less left (t.finish xhp disk item) := by
  rw [Obsoletes.finish, Obsoletes.finish]
  split
  · exact ⟨h.push hown, h.obsd, h.rv⟩
  · exact h.add hown

theorem Obsoletes.Less.judge (h : s.Less left t) (hown : Own left item = true) :
    (s.judge xhp disk item).Less left (t.judge xhp disk item) := by
  rw [Obsoletes.judge, Obsoletes.judge]
  cases item.old.bind FileRecord.sha256 with
  | none => exact h.finish hown
  | some sha256 =>
    have h' : Obsoletes.Less left
        { s with
          rv := hashRv disk item.file sha256
          checks := s.checks ++ [(item.file, sha256)] }
        { t with
          rv := hashRv disk item.file sha256
          checks := t.checks ++ [(item.file, sha256)] } := ⟨h.done, h.obsd, rfl⟩
    simp only
    cases item.hashCheck xhp disk sha256 with
    | proceed => exact h'.finish hown
    | missing => exact ⟨h.push_deleted hown, h.obsd, rfl⟩
    | keep => exact ⟨h.push hown, h.obsd, rfl⟩

/-- The loop over more items, all of which it passes over, ends with the same lists and code. -/
theorem collectObsoletesLoop_less :
    ∀ {items : List Item} {s t : Obsoletes}, s.Less left t →
      (∀ item ∈ items, Own left item = false → item.passedOver xhp = true) →
      (∀ item ∈ items, Own left item = true → ∀ l ∈ left, hasDirPrefix item.file l.file = false) →
      (collectObsoletesLoop xhp disk items s).Less left
        (collectObsoletesLoop xhp disk (items.filter (Own left)) t) := by
  intro items
  induction items with
  | nil => exact fun h _ _ => h
  | cons item items ih =>
    intro s t h hpass hbelow
    rw [List.forall_mem_cons] at hpass hbelow
    rw [collectObsoletesLoop]
    by_cases hown : Own left item = true
    · rw [List.filter_cons_of_pos hown, collectObsoletesLoop, h.candidate (hbelow.1 hown)]
      cases item.candidate xhp disk s.done with
      | skip => exact ih ⟨h.push hown, h.obsd, h.rv⟩ hpass.2 hbelow.2
      | candidate => exact ih (h.judge hown) hpass.2 hbelow.2
      | blocked => exact ⟨h.done, h.obsd, rfl⟩
    · rw [List.filter_cons_of_neg hown,
        Item.candidate_of_passedOver (hpass.1 (Bool.eq_false_iff.mpr hown)) disk s.done]
      refine ih ⟨?_, h.obsd, h.rv⟩ hpass.2 hbelow.2
      rw [List.filter_append, ← h.done, List.filter_cons_of_neg hown, List.filter_nil,
        List.append_nil]

/-! ### One call -/

/-- After a call that has freed items, a call has a result only if its collection
ends with an error before it meets a path, or if it meets none, one item was freed
and the root directory cannot be entered. -/
theorem FilesStatics.call_freed {s : FilesStatics} (hf : 0 < s.freed) (hi : s.items = [])
    (c : FilesCall) : (s.call c).isSome ↔ s.AfterCleanup c := by
  rw [FilesStatics.call, FilesStatics.AfterCleanup, FilesCall.collected, hi]
  rcases transactionCollect c.xhp c.env.lists 0 c.pkgs [] with ⟨items, rv⟩
  cases items with
  | cons item items => simp [hf]
  | nil =>
    cases rv with
    | some e => simp
    | none =>
      by_cases h1 : s.freed = 1
      · cases c.env.chdir with
        | some e => simp [h1]
        | none => simp [h1]
      · have hlt : 1 < s.freed := by omega
        simp [hf, hlt, h1]

/-- The last loop of a call that nothing is anything to. -/
theorem collectObsoletes_less (xhp : Handle) (disk : Disk) {pathSort : PathSort} {own : List Item}
    (hpaths : ∀ l ∈ left, l.file ∉ own.map Item.file)
    (hskip : ∀ l ∈ left, l.passedOver xhp = true)
    (hbelow : ∀ l ∈ left, ∀ item ∈ own, hasDirPrefix item.file l.file = false)
    (horder : (pathSort.sort (left ++ own)).filter (Own left) = pathSort.sort own) :
    (collectObsoletes xhp disk (pathSort.sort (left ++ own))).Less left
      (collectObsoletes xhp disk (pathSort.sort own)) := by
  have hmem : ∀ item ∈ pathSort.sort (left ++ own), item ∈ left ∨ item ∈ own := fun item h =>
    List.mem_append.mp ((pathSort.perm _).mem_iff.mp h)
  rw [collectObsoletes, collectObsoletes, ← horder]
  refine collectObsoletesLoop_less ⟨rfl, rfl, rfl⟩ (fun item h hown => ?_) fun item h hown => ?_
  · rcases hmem item h with h | h
    · exact hskip item h
    · -- a path of the call is not left from before
      rw [Own, decide_eq_false_iff_not, not_not] at hown
      obtain ⟨l, hl, hfile⟩ := List.mem_map.mp hown
      exact absurd (List.mem_map.mpr ⟨item, h, hfile.symm⟩) (hpaths l hl)
  · rcases hmem item h with h | h
    · rw [Own, decide_eq_true_eq] at hown
      exact absurd (List.mem_map_of_mem h) hown
    · exact fun l hl => hbelow l hl item h

/-- The array is freed with the items in it. -/
def FilesStatics.Clean (s : FilesStatics) : Prop := 0 < s.freed → s.items = []

/-- A call that nothing is anything to returns what it returns alone. -/
theorem FilesStatics.call_undisturbed {s : FilesStatics} (hclean : s.Clean) {c : FilesCall}
    (h : s.Undisturbed c) :
    ∃ s' r, s.call c = some (s', r) ∧ filesAnswer r = filesAnswer c.fresh ∧ s'.Clean := by
  obtain ⟨⟨items, rv⟩, hc⟩ : ∃ r, c.collected = r := ⟨_, rfl⟩
  have hfresh : transactionCollect c.xhp c.env.lists 0 c.pkgs [] = (items, rv) := hc
  rw [FilesStatics.Undisturbed] at h
  by_cases hf : 0 < s.freed
  · rw [if_pos hf] at h
    -- the array is gone: a call that collects a path would store it there
    obtain ⟨hnil, hend⟩ := h
    rw [hc] at hnil hend
    obtain rfl : items = [] := hnil
    rw [FilesStatics.call, FilesCall.fresh, transactionFiles, hclean hf, hfresh]
    cases rv with
    | some e => exact ⟨{ s with items := [] }, .error e, by simp, rfl, fun _ => rfl⟩
    | none =>
      obtain ⟨h1, hdir⟩ := hend.resolve_left (by simp)
      obtain ⟨e, he⟩ := Option.isSome_iff_exists.mp hdir
      have hsort : c.env.pathSort.sort [] = [] := (c.env.pathSort.perm []).eq_nil
      rw [he]
      exact ⟨{ s with items := [] }, .error e, by simp [h1, hsort], rfl, fun _ => rfl⟩
  · rw [if_neg hf] at h
    obtain ⟨hpaths, hloop⟩ := h
    -- what the earlier calls left stands before the items of this one
    have happ := (beside_transactionCollect c.xhp c.env.lists c.pkgs 0).append s.items [] hpaths
    rw [List.append_nil, hfresh] at happ
    have hclean' : ∀ items, FilesStatics.Clean { s with items := items } :=
      fun items h => absurd h hf
    rw [FilesStatics.call, FilesCall.fresh, transactionFiles, happ, hfresh]
    cases rv with
    | some e =>
      exact ⟨{ s with items := s.items ++ items }, .error e, by
        simp only [hf, false_and, if_false], rfl, hclean' _⟩
    | none =>
      cases hdir : c.env.chdir with
      | some e =>
        exact ⟨{ s with items := c.env.pathSort.sort (s.items ++ items) }, .error e, by
          simp only [hf, false_and, if_false], rfl, hclean' _⟩
      | none =>
        obtain ⟨hskip, hbelow, horder⟩ := hloop (by rw [hc]) hdir
        rw [hc] at hpaths hbelow horder
        have hless := collectObsoletes_less c.xhp c.env.disk hpaths hskip hbelow horder
        refine ⟨_, _, by simp only [hf, false_and, if_false]; rfl, ?_, fun _ => rfl⟩
        rw [filesAnswer, filesAnswer, hless.obsd, hless.rv]

/-! ### A process -/

theorem runCalls_cons_of_call {s s' : FilesStatics} {c : FilesCall} {cs : List FilesCall}
    {r : Except Errno Obsoletes} (h : s.call c = some (s', r)) :
    runCalls s (c :: cs) = (runCalls s' cs).map fun rs => r :: rs := by
  rw [runCalls, h]
  rfl

theorem runCalls_undisturbed {s : FilesStatics} {cs : List FilesCall} (hclean : s.Clean)
    (h : Along FilesStatics.step FilesStatics.Undisturbed s cs) :
    ∃ rs, runCalls s cs = some rs ∧
      rs.map filesAnswer = cs.map fun c => filesAnswer c.fresh := by
  induction cs generalizing s with
  | nil => exact ⟨[], rfl, rfl⟩
  | cons c cs ih =>
    obtain ⟨hc, hcs⟩ := h
    obtain ⟨s', r, hcall, hr, hclean'⟩ := FilesStatics.call_undisturbed hclean hc
    rw [FilesStatics.step, hcall] at hcs
    obtain ⟨rs, hrs, hmap⟩ := ih hclean' hcs
    refine ⟨r :: rs, ?_, ?_⟩
    · rw [runCalls_cons_of_call hcall, hrs]
      rfl
    · rw [List.map_cons, List.map_cons, hr, hmap]

theorem runCalls_append_eq_none {s s' : FilesStatics} {before after : List FilesCall}
    {c : FilesCall} (hrun : Run.run FilesStatics.step s before = some s')
    (hcall : s'.call c = none) : runCalls s (before ++ c :: after) = none := by
  induction before generalizing s with
  | nil =>
    cases hrun
    rw [List.nil_append, runCalls, hcall]
    rfl
  | cons d before ih =>
    obtain ⟨s₁, h₁, hrun⟩ := run_cons_eq_some.mp hrun
    rw [FilesStatics.step, Option.map_eq_some_iff] at h₁
    obtain ⟨⟨s₂, r⟩, hd, rfl⟩ := h₁
    rw [List.cons_append, runCalls_cons_of_call hd, ih hrun]
    rfl

/-- A call keeps the table empty once the array is freed. -/
theorem FilesStatics.step_clean {s s' : FilesStatics} {c : FilesCall} (hclean : s.Clean)
    (h : s.step c = some s') : s'.Clean := by
  rw [FilesStatics.step, Option.map_eq_some_iff] at h
  obtain ⟨⟨s₁, r⟩, hcall, rfl⟩ := h
  intro hf
  rw [FilesStatics.call] at hcall
  generalize transactionCollect c.xhp c.env.lists 0 c.pkgs s.items = collected at hcall
  obtain ⟨items, rv⟩ := collected
  simp only at hcall
  split at hcall
  · cases hcall
  · next hstore =>
    -- nothing was stored into the freed array
    have hnil : 0 < s.freed → items = [] := by
      intro hfreed
      rw [hclean hfreed] at hstore
      exact List.eq_nil_of_length_eq_zero (by simpa [hfreed] using hstore)
    cases rv with
    | some e =>
      cases hcall
      exact hnil hf
    | none =>
      simp only at hcall
      split at hcall
      · cases hcall
      · cases hdir : c.env.chdir with
        | some e =>
          rw [hdir] at hcall
          cases hcall
          simp only [hnil hf]
          exact (c.env.pathSort.perm []).eq_nil
        | none =>
          rw [hdir] at hcall
          simp only at hcall
          split at hcall
          · cases hcall
          · cases hcall
            rfl

/-- **Calls that nothing of the calls before them is anything to** return what they return alone.
After a call that has freed items there are no others: any other call uses freed memory. -/
theorem runCalls_independent (cs : List FilesCall) :
    (Along FilesStatics.step FilesStatics.Undisturbed {} cs →
      ∃ rs, runCalls {} cs = some rs ∧
        rs.map filesAnswer = cs.map fun c => filesAnswer c.fresh) ∧
    ∀ before c after s, cs = before ++ c :: after →
      Run.run FilesStatics.step {} before = some s → 0 < s.freed → ¬s.Undisturbed c →
        runCalls {} cs = none := by
  have hempty : FilesStatics.Clean {} := fun _ => rfl
  refine ⟨runCalls_undisturbed hempty, ?_⟩
  rintro before c after s rfl hrun hf hdist
  have hclean : s.Clean := run_keeps (fun _ _ _ => FilesStatics.step_clean) hempty hrun
  refine runCalls_append_eq_none hrun (Option.isNone_iff_eq_none.mp ?_)
  rw [FilesStatics.Undisturbed, if_pos hf, ← FilesStatics.call_freed hf (hclean hf)] at hdist
  simpa using hdist

/-- Installations of packages whose archives hold the same file. -/
def sharedLists : FileLists where
  binpkg _ := .ok (some { files := [⟨"/f".toList, none, 5⟩] })
  pkgdb _ := none

/-- An archive with another file. -/
def otherLists : FileLists where
  binpkg _ := .ok (some { files := [⟨"/g".toList, none, 5⟩] })
  pkgdb _ := none

/-- An archive that cannot be read. -/
def badLists : FileLists where
  binpkg _ := .error .enoent
  pkgdb _ := none

def sharedDisk : Disk where
  sha256 _ := .error .enoent
  opendir _ := .error .enoent
  symlinkTarget _ _ := none

def installCall (lists : FileLists) (names : List String) : FilesCall where
  xhp := {}
  env := { lists := lists, disk := sharedDisk, pathSort := insertionPathSort }
  pkgs := names.map fun n =>
    { pkgver := (n ++ "-1_1").toList, pkgname := some n.toList, transaction := .install }

def sharedCall (names : List String) : FilesCall := installCall sharedLists names

/-- A call with a file conflict, a call that succeeds beside what that one has left, and a call
that cannot read its package. -/
theorem runCalls_independent_shared :
    ∃ rs, runCalls {} [sharedCall ["a", "b"], installCall otherLists ["c"],
        installCall badLists ["d"]] = some rs ∧
      rs.map filesAnswer = [filesAnswer (sharedCall ["a", "b"]).fresh,
        filesAnswer (installCall otherLists ["c"]).fresh,
        filesAnswer (installCall badLists ["d"]).fresh] :=
  (runCalls_independent _).1 (by decide +kernel)

/-- The second of two equal calls uses freed memory, and a call after a file
conflict reports a conflict of its own package with the failed transaction. -/
theorem runCalls_shared :
    runCalls {} [sharedCall ["a"], sharedCall ["a"]] = none ∧
      (∃ o, (sharedCall ["a"]).fresh = .ok o) ∧
      runCalls {} [sharedCall ["a", "b"], sharedCall ["a"]] =
        some [.error .eexist, .error .eexist] := by
  have hnone : (runCalls {} [sharedCall ["a"], sharedCall ["a"]]).isNone = true := by
    decide +kernel
  have hok : (sharedCall ["a"]).fresh.isOk = true := by decide +kernel
  refine ⟨Option.isNone_iff_eq_none.mp hnone, ?_, rfl⟩
  cases h : (sharedCall ["a"]).fresh with
  | error e => simp [h, Except.isOk, Except.toBool] at hok
  | ok o => exact ⟨o, rfl⟩

end Flappy
