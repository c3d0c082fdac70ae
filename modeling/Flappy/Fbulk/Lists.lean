/-
The lists of the bulk builder (`bin/flappy-fbulk/main.c`).

The BuildList and the RunList share the link field of the items, and the enumeration of
the packages, the builds and the completions all write to them.

* `Inv.step` — each step keeps the invariant, unless an assertion fails;
* `run_listed` — in every run the two lists are well formed, and each package is forked
  and completed at most once.
-/
import Flappy.Fbulk.Invariant

open CStr Intrusive Reentry

namespace Flappy.Fbulk

variable {s s' s'' : State} {bl rl : List Str} {n x item : Str}

/-! ### The steps -/

theorem processCompletion_eq (h : (s.heap x).status = .XRUN ∨ (s.heap x).status = .XDEPFAIL) :
    processCompletion s x = { s with completing := (x, (s.heap x).dbase) :: s.completing } :=
  if_pos h

theorem addBuild_heap (s : State) (x n : Str) :
    (addBuild s x).heap n =
      { s.heap n with
        bnext := (s.builds.write s.buildListP (some x)).next n
        status := if n = x then .XBUILD else (s.heap n).status } := by
  by_cases hn : n = x
  · rw [hn]
    simp [addBuild, State.writeBuild, State.modify]
  · simp [addBuild, State.writeBuild, State.modify, hn]

theorem addBuild_heap_ne (h : s.buildListP = lastLink bl) (hn : n ∉ bl) (hne : n ≠ x) :
    (addBuild s x).heap n = s.heap n := by
  rw [addBuild_heap, h, write_lastLink_next hn, if_neg hne]
  rfl

theorem addBuild_status (s : State) (x n : Str) :
    ((addBuild s x).heap n).status = if n = x then .XBUILD else (s.heap n).status := by
  rw [addBuild_heap]

/-- An item with a clear link field is put at the end of the BuildList. -/
theorem addBuild_listed (h : Listed s bl rl) (hbnext : (s.heap x).bnext = none) (hbl : x ∉ bl)
    (hrl : x ∉ rl) : Listed (addBuild s x) (bl ++ [x]) rl where
  build := by
    have hwrite := h.build.concat h.buildNodup hbl hbnext
    rw [← h.buildListP] at hwrite
    refine Linked.congr (c := s.builds.write s.buildListP (some x)) rfl (fun m _ => ?_) hwrite
    show ((addBuild s x).heap m).bnext = _
    rw [addBuild_heap]
  buildListP := by
    show Link.next x = lastLink (bl ++ [x])
    rw [lastLink_concat]
  buildNodup := by
    refine List.nodup_append.mpr ⟨h.buildNodup, List.nodup_singleton x, ?_⟩
    rintro a ha b hb rfl
    rw [List.mem_singleton] at hb
    exact hbl (hb ▸ ha)
  run := by
    refine Linked.congr (c := s.running) rfl (fun m hm => ?_) h.run
    show ((addBuild s x).heap m).bnext = (s.heap m).bnext
    rw [addBuild_heap, h.buildListP]
    exact write_lastLink_next (c := s.builds) fun hmem => h.disjoint m hmem hm
  runNodup := h.runNodup
  disjoint m hm := by
    rcases List.mem_append.mp hm with hm | hm
    · exact h.disjoint m hm
    · rw [List.mem_singleton.mp hm]
      exact hrl
  nRunning := h.nRunning

theorem addBuild_byStatus (hlisted : Listed s bl rl) (h : ByStatus s bl rl)
    (hx : (s.heap x).status = .XWAITING) : ByStatus (addBuild s x) (bl ++ [x]) rl where
  build m := by
    rw [List.mem_append, List.mem_singleton, addBuild_status, h.build]
    by_cases hm : m = x <;> simp [hm]
  run m := by
    rw [addBuild_status, h.run]
    by_cases hm : m = x
    · simp [hm, hx]
    · rw [if_neg hm]
      exact Iff.rfl
  idle m hm := by
    rw [Item.Idle, addBuild_status] at hm
    have hmx : m ≠ x := by
      rintro rfl
      simp at hm
    rw [if_neg hmx] at hm
    -- an idle item is not the last one of the list
    have hbl : m ∉ bl := fun hmem => by
      rw [(h.build m).mp hmem] at hm
      simp at hm
    rw [addBuild_heap_ne hlisted.buildListP hbl hmx]
    exact h.idle m hm

theorem Inv.addBuild (h : Inv s bl rl) (hx : (s.heap x).status = .XWAITING)
    (hknown : x ∈ s.hashtab) : Inv (addBuild s x) (bl ++ [x]) rl := by
  have hbl : x ∉ bl := fun hmem => by
    have := (h.byStatus.build x).mp hmem
    simp [hx] at this
  have hrl : x ∉ rl := fun hmem => by
    have := ((h.byStatus.run x).mp hmem).1
    simp [hx] at this
  have hkeep : ∀ m, (s.heap m).status ≠ .XWAITING →
      ((Fbulk.addBuild s x).heap m).status = (s.heap m).status := by
    intro m hm
    rw [addBuild_status, if_neg]
    rintro rfl
    exact hm hx
  refine
    { listed := addBuild_listed h.listed (h.byStatus.idle x (Or.inl hx)) hbl hrl
      byStatus := addBuild_byStatus h.listed h.byStatus hx
      completing := h.completing.of_eq (fun m hm => hkeep m ?_) (fun m => by rw [addBuild_heap])
        fun m hm => ?_
      once := { h.once with }
      past := h.past.of_status rfl rfl fun m hm => hkeep m ?_
      known := h.known.of_heap (fun m hm => ?_) (fun m => by rw [addBuild_heap]) rfl rfl
      cursor := h.cursor }
  · rcases h.completing.working m hm with hst | hst <;> simp [hst]
  · rw [addBuild_status] at hm
    have hmx : m ≠ x := by
      rintro rfl
      simp at hm
    rw [if_neg hmx] at hm
    rw [addBuild_heap]
    exact h.completing.failed m hm
  · rcases hm with hst | hst <;> simp [hst]
  · have hmbl : m ∉ bl := fun hmem => hm (h.known.mem_hashtab (by
      rw [(h.byStatus.build m).mp hmem]
      decide))
    exact addBuild_heap_ne h.listed.buildListP hmbl fun he => hm (he ▸ hknown)

theorem completionStep_nil_heap (s : State) (item : Str) (callers : List (Str × List Str)) :
    (completionStep s item [] callers).heap =
      (s.modify item fun i => { i with status := .XDONE }).heap := rfl

theorem completionStep_nil_self (s : State) (item : Str) (callers : List (Str × List Str)) :
    ((completionStep s item [] callers).heap item).status = .XDONE := by
  rw [completionStep_nil_heap, State.heap_modify_self]

theorem completionStep_nil_ne (s : State) (callers : List (Str × List Str)) (hn : n ≠ item) :
    (completionStep s item [] callers).heap n = s.heap n := by
  rw [completionStep_nil_heap, State.heap_modify_ne hn]

/-- Of the item itself only the status is written. -/
theorem completionStep_nil_field (s : State) (item n : Str) (callers : List (Str × List Str)) :
    ((completionStep s item [] callers).heap n).bnext = (s.heap n).bnext ∧
      ((completionStep s item [] callers).heap n).dbase = (s.heap n).dbase := by
  rw [completionStep_nil_heap]
  exact ⟨State.field_modify Item.bnext rfl n, State.field_modify Item.dbase rfl n⟩

theorem finish_byStatus {callers : List (Str × List Str)} (h : ByStatus s bl rl)
    (hs : s.completing = (item, []) :: callers) (hbl : item ∉ bl) :
    ByStatus (completionStep s item [] callers) bl rl where
  build m := by
    by_cases hm : m = item
    · simp [hm, hbl, completionStep_nil_self]
    · rw [completionStep_nil_ne s callers hm]
      exact h.build m
  run m := by
    by_cases hm : m = item
    · have hrl : item ∉ rl := fun hmem => ((h.run item).mp hmem).2 (by rw [hs]; simp)
      simp [hm, hrl, completionStep_nil_self]
    · rw [completionStep_nil_ne s callers hm, h.run m, hs, visiting_cons, List.mem_cons, not_or]
      exact ⟨fun hm => ⟨hm.1, hm.2.2⟩, fun hc => ⟨hc.1, hm, hc.2⟩⟩
  idle m hm := by
    rw [(completionStep_nil_field s item m callers).1]
    refine h.idle m ?_
    by_cases he : m = item
    · simp [Item.Idle, he, completionStep_nil_self] at hm
    · rwa [completionStep_nil_ne s callers he] at hm

theorem finish_past {callers : List (Str × List Str)} (h : Past s) :
    Past (completionStep s item [] callers) where
  forks m hm := by
    by_cases he : m = item
    · exact Or.inr (he ▸ completionStep_nil_self s item callers)
    · rw [completionStep_nil_ne s callers he]
      exact h.forks m hm
  finished m hm := by
    by_cases he : m = item
    · exact he ▸ completionStep_nil_self s item callers
    · rw [completionStep_nil_ne s callers he]
      exact h.finished m ((List.mem_cons.mp hm).resolve_left he)

theorem Inv.finish {callers : List (Str × List Str)} (h : Inv s bl rl)
    (hs : s.completing = (item, []) :: callers) :
    Inv (completionStep s item [] callers) bl rl := by
  have hcomp := h.completing
  rw [hs] at hcomp
  have hitem := hcomp.working item List.mem_cons_self
  have hbl : item ∉ bl := fun hmem => by
    have := (h.byStatus.build item).mp hmem
    simp [this] at hitem
  have hfin : item ∉ s.finished := fun hmem => by
    have := h.past.finished item hmem
    simp [this] at hitem
  have hknown : item ∈ s.hashtab := h.known.mem_hashtab fun hst => by simp [hst] at hitem
  have hfield := fun m => completionStep_nil_field s item m callers
  refine
    { listed := { h.listed with
        build := Linked.congr (c := s.builds) rfl (fun m _ => (hfield m).1) h.listed.build
        run := Linked.congr (c := s.running) rfl (fun m _ => (hfield m).1) h.listed.run }
      byStatus := finish_byStatus h.byStatus hs hbl
      completing := hcomp.finish (fun m hm => ?_) (completionStep_nil_self s item callers)
        fun m => (hfield m).2
      once := ⟨h.once.forksNodup, List.nodup_cons.mpr ⟨hfin, h.once.finishedNodup⟩, ?_⟩
      past := finish_past h.past
      known := h.known.of_heap (fun m hm => completionStep_nil_ne s callers ?_)
        (fun m => (hfield m).2) rfl rfl
      cursor := h.cursor }
  · rw [completionStep_nil_ne s callers hm]
    exact ⟨rfl, rfl⟩
  · show s.nFinished + 1 = (item :: s.finished).length
    rw [h.once.nFinished, List.length_cons]
  · rintro rfl
    exact hm hknown

theorem Known.modify {f : Item → Item} (hn : n ∈ s.hashtab)
    (hdbase : ∀ y ∈ (f (s.heap n)).dbase, y ∈ s.hashtab) (h : Known s) :
    Known (s.modify n f) where
  fresh m hm := by
    have hne : m ≠ n := by
      rintro rfl
      exact hm hn
    rw [State.heap_modify_ne hne]
    exact h.fresh m hm
  dbase m y hy := by
    by_cases hm : m = n
    · rw [hm, State.heap_modify_self] at hy
      exact hdbase y hy
    · rw [State.heap_modify_ne hm] at hy
      exact h.dbase m y hy
  frames := h.frames

/-- A quiet write, with the calls of `processCompletion` as they are afterwards. -/
theorem Inv.quiet (h : Inv s bl rl) (hq : Quiet s s') (hknown : Known s')
    (hstack : s'.stack = s.stack) (hcomp : Completing s'.heap s'.completing) : Inv s' bl rl where
  listed := hq.listed h.listed
  byStatus := hq.byStatus h.byStatus
  completing := hcomp
  once := hq.once h.once
  past := hq.past h.past
  known := hknown
  cursor := hstack ▸ h.cursor

/-- A quiet write, and the call of `processCompletion` for an item that has failed. -/
theorem Inv.enter (h : Inv s bl rl) (hq : Quiet s s') (hknown : Known s')
    (hstack : s'.stack = s.stack) (hx : (s'.heap x).status = .XDEPFAIL)
    (hcomp : Completing s'.heap ((x, (s'.heap x).dbase) :: s'.completing)) :
    Inv (processCompletion s' x) bl rl := by
  have hstatus := hq.byStatus h.byStatus
  rw [processCompletion_eq (Or.inr hx)]
  refine
    { listed := { hq.listed h.listed with }
      byStatus := ⟨hstatus.build, fun m => ?_, hstatus.idle⟩
      completing := hcomp
      once := { hq.once h.once with }
      past := { hq.past h.past with }
      known := { hknown with }
      cursor := hstack ▸ h.cursor }
  rw [hstatus.run m, visiting_cons, List.mem_cons, not_or]
  constructor
  · rintro ⟨hst, hm⟩
    refine ⟨hst, ?_, hm⟩
    rintro rfl
    exact absurd (hx.symm.trans hst) (by decide)
  · rintro ⟨hst, -, hm⟩
    exact ⟨hst, hm⟩

/-- The reverse dependencies of an item are looked at without the calls changing. -/
theorem Inv.notify {left : List Str} {callers : List (Str × List Str)} (h : Inv s bl rl)
    (hs : s.completing = (item, x :: left) :: callers) :
    ∃ bl', Inv (notify { s with completing := (item, left) :: callers } item x) bl' rl := by
  have hcomp := h.completing
  rw [hs] at hcomp
  have hx : x ∈ s.hashtab := h.known.dbase item x hcomp.mem_dbase
  rw [notify_eq]
  have hqu : Quiet s (countDown s x ((item, left) :: callers)) :=
    countDown_quiet (by rw [hs]; rfl)
  set u := countDown s x ((item, left) :: callers)
  have hknown : Known u := Known.modify hx (h.known.dbase x) { h.known with }
  have hcompu : Completing u.heap ((item, x :: left) :: callers) := hqu.completing hcomp
  have hpass : (∀ c, (c, x) ∉ calls ((item, x :: left) :: callers)) → Inv u bl rl := fun hnot =>
    h.quiet hqu hknown rfl (hcompu.skip hnot)
  by_cases hidle : (u.heap x).status = .XWAITING ∨ (u.heap x).status = .XDEPFAIL
  · rw [if_pos hidle]
    by_cases hcode : (u.heap item).xcode = 0
    · -- only a build that ran can be good, and its call is the only one
      rw [if_pos hcode]
      have hnil : callers = [] := hcompu.callers_eq_nil hcode
      have hpass := hpass fun c hc => by
        rw [hnil] at hc
        exact absurd hc List.not_mem_nil
      split
      · split
        · exact ⟨_, hpass.addBuild ‹_› hx⟩
        · have hfail := hidle.resolve_left ‹_›
          exact ⟨bl, h.enter hqu hknown rfl hfail (hcompu.enter hfail)⟩
      · exact ⟨bl, hpass⟩
    · rw [if_neg hcode]
      have hquv := markFailed_quiet hidle hcode
      have hfail : ((markFailed u x (u.heap item).xcode).heap x).status = .XDEPFAIL := by
        rw [markFailed_self]
      exact ⟨bl, h.enter (hqu.trans hquv) (hknown.modify hx (hknown.dbase x)) rfl hfail
        ((hquv.completing hcompu).enter hfail)⟩
  · rw [if_neg hidle]
    refine ⟨bl, hpass fun c hc => hidle (Or.inr ?_)⟩
    exact (hcompu.called c x hc).1

/-- Completion of a build that is off the RunList. -/
theorem Inv.ofRun (hlisted : Listed s bl rl) (hbuild : ∀ n, n ∈ bl ↔ (s.heap n).status = .XBUILD)
    (hrun : ∀ n, n ∈ rl ↔ (s.heap n).status = .XRUN ∧ n ≠ x)
    (hidle : ∀ n, (s.heap n).Idle → (s.heap n).bnext = none) (hx : (s.heap x).status = .XRUN)
    (hcomp : s.completing = [])
    (hfailed : ∀ n, (s.heap n).status = .XDEPFAIL → (s.heap n).xcode ≠ 0)
    (honce : Once s) (hpast : Past s) (hknown : Known s) (hcursor : Cursor s.stack rl) :
    Inv (processCompletion s x) bl rl := by
  rw [processCompletion_eq (Or.inl hx), hcomp]
  refine
    { listed := { hlisted with }
      byStatus := ⟨hbuild, fun m => ?_, hidle⟩
      completing := Completing.root (Or.inl hx) hfailed
      once := { honce with }
      past := { hpast with }
      known := { hknown with }
      cursor := hcursor }
  rw [hrun m]
  simp [visiting]

theorem unlinkRun_heap_self (s : State) (itemp : Link Str) (status : UInt8) :
    (unlinkRun s itemp item status).heap item =
      { s.heap item with bnext := none, xcode := status.toNat } := by
  simp [unlinkRun, State.writeRun, State.modify]

theorem unlinkRun_heap_ne (s : State) (itemp : Link Str) (status : UInt8) (hn : n ≠ item) :
    (unlinkRun s itemp item status).heap n =
      { s.heap n with bnext := (s.running.write itemp (s.heap item).bnext).next n } := by
  simp [unlinkRun, State.writeRun, State.modify, hn]

/-- Of the fields that the invariant is about, only the link fields are written, and the exit
code of the item. -/
theorem unlinkRun_field (s : State) (itemp : Link Str) (item n : Str) (status : UInt8) :
    ((unlinkRun s itemp item status).heap n).status = (s.heap n).status ∧
      ((unlinkRun s itemp item status).heap n).dbase = (s.heap n).dbase ∧
      (n ≠ item → ((unlinkRun s itemp item status).heap n).xcode = (s.heap n).xcode) := by
  by_cases hn : n = item
  · rw [hn, unlinkRun_heap_self]
    exact ⟨rfl, rfl, fun h => absurd rfl h⟩
  · rw [unlinkRun_heap_ne _ _ _ hn]
    exact ⟨rfl, rfl, fun _ => rfl⟩

/-- Outside the RunList nothing changes. -/
theorem unlinkRun_heap_of_not_mem {pre post : List Str} (s : State) (status : UInt8)
    (hn : n ∉ pre ++ item :: post) :
    (unlinkRun s (lastLink pre) item status).heap n = s.heap n := by
  have hne : n ≠ item := by
    rintro rfl
    exact hn (by simp)
  rw [unlinkRun_heap_ne _ _ _ hne,
    write_lastLink_next fun hpre => hn (List.mem_append_left _ hpre)]
  rfl

/-- An item is taken out of the RunList. -/
theorem unlinkRun_listed {pre post : List Str} (h : Listed s bl (pre ++ item :: post))
    (hitem : item ∉ pre ++ post) (status : UInt8) :
    Listed (unlinkRun s (lastLink pre) item status) bl (pre ++ post) where
  build := by
    refine Linked.congr (c := s.builds) rfl (fun m hm => ?_) h.build
    show ((unlinkRun s (lastLink pre) item status).heap m).bnext = (s.heap m).bnext
    rw [unlinkRun_heap_of_not_mem s status (h.disjoint m hm)]
  buildListP := h.buildListP
  buildNodup := h.buildNodup
  run := by
    refine Linked.congr (c := s.running.write (lastLink pre) (s.heap item).bnext) rfl
      (fun m hm => ?_) (h.run.unlink h.runNodup)
    have hne : m ≠ item := by
      rintro rfl
      exact hitem hm
    show ((unlinkRun s (lastLink pre) item status).heap m).bnext = _
    rw [unlinkRun_heap_ne _ _ _ hne]
  runNodup := ((List.perm_middle.nodup_iff).mp h.runNodup).of_cons
  disjoint m hm hmem :=
    h.disjoint m hm ((List.sublist_cons_self item post).append_left pre |>.subset hmem)
  nRunning := by
    show s.nRunning - 1 = ((pre ++ post).length : Int)
    rw [h.nRunning]
    simp only [List.length_append, List.length_cons]
    omega

theorem Inv.unlinkRun {pre post : List Str} (h : Inv s bl (pre ++ item :: post))
    (hcomp : s.completing = []) (hstack : ∀ f ∈ s.stack, ¬ f.IsWait) (status : UInt8) :
    Inv (Fbulk.processCompletion (unlinkRun s (lastLink pre) item status) item) bl
      (pre ++ post) := by
  have hx : (s.heap item).status = .XRUN := ((h.byStatus.run item).mp (by simp)).1
  have hitem : item ∉ pre ++ post :=
    (List.nodup_cons.mp ((List.perm_middle.nodup_iff).mp h.listed.runNodup)).1
  have hfield := fun m => unlinkRun_field s (lastLink pre) item m status
  -- the items of the RunList have been put into the table, and are not idle
  have hsame : ∀ m, (s.heap m).status ≠ .XRUN →
      (Fbulk.unlinkRun s (lastLink pre) item status).heap m = s.heap m := fun m hst =>
    unlinkRun_heap_of_not_mem s status fun hmem => hst ((h.byStatus.run m).mp hmem).1
  refine Inv.ofRun (unlinkRun_listed h.listed hitem status) (fun m => ?_) (fun m => ?_)
    (fun m hm => ?_) ((hfield item).1.trans hx) hcomp (fun m hm => ?_) { h.once with }
    (h.past.of_status rfl rfl fun m _ => (hfield m).1)
    (h.known.of_heap (fun m hm => hsame m fun hst => hm (h.known.mem_hashtab (by simp [hst])))
      (fun m => (hfield m).2.1) rfl rfl)
    (Cursor.of_not_isWait hstack _)
  · rw [(hfield m).1]
    exact h.byStatus.build m
  · have hrun := h.byStatus.run m
    rw [(hfield m).1]
    by_cases hm : m = item
    · subst hm
      simp only [hitem, ne_eq, not_true, and_false]
    · rw [hcomp] at hrun
      simp only [visiting, List.map_nil, List.not_mem_nil, not_false_eq_true, and_true] at hrun
      rw [← hrun]
      simp [hm]
  · rw [Item.Idle, (hfield m).1] at hm
    rw [hsame m (by rcases hm with hst | hst <;> simp [hst])]
    exact h.byStatus.idle m hm
  · rw [(hfield m).1] at hm
    rw [(hfield m).2.2]
    · exact h.completing.failed m hm
    · rintro rfl
      exact absurd (hx.symm.trans hm) (by decide)

theorem takeBuild_heap_self (s : State) (pid : Int) :
    (takeBuild s item pid).heap item = { s.heap item with status := .XRUN, pid := pid } := by
  simp [takeBuild, State.modify]

theorem takeBuild_heap_ne (s : State) (pid : Int) (hn : n ≠ item) :
    (takeBuild s item pid).heap n = s.heap n := by
  simp [takeBuild, State.modify, hn]

/-- Taking the head off the BuildList leaves both lists well formed. -/
theorem takeBuild_listed (h : Listed s (item :: bl) rl) (pid : Int) :
    Listed (takeBuild s item pid) bl rl := by
  have hbnext : ∀ m, ((takeBuild s item pid).heap m).bnext = (s.heap m).bnext := by
    intro m
    by_cases hm : m = item
    · rw [hm, takeBuild_heap_self]
    · rw [takeBuild_heap_ne _ _ hm]
  have htail := h.build.tail
  refine ⟨?_, ?_, h.buildNodup.of_cons, ?_, h.runNodup,
    fun m hm => h.disjoint m (List.mem_cons_of_mem _ hm), h.nRunning⟩
  · exact Linked.congr (c := { s.builds with head := (s.heap item).bnext }) rfl
      (fun m _ => hbnext m) htail
  · show (if (s.heap item).bnext = none then Link.head else s.buildListP) = lastLink bl
    have hhead : (s.heap item).bnext = bl.head? := htail.head_eq
    cases bl with
    | nil =>
      have hnone : (s.heap item).bnext = none := hhead
      rw [if_pos hnone, lastLink_nil]
    | cons b bl =>
      rw [if_neg (by simp [hhead]), h.buildListP, lastLink_cons (by simp)]
  · exact Linked.congr (c := s.running) rfl (fun m _ => hbnext m) h.run

/-- The item at the head of the BuildList is running; the other items are as they were. -/
structure Started (s s' : State) (item : Str) : Prop where
  status : (s'.heap item).status = .XRUN
  dbase : (s'.heap item).dbase = (s.heap item).dbase
  ne : ∀ m, m ≠ item → s'.heap m = s.heap m

namespace Started

theorem mem_build (ht : Started s s' item) (h : Inv s (item :: bl) rl) (m : Str) :
    m ∈ bl ↔ (s'.heap m).status = .XBUILD := by
  have hbl : item ∉ bl := (List.nodup_cons.mp h.listed.buildNodup).1
  by_cases he : m = item
  · rw [he, ht.status]
    simp [hbl]
  · rw [ht.ne m he, ← h.byStatus.build m]
    simp [he]

/-- What only concerns items in other states. -/
theorem other (ht : Started s s' item) {p : Item → Prop} (hp : ¬ p (s'.heap item))
    {m : Str} (hm : p (s'.heap m)) : p (s.heap m) ∧ s'.heap m = s.heap m := by
  have he : m ≠ item := by
    rintro rfl
    exact hp hm
  exact ⟨ht.ne m he ▸ hm, ht.ne m he⟩

theorem idle (ht : Started s s' item) (h : Inv s (item :: bl) rl) (m : Str)
    (hm : (s'.heap m).Idle) : (s'.heap m).bnext = none := by
  obtain ⟨hm, heq⟩ := ht.other (p := Item.Idle) (by simp [Item.Idle, ht.status]) hm
  rw [heq]
  exact h.byStatus.idle m hm

theorem failed (ht : Started s s' item) (h : Inv s (item :: bl) rl) (m : Str)
    (hm : (s'.heap m).status = .XDEPFAIL) : (s'.heap m).xcode ≠ 0 := by
  obtain ⟨hm, heq⟩ := ht.other (p := fun i => i.status = .XDEPFAIL) (by simp [ht.status]) hm
  rw [heq]
  exact h.completing.failed m hm

theorem past (ht : Started s s' item) (h : Inv s (item :: bl) rl)
    (hforks : s'.forks = item :: s.forks) (hfinished : s'.finished = s.finished) : Past s' where
  forks m hm := by
    by_cases he : m = item
    · exact Or.inl (he ▸ ht.status)
    · rw [hforks] at hm
      rw [ht.ne m he]
      exact h.past.forks m ((List.mem_cons.mp hm).resolve_left he)
  finished m hm := by
    rw [hfinished] at hm
    have hdone := h.past.finished m hm
    have he : m ≠ item := by
      rintro rfl
      have := (h.byStatus.build m).mp List.mem_cons_self
      simp [this] at hdone
    rw [ht.ne m he]
    exact hdone

theorem known (ht : Started s s' item) (h : Inv s (item :: bl) rl)
    (hhashtab : s'.hashtab = s.hashtab) (hstack : s'.stack = s.stack) : Known s' := by
  have hitem : item ∈ s.hashtab := h.known.mem_hashtab (by
    rw [(h.byStatus.build item).mp List.mem_cons_self]
    decide)
  refine h.known.of_heap (fun m hm => ht.ne m ?_) (fun m => ?_) hhashtab hstack
  · rintro rfl
    exact hm hitem
  · by_cases he : m = item
    · rw [he, ht.dbase]
    · rw [ht.ne m he]

end Started

theorem started_failed (s : State) (item : Str) :
    Started s ((takeBuild s item (-1)).modify item fun i => { i with xcode := -98 }) item where
  status := by rw [State.heap_modify_self, takeBuild_heap_self]
  dbase := by rw [State.heap_modify_self, takeBuild_heap_self]
  ne m hm := by rw [State.heap_modify_ne hm, takeBuild_heap_ne _ _ hm]

theorem started_forked (s : State) (item : Str) (pid : Nat) :
    Started s (forkBuild s item (some pid)) item where
  status := by simp [forkBuild, takeBuild, State.modify]
  dbase := by simp [forkBuild, takeBuild, State.modify]
  ne m hm := by simp [forkBuild, takeBuild, State.modify, hm]

theorem Inv.once_takeBuild (h : Inv s (item :: bl) rl) (pid : Int) :
    Once (takeBuild s item pid) := by
  have hforks : item ∉ s.forks := fun hmem => by
    have hx := (h.byStatus.build item).mp List.mem_cons_self
    have := h.past.forks item hmem
    simp [hx] at this
  exact ⟨List.nodup_cons.mpr ⟨hforks, h.once.forksNodup⟩, h.once.finishedNodup, h.once.nFinished⟩

/-- No build is being completed, so that the RunList has all that run. -/
theorem Inv.mem_run (h : Inv s bl rl) (hcomp : s.completing = []) (m : Str) :
    m ∈ rl ↔ (s.heap m).status = .XRUN := by
  rw [h.byStatus.run m, hcomp]
  simp [visiting]

/-- The fork fails: the build is completed at once. -/
theorem Inv.forkFailed (h : Inv s (item :: bl) rl) (hcomp : s.completing = [])
    (hstack : ∀ f ∈ s.stack, ¬ f.IsWait) : Inv (forkBuild s item none) bl rl := by
  have hrl : item ∉ rl := h.listed.disjoint item List.mem_cons_self
  have ht := started_failed s item
  set t := (takeBuild s item (-1)).modify item fun i => { i with xcode := -98 }
  have htake := takeBuild_listed h.listed (-1)
  have hbnext : ∀ m, (t.heap m).bnext = ((takeBuild s item (-1)).heap m).bnext :=
    State.field_modify Item.bnext rfl
  have hlisted : Listed t bl rl :=
    { htake with
      build := Linked.congr (c := (takeBuild s item (-1)).builds) rfl (fun m _ => hbnext m)
        htake.build
      run := Linked.congr (c := (takeBuild s item (-1)).running) rfl (fun m _ => hbnext m)
        htake.run }
  refine Inv.ofRun hlisted (ht.mem_build h) (fun m => ?_) (ht.idle h) ht.status hcomp (ht.failed h)
    { h.once_takeBuild (-1) with } (ht.past h rfl rfl) (ht.known h rfl rfl)
    (Cursor.of_not_isWait hstack _)
  by_cases hm : m = item
  · simp [hm, hrl]
  · rw [ht.ne m hm, h.mem_run hcomp m]
    simp [hm]

/-- The child runs: the item is put in front of the RunList. -/
theorem Inv.forked (h : Inv s (item :: bl) rl) (hcomp : s.completing = [])
    (hstack : ∀ f ∈ s.stack, ¬ f.IsWait) (pid : Nat) :
    Inv (forkBuild s item (some pid)) bl (item :: rl) := by
  have hbl : item ∉ bl := (List.nodup_cons.mp h.listed.buildNodup).1
  have hrl : item ∉ rl := h.listed.disjoint item List.mem_cons_self
  have ht := started_forked s item pid
  have hbnext : ((forkBuild s item (some pid)).heap item).bnext = s.runList := by
    simp [forkBuild, takeBuild, State.modify]
  set t := forkBuild s item (some pid)
  have htake := takeBuild_listed h.listed pid
  have hc : t.completing = [] := hcomp
  refine
    { listed := ⟨?_, htake.buildListP, htake.buildNodup, ⟨rfl, ?_⟩,
        List.nodup_cons.mpr ⟨hrl, h.listed.runNodup⟩, fun m hm hmem => ?_, ?_⟩
      byStatus := ⟨ht.mem_build h, fun m => ?_, ht.idle h⟩
      completing := hc ▸ Completing.none (ht.failed h)
      once := { h.once_takeBuild pid with }
      past := ht.past h rfl rfl
      known := ht.known h rfl rfl
      cursor := Cursor.of_not_isWait hstack _ }
  · -- the links of the build list are of other items
    refine Linked.congr (c := (takeBuild s item pid).builds) rfl (fun m hm => ?_) htake.build
    have he : m ≠ item := by
      rintro rfl
      exact hbl hm
    show (t.heap m).bnext = ((takeBuild s item pid).heap m).bnext
    rw [ht.ne m he, takeBuild_heap_ne _ _ he]
  · -- the head of the run list is the item, and its link the old head
    show Seg t.running.next (t.heap item).bnext rl none
    rw [hbnext]
    refine Seg.congr (fun m hm => ?_) h.listed.run
    have he : m ≠ item := by
      rintro rfl
      exact hrl hm
    show (t.heap m).bnext = (s.heap m).bnext
    rw [ht.ne m he]
  · rcases List.mem_cons.mp hmem with rfl | hmem
    · exact hbl hm
    · exact h.listed.disjoint m (List.mem_cons_of_mem _ hm) hmem
  · show s.nRunning + 1 = ((item :: rl).length : Int)
    rw [h.listed.nRunning]
    simp
  · rw [hc]
    by_cases hm : m = item
    · rw [hm, ht.status]
      simp [visiting]
    · rw [ht.ne m hm, List.mem_cons, h.mem_run hcomp m]
      simp [hm, visiting]

theorem Inv.forkBuild (h : Inv s (item :: bl) rl) (hcomp : s.completing = [])
    (hstack : ∀ f ∈ s.stack, ¬ f.IsWait) (fork : Option Nat) :
    ∃ rl', Inv (forkBuild s item fork) bl rl' := by
  cases fork with
  | none => exact ⟨rl, h.forkFailed hcomp hstack⟩
  | some pid => exact ⟨item :: rl, h.forked hcomp hstack pid⟩

theorem Inv.addDepn (h : Inv s bl rl) (hcomp : s.completing = []) (hi : item ∈ s.hashtab)
    (hx : x ∈ s.hashtab) (hok : (addDepn s item x).assertion = none) :
    Inv (addDepn s item x) bl rl := by
  set t : State := s.modify x fun i => { i with dbase := item :: i.dbase } with ht
  have hqt : Quiet s t :=
    Quiet.modify rfl (List.subset_cons_self item _) (Or.inl ⟨rfl, rfl⟩)
  have hknown : Known t := h.known.modify hx fun y hy => by
    rcases List.mem_cons.mp hy with rfl | hy
    · exact hi
    · exact h.known.dbase x y hy
  have hnone : ∀ v : State, Quiet s v → v.completing = s.completing →
      Completing v.heap v.completing := fun v hv hc => by
    rw [hc, hcomp]
    exact Completing.none (hv.failed h.completing.failed)
  unfold Fbulk.addDepn at hok ⊢
  by_cases hdone : (t.heap x).status = .XDONE
  · rw [if_pos hdone] at hok ⊢
    by_cases hcode : (t.heap x).xcode ≠ 0
    · rw [if_pos hcode] at hok ⊢
      by_cases hidle : (t.heap item).status = .XWAITING ∨ (t.heap item).status = .XDEPFAIL
      · rw [if_pos hidle]
        set v : State := t.modify item fun i =>
          { i with xcode := (t.heap x).xcode, status := .XDEPFAIL } with hv
        have hqv : Quiet s v := hqt.trans
          (Quiet.modify rfl (List.Subset.refl _) (Or.inr ⟨hidle, rfl, hcode⟩))
        have hknownv : Known v := hknown.modify hi (hknown.dbase item)
        have hq : Quiet s { v with nBuilt := t.nBuilt + 1 } := { hqv with }
        exact h.quiet hq { hknownv with } rfl (hnone v hqv rfl)
      · rw [if_neg hidle] at hok
        exact absurd hok (by simp [State.abort])
    · rw [if_neg hcode]
      exact h.quiet hqt hknown rfl (hnone t hqt rfl)
  · rw [if_neg hdone]
    set v : State := t.modify item fun i => { i with dcount := i.dcount + 1 } with hv
    have hqv : Quiet s v := hqt.trans
      (Quiet.modify rfl (List.Subset.refl _) (Or.inl ⟨rfl, rfl⟩))
    exact h.quiet hqv (hknown.modify hi (hknown.dbase item)) rfl (hnone v hqv rfl)

/-- Only the stack of calls changes. -/
theorem Inv.setStack {stack : List Frame} (h : Inv s bl rl)
    (hframes : ∀ f ∈ stack, ∀ n ∈ f.items, n ∈ s.hashtab) (hcursor : Cursor stack rl) :
    Inv { s with stack := stack } bl rl :=
  { h with
    listed := { h.listed with }, byStatus := { h.byStatus with }, once := { h.once with }
    past := { h.past with }, known := ⟨h.known.fresh, h.known.dbase, hframes⟩, cursor := hcursor }

theorem Inv.orderedDepends {env : Env} {callers : List Frame} (h : Inv s bl rl)
    (hn : n ∉ s.hashtab) (hframes : ∀ f ∈ callers, ∀ m ∈ f.items, m ∈ insert n s.hashtab)
    (hstack : ∀ f ∈ callers, ¬ f.IsWait) : Inv (orderedDepends env s n callers) bl rl := by
  -- the item is new, and all fields of a new item are clear
  have hheap : (fun m => if m = n then {} else s.heap m) = s.heap := by
    funext m
    by_cases hm : m = n
    · rw [if_pos hm, hm, h.known.fresh n hn]
    · rw [if_neg hm]
  unfold Fbulk.orderedDepends Fbulk.addItem
  rw [hheap]
  refine { h with
    listed := { h.listed with }, byStatus := { h.byStatus with }, once := { h.once with }
    past := { h.past with }, known := ⟨fun m hm => ?_, fun m y hy => ?_, fun f hf m hm => ?_⟩
    cursor := Cursor.of_not_isWait (fun f hf => ?_) rl }
  · exact h.known.fresh m fun hmem => hm (Finset.mem_insert_of_mem hmem)
  · exact Finset.mem_insert_of_mem (h.known.dbase m y hy)
  · rcases List.mem_cons.mp hf with rfl | hf
    · have : m = n := by simpa [Frame.items] using hm
      rw [this]
      exact Finset.mem_insert_self n _
    · exact hframes f hf m hm
  · rcases List.mem_cons.mp hf with rfl | hf
    · exact id
    · exact hstack f hf

theorem Inv.endDepends (h : Inv s bl rl) (hcomp : s.completing = []) (hi : item ∈ s.hashtab)
    (hok : (endDepends s item).assertion = none) : ∃ bl', Inv (endDepends s item) bl' rl := by
  set t : State := { s with nTotal := s.nTotal + 1 } with ht
  have hq : Quiet s t := { Quiet.refl s with }
  have hknown : Known t := { h.known with }
  have hinv : Inv t bl rl := h.quiet hq hknown rfl h.completing
  rw [Fbulk.endDepends] at hok ⊢
  by_cases hcount : (t.heap item).dcount = 0
  · rw [if_pos hcount] at hok ⊢
    cases hst : (t.heap item).status with
    | XWAITING => exact ⟨_, hinv.addBuild hst hi⟩
    | XDEPFAIL =>
      refine ⟨bl, h.enter hq hknown rfl hst ?_⟩
      show Completing t.heap ((item, (t.heap item).dbase) :: s.completing)
      rw [hcomp]
      exact Completing.root (Or.inr hst) h.completing.failed
    | _ =>
      rw [hst] at hok
      exact absurd hok (by simp [State.abort])
  · rw [if_neg hcount]
    exact ⟨bl, hinv⟩

theorem Inv.waitStep {flags : WaitFlags} {here : Frame} {callers : List Frame}
    {waitpid : Option (Nat × UInt8)} (h : Inv s bl rl)
    (hframes : ∀ f ∈ here :: callers, ∀ n ∈ f.items, n ∈ s.hashtab)
    (hstack : ∀ f ∈ here :: callers, ¬ f.IsWait) :
    Inv (waitStep s flags here callers waitpid) bl rl := by
  have hcallers := h.setStack (fun f hf => hframes f (List.mem_cons_of_mem _ hf))
    (Cursor.of_not_isWait (fun f hf => hstack f (List.mem_cons_of_mem _ hf)) rl)
  unfold Fbulk.waitStep
  split
  · exact hcallers
  · split
    · refine h.setStack (fun f hf n hn => ?_) ⟨fun f hf => ?_, fun _ _ _ _ _ he => ?_⟩
      · rcases List.mem_cons.mp hf with rfl | hf
        · exact absurd hn (by simp [Frame.items])
        · exact hframes f (List.mem_cons_of_mem _ hf) n hn
      · exact hstack f (List.mem_cons_of_mem _ hf)
      · -- the loop starts at the head of the list
        cases he
        exact ⟨[], rl, rfl, rfl⟩
    · exact hcallers
    · exact h.setStack hframes (Cursor.of_not_isWait hstack rl)

/-! ### One call -/

section Call

variable {env : Env} {o : Answers} {f : Frame} {callers : List Frame}

/-- Frames put on top of the callers. -/
theorem Inv.callers_items (h : Inv s bl rl) (hs : s.stack = f :: callers) (top : List Frame)
    (hitems : ∀ g ∈ top, ∀ n ∈ g.items, n ∈ s.hashtab) :
    ∀ g ∈ top ++ callers, ∀ n ∈ g.items, n ∈ s.hashtab := by
  intro g hg
  rcases List.mem_append.mp hg with hg | hg
  · exact hitems g hg
  · exact h.known.frames g (hs ▸ List.mem_cons_of_mem f hg)

theorem Inv.callers_wait (h : Inv s bl rl) (hs : s.stack = f :: callers) (top : List Frame)
    (hwait : ∀ g ∈ top, ¬ g.IsWait) : ∀ g ∈ top ++ callers, ¬ g.IsWait := by
  intro g hg
  rcases List.mem_append.mp hg with hg | hg
  · exact hwait g hg
  · exact h.cursor.inner g (hs ▸ hg)

/-- The innermost call is replaced by others. -/
theorem Inv.replace (h : Inv s bl rl) (top : List Frame) (hs : s.stack = f :: callers)
    (hwait : ∀ g ∈ top, ¬ g.IsWait) (hitems : ∀ g ∈ top, ∀ n ∈ g.items, n ∈ s.hashtab) :
    Inv { s with stack := top ++ callers } bl rl :=
  h.setStack (h.callers_items hs top hitems)
    (Cursor.of_not_isWait (h.callers_wait hs top hwait) rl)

theorem Inv.callPackages {names : List Str} (h : Inv s bl rl)
    (hs : s.stack = .packages names :: callers) :
    ∃ bl' rl', Inv (callStep env s o callers (.packages names)) bl' rl' := by
  cases names with
  | nil =>
    exact ⟨bl, rl, h.replace [.startBuilds, .waitBuilds] hs (by simp [Frame.IsWait])
      (by simp [Frame.items])⟩
  | cons n names =>
    simp only [Fbulk.callStep]
    by_cases hn : n ∈ s.hashtab
    · rw [if_pos hn]
      exact ⟨bl, rl, h.replace [.packages names] hs (by simp [Frame.IsWait])
        (by simp [Frame.items])⟩
    · rw [if_neg hn]
      have hitems := h.callers_items hs [.packages names] (by simp [Frame.items])
      exact ⟨bl, rl, h.orderedDepends hn
        (fun g hg m hm => Finset.mem_insert_of_mem (hitems g hg m hm))
        (h.callers_wait hs [.packages names] (by simp [Frame.IsWait]))⟩

theorem Inv.callOrderedDepends {item : Str} {xitem : Option Str} {lines : List Str}
    (h : Inv s bl rl) (hcomp : s.completing = [])
    (hs : s.stack = .orderedDepends item xitem lines :: callers)
    (hok : (callStep env s o callers (.orderedDepends item xitem lines)).assertion = none) :
    ∃ bl' rl', Inv (callStep env s o callers (.orderedDepends item xitem lines)) bl' rl' := by
  have hf := h.known.frames _ (hs ▸ List.mem_cons_self)
  have hi : item ∈ s.hashtab := hf item (by simp [Frame.items])
  cases xitem with
  | some x =>
    have hinv := h.replace [.orderedDepends item none lines] hs (by simp [Frame.IsWait])
      (by simp [Frame.items, hi])
    exact ⟨bl, rl, hinv.addDepn hcomp hi (hf x (by simp [Frame.items])) hok⟩
  | none =>
    cases lines with
    | nil =>
      have hinv := h.replace [.startBuilds] hs (by simp [Frame.IsWait]) (by simp [Frame.items])
      obtain ⟨bl', hinv⟩ := hinv.endDepends hcomp hi hok
      exact ⟨bl', rl, hinv⟩
    | cons buf lines =>
      simp only [Fbulk.callStep] at hok ⊢
      cases env.dependency buf with
      | none =>
        exact ⟨bl, rl, h.replace [.orderedDepends item none lines] hs (by simp [Frame.IsWait])
          (by simp [Frame.items, hi])⟩
      | some x =>
        by_cases hx : x ∈ s.hashtab
        · simp only [if_pos hx]
          exact ⟨bl, rl, h.replace [.orderedDepends item (some x) lines] hs
            (by simp [Frame.IsWait]) (by simp [Frame.items, hi, hx])⟩
        · simp only [if_neg hx]
          -- the new item is in the table when its call is entered
          refine ⟨bl, rl, h.orderedDepends hx (fun g hg m hm => ?_)
            (h.callers_wait hs [.orderedDepends item (some x) lines]
              (by simp [Frame.IsWait]))⟩
          rcases List.mem_cons.mp hg with rfl | hg
          · have hm : m = item ∨ m = x := by simpa [Frame.items] using hm
            rcases hm with rfl | rfl
            · exact Finset.mem_insert_of_mem hi
            · exact Finset.mem_insert_self m _
          · exact Finset.mem_insert_of_mem
              (h.known.frames g (hs ▸ List.mem_cons_of_mem _ hg) m hm)

theorem Inv.callStartBuilds (h : Inv s bl rl) (hcomp : s.completing = [])
    (hs : s.stack = .startBuilds :: callers) :
    ∃ bl' rl', Inv (callStep env s o callers .startBuilds) bl' rl' := by
  have hreap := h.replace [.reapBuilds] hs (by simp [Frame.IsWait]) (by simp [Frame.items])
  rw [Fbulk.callStep]
  split
  next item hhead =>
    split
    · have hinv := h.replace [.startBuilds] hs (by simp [Frame.IsWait]) (by simp [Frame.items])
      obtain ⟨bl', rfl⟩ : ∃ bl', bl = item :: bl' :=
        List.head?_eq_some_iff.mp (h.listed.build.head_eq.symm.trans hhead)
      obtain ⟨rl', hinv⟩ := hinv.forkBuild hcomp
        (h.callers_wait hs [.startBuilds] (by simp [Frame.IsWait])) o.fork
      exact ⟨bl', rl', hinv⟩
    · exact ⟨bl, rl, hreap⟩
  next => exact ⟨bl, rl, hreap⟩

theorem Inv.callWaitRunning {flags : WaitFlags} {itemp : Link Str} {pid : Nat} {status : UInt8}
    (h : Inv s bl rl) (hcomp : s.completing = [])
    (hs : s.stack = .waitRunning flags itemp pid status :: callers) :
    ∃ bl' rl', Inv (callStep env s o callers (.waitRunning flags itemp pid status)) bl' rl' := by
  obtain ⟨pre, post, rfl, rfl⟩ := h.cursor.passed flags itemp pid status callers hs
  have hread := h.listed.run.read_lastLink
  simp only [Fbulk.callStep]
  cases post with
  | nil =>
    rw [hread]
    exact ⟨bl, _, h.replace [] hs (by simp) (by simp)⟩
  | cons item post =>
    rw [hread]
    simp only [List.head?_cons]
    by_cases hpid : (s.heap item).pid = pid
    · rw [if_pos hpid]
      refine ⟨bl, pre ++ post, ?_⟩
      cases flags with
      | WNOHANG =>
        exact (h.replace [.reapBuilds] hs (by simp [Frame.IsWait])
          (by simp [Frame.items])).unlinkRun hcomp
          (h.callers_wait hs [.reapBuilds] (by simp [Frame.IsWait])) status
      | block =>
        exact (h.replace [.startBuilds, .waitBuilds] hs (by simp [Frame.IsWait])
          (by simp [Frame.items])).unlinkRun hcomp
          (h.callers_wait hs [.startBuilds, .waitBuilds] (by simp [Frame.IsWait])) status
    · rw [if_neg hpid]
      refine ⟨bl, pre ++ item :: post, h.setStack (fun g hg m hm => ?_)
        ⟨fun g hg => h.cursor.inner g (hs ▸ hg), fun _ _ _ _ _ he => ?_⟩⟩
      · rcases List.mem_cons.mp hg with rfl | hg
        · exact absurd hm (by simp [Frame.items])
        · exact h.known.frames g (hs ▸ List.mem_cons_of_mem _ hg) m hm
      · -- one item further
        cases he
        exact ⟨pre ++ [item], post, by simp, (lastLink_concat pre item).symm⟩

theorem Inv.callStep (h : Inv s bl rl) (hcomp : s.completing = []) (hs : s.stack = f :: callers)
    (hok : (callStep env s o callers f).assertion = none) :
    ∃ bl' rl', Inv (callStep env s o callers f) bl' rl' := by
  cases f with
  | packages names => exact h.callPackages hs
  | orderedDepends item xitem lines => exact h.callOrderedDepends hcomp hs hok
  | startBuilds => exact h.callStartBuilds hcomp hs
  | reapBuilds =>
    exact ⟨bl, rl, h.waitStep (h.callers_items hs [.reapBuilds] (by simp [Frame.items]))
      (h.callers_wait hs [.reapBuilds] (by simp [Frame.IsWait]))⟩
  | waitBuilds =>
    exact ⟨bl, rl, h.waitStep (h.callers_items hs [.waitBuilds] (by simp [Frame.items]))
      (h.callers_wait hs [.waitBuilds] (by simp [Frame.IsWait]))⟩
  | waitRunning flags itemp pid status => exact h.callWaitRunning hcomp hs

end Call

/-- **A step keeps the lists well formed**, unless an assertion fails. -/
theorem Inv.step {env : Env} {o : Answers} (h : Inv s bl rl) (hstep : step env s o = some s')
    (hok : s'.assertion = none) : ∃ bl' rl', Inv s' bl' rl' := by
  obtain ⟨-, ⟨item, depns, callers, hcomp, rfl⟩ | ⟨hcomp, f, callers, hs, rfl⟩⟩ := step_cases hstep
  · cases depns with
    | nil => exact ⟨bl, rl, h.finish hcomp⟩
    | cons x depns =>
      have heq : completionStep s item (x :: depns) callers =
          if (s.heap x).dcount = 0 then s.abort .completionCount
          else Fbulk.notify { s with completing := (item, depns) :: callers } item x := rfl
      rw [heq] at hok ⊢
      by_cases hcount : (s.heap x).dcount = 0
      · rw [if_pos hcount] at hok
        exact absurd hok (by simp [State.abort])
      · rw [if_neg hcount]
        obtain ⟨bl', hinv⟩ := h.notify hcomp
        exact ⟨bl', rl, hinv⟩
  · exact h.callStep hcomp hs hok

theorem inv_start (names : List Str) : Inv (start names) [] [] where
  listed := ⟨rfl, rfl, List.nodup_nil, rfl, List.nodup_nil, by simp, rfl⟩
  byStatus := ⟨by simp [start], by simp [start], fun _ _ => rfl⟩
  completing := Completing.none (by simp [start])
  once := ⟨List.nodup_nil, List.nodup_nil, rfl⟩
  past := ⟨by simp [start], by simp [start]⟩
  known := ⟨fun _ _ => rfl, by simp [start], by simp [start, Frame.items]⟩
  cursor := Cursor.of_not_isWait (by simp [start, Frame.IsWait]) []

theorem run_inv {env : Env} {names : List Str} {os : List Answers}
    (hrun : Run.run (step env) (start names) os = some s) (hok : s.assertion = none) :
    ∃ bl rl, Inv s bl rl := by
  have hkeep : ∀ s o s', (s.assertion = none → ∃ bl rl, Inv s bl rl) → True →
      step env s o = some s' → s'.assertion = none → ∃ bl rl, Inv s' bl rl := by
    intro s o s' hs _ hstep hok
    obtain ⟨bl, rl, hs⟩ := hs (step_cases hstep).1
    exact hs.step hstep hok
  exact Run.run_invariant hkeep (fun _ => ⟨[], [], inv_start names⟩)
    (Run.along_of_forall (fun _ _ => trivial) _ _) hrun hok

/-- **The lists of the bulk builder.**  In every run in which no assertion fails, both
lists are well formed and share no item, and each package is forked and completed at
most once. -/
theorem run_listed {env : Env} {names : List Str} {os : List Answers}
    (hrun : Run.run (step env) (start names) os = some s) (hok : s.assertion = none) :
    (∃ bl rl, Listed s bl rl) ∧ Once s := by
  obtain ⟨bl, rl, h⟩ := run_inv hrun hok
  exact ⟨⟨bl, rl, h.listed⟩, h.once⟩

/-- The package `a` has dependencies, the others have none. -/
def bulkEnv (lines : List Str) (jobs : Int) : Env where
  showBuildDeps n := if n = ['a'] then lines else []
  template _ := true
  nParallel := jobs

/-- Starting `b` fails, and with it `a`, which names `b` twice. -/
theorem run_listed_fail :
    ∃ s, Run.run (step (bulkEnv [['b', '\n'], ['b', '\n'], ['c', '\n']] 1)) (start [['a']])
        (List.replicate 5 ⟨none, none⟩ ++ List.replicate 22 ⟨some 8, some (8, 0)⟩) = some s ∧
      s.forks = [['c'], ['b']] ∧ s.finished = [['a'], ['c'], ['b']] ∧
      (∃ bl rl, Listed s bl rl) ∧ Once s := by
  have hrun : (Run.run (step (bulkEnv [['b', '\n'], ['b', '\n'], ['c', '\n']] 1)) (start [['a']])
      (List.replicate 5 ⟨none, none⟩ ++ List.replicate 22 ⟨some 8, some (8, 0)⟩)).map
        (fun s => (s.forks, s.finished, s.assertion)) =
      some ([['c'], ['b']], [['a'], ['c'], ['b']], none) := by decide +kernel
  obtain ⟨s, hs, hfields⟩ := Option.map_eq_some_iff.mp hrun
  obtain ⟨hforks, hfinished, hok⟩ := Prod.mk.injEq .. ▸ Prod.mk.injEq .. ▸ hfields
  exact ⟨s, hs, hforks, hfinished, run_listed hs hok⟩

end Flappy.Fbulk
