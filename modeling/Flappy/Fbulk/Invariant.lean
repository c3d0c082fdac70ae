/-
What holds in every state of the bulk builder (`bin/flappy-fbulk/main.c`).

Which items are on the two lists is decided by the status: the BuildList has those in
state XBUILD, the RunList those in state XRUN that are not being completed.  An item
waits with a clear link field, so that it can be put at the end of the BuildList.

`processCompletion` may be entered again for an item whose completion is going on, when
a failed build is part of a cycle.  Such a call never returns: it follows the cycle it
came through until the check of a count fails.

* `Inv` — the invariant, in parts;
* `Quiet` — the writes that leave the lists alone;
* `Completing.skip`, `Completing.enter`, `Completing.finish` — the calls of
  `processCompletion`.
-/
import Flappy.Fbulk.Builds
import Flappy.Lib.Reentry

open CStr Intrusive Reentry

namespace Flappy.Fbulk

/-- The item is in neither list and not done. -/
def Item.Idle (i : Item) : Prop := i.status = .XWAITING ∨ i.status = .XDEPFAIL

/-- The lists, threaded through `bl` and `rl`. -/
structure Listed (s : State) (bl rl : List Str) : Prop where
  build : Linked s.builds bl
  buildListP : s.buildListP = lastLink bl
  buildNodup : bl.Nodup
  run : Linked s.running rl
  runNodup : rl.Nodup
  disjoint : ∀ n ∈ bl, n ∉ rl
  nRunning : s.nRunning = rl.length

/-- What the status says about the lists. -/
structure ByStatus (s : State) (bl rl : List Str) : Prop where
  build : ∀ n, n ∈ bl ↔ (s.heap n).status = .XBUILD
  run : ∀ n, n ∈ rl ↔ (s.heap n).status = .XRUN ∧ n ∉ visiting s.completing
  idle : ∀ n, (s.heap n).Idle → (s.heap n).bnext = none

/-- The calls of `processCompletion`.  Only the first one can be for a build that ran. -/
structure Completing (heap : Str → Item) (calling : List (Str × List Str)) : Prop where
  working : ∀ n ∈ visiting calling, (heap n).status = .XRUN ∨ (heap n).status = .XDEPFAIL
  depns : ∀ f ∈ calling, ∀ x ∈ f.2, x ∈ (heap f.1).dbase
  called : ∀ a b, (a, b) ∈ calls calling → (heap b).status = .XDEPFAIL ∧ b ∈ (heap a).dbase
  trapped : Trapped none calling
  failed : ∀ n, (heap n).status = .XDEPFAIL → (heap n).xcode ≠ 0

/-- Each package is forked and completed at most once. -/
structure Once (s : State) : Prop where
  forksNodup : s.forks.Nodup
  finishedNodup : s.finished.Nodup
  nFinished : s.nFinished = s.finished.length

/-- What the status says about the past. -/
structure Past (s : State) : Prop where
  forks : ∀ n ∈ s.forks, (s.heap n).status = .XRUN ∨ (s.heap n).status = .XDONE
  finished : ∀ n ∈ s.finished, (s.heap n).status = .XDONE

/-- The packages a frame is about. -/
def Frame.items : Frame → List Str
  | .orderedDepends item xitem _ => item :: xitem.toList
  | _ => []

/-- Items are in the table before they are used. -/
structure Known (s : State) : Prop where
  fresh : ∀ n, n ∉ s.hashtab → s.heap n = {}
  dbase : ∀ n, ∀ x ∈ (s.heap n).dbase, x ∈ s.hashtab
  frames : ∀ f ∈ s.stack, ∀ n ∈ f.items, n ∈ s.hashtab

def Frame.IsWait : Frame → Prop
  | .waitRunning .. => True
  | _ => False

/-- The loop of `waitRunning` is the innermost call, and has passed a part of the list. -/
structure Cursor (stack : List Frame) (rl : List Str) : Prop where
  inner : ∀ f ∈ stack.tail, ¬ f.IsWait
  passed : ∀ flags itemp pid status callers,
    stack = .waitRunning flags itemp pid status :: callers →
      ∃ pre post, rl = pre ++ post ∧ itemp = lastLink pre

theorem Cursor.of_not_isWait {stack : List Frame} (h : ∀ f ∈ stack, ¬ f.IsWait)
    (rl : List Str) : Cursor stack rl where
  inner f hf := h f (List.mem_of_mem_tail hf)
  passed flags itemp pid status callers he := by
    rw [he] at h
    exact absurd trivial (h _ List.mem_cons_self)

/-- An item that is not waiting has been put into the table. -/
theorem Known.mem_hashtab {s : State} {n : Str} (h : Known s)
    (hn : (s.heap n).status ≠ .XWAITING) : n ∈ s.hashtab := by
  by_contra hmem
  exact hn (by rw [h.fresh n hmem])

/-- Items of the table are written to, but not their reverse dependencies. -/
theorem Known.of_heap {s s' : State} (h : Known s)
    (hfresh : ∀ m, m ∉ s.hashtab → s'.heap m = s.heap m)
    (hdbase : ∀ m, (s'.heap m).dbase = (s.heap m).dbase) (hhashtab : s'.hashtab = s.hashtab)
    (hstack : s'.stack = s.stack) : Known s' where
  fresh m hm := by
    rw [hhashtab] at hm
    rw [hfresh m hm]
    exact h.fresh m hm
  dbase m y hy := by
    rw [hdbase] at hy
    rw [hhashtab]
    exact h.dbase m y hy
  frames := by
    rw [hstack, hhashtab]
    exact h.frames

/-- What has been forked or finished keeps its state. -/
theorem Past.of_status {s s' : State} (h : Past s) (hforks : s'.forks = s.forks)
    (hfinished : s'.finished = s.finished)
    (hstatus : ∀ m, (s.heap m).status = .XRUN ∨ (s.heap m).status = .XDONE →
      (s'.heap m).status = (s.heap m).status) : Past s' where
  forks m hm := by
    have hst := h.forks m (hforks ▸ hm)
    rw [hstatus m hst]
    exact hst
  finished m hm := by
    have hst := h.finished m (hfinished ▸ hm)
    rw [hstatus m (Or.inr hst)]
    exact hst

structure Inv (s : State) (bl rl : List Str) : Prop where
  listed : Listed s bl rl
  byStatus : ByStatus s bl rl
  completing : Completing s.heap s.completing
  once : Once s
  past : Past s
  known : Known s
  cursor : Cursor s.stack rl

/-! ### Writes that leave the lists alone -/

/-- The second state differs in counts, in reverse dependencies, which only grow, and in
idle items that have failed. -/
structure Quiet (s s' : State) : Prop where
  buildList : s'.buildList = s.buildList
  buildListP : s'.buildListP = s.buildListP
  runList : s'.runList = s.runList
  nRunning : s'.nRunning = s.nRunning
  nFinished : s'.nFinished = s.nFinished
  forks : s'.forks = s.forks
  finished : s'.finished = s.finished
  visiting : visiting s'.completing = visiting s.completing
  bnext : ∀ n, (s'.heap n).bnext = (s.heap n).bnext
  dbase : ∀ n, (s.heap n).dbase ⊆ (s'.heap n).dbase
  item : ∀ n, (s'.heap n).status = (s.heap n).status ∧ (s'.heap n).xcode = (s.heap n).xcode ∨
    (s.heap n).Idle ∧ (s'.heap n).status = .XDEPFAIL ∧ (s'.heap n).xcode ≠ 0

variable {s s' s'' : State} {bl rl : List Str} {n x item : Str}

namespace Quiet

protected theorem refl (s : State) : Quiet s s :=
  ⟨rfl, rfl, rfl, rfl, rfl, rfl, rfl, rfl, fun _ => rfl, fun _ => List.Subset.refl _,
    fun _ => Or.inl ⟨rfl, rfl⟩⟩

theorem status_iff (h : Quiet s s') {st : Status} (hw : st ≠ .XWAITING) (hf : st ≠ .XDEPFAIL)
    (n : Str) : (s'.heap n).status = st ↔ (s.heap n).status = st := by
  rcases h.item n with ⟨h, -⟩ | ⟨hi, h, -⟩
  · rw [h]
  · rw [h]
    constructor
    · intro he
      exact absurd he.symm hf
    · intro he
      rcases hi with hi | hi
      · exact absurd (he.symm.trans hi) hw
      · exact absurd (he.symm.trans hi) hf

theorem idle_iff (h : Quiet s s') (n : Str) : (s'.heap n).Idle ↔ (s.heap n).Idle := by
  rcases h.item n with ⟨h, -⟩ | ⟨hi, h, -⟩
  · rw [Item.Idle, Item.Idle, h]
  · exact ⟨fun _ => hi, fun _ => Or.inr h⟩

protected theorem trans (h : Quiet s s') (h' : Quiet s' s'') : Quiet s s'' where
  buildList := h'.buildList.trans h.buildList
  buildListP := h'.buildListP.trans h.buildListP
  runList := h'.runList.trans h.runList
  nRunning := h'.nRunning.trans h.nRunning
  nFinished := h'.nFinished.trans h.nFinished
  forks := h'.forks.trans h.forks
  finished := h'.finished.trans h.finished
  visiting := h'.visiting.trans h.visiting
  bnext n := (h'.bnext n).trans (h.bnext n)
  dbase n := List.Subset.trans (h.dbase n) (h'.dbase n)
  item n := by
    rcases h'.item n with ⟨hst, hx⟩ | ⟨hi, hst, hx⟩
    · rw [hst, hx]
      exact h.item n
    · exact Or.inr ⟨(h.idle_iff n).mp hi, hst, hx⟩

/-- A write to one item. -/
theorem modify {f : Item → Item} (hbnext : (f (s.heap n)).bnext = (s.heap n).bnext)
    (hdbase : (s.heap n).dbase ⊆ (f (s.heap n)).dbase)
    (hitem : (f (s.heap n)).status = (s.heap n).status ∧ (f (s.heap n)).xcode = (s.heap n).xcode ∨
      (s.heap n).Idle ∧ (f (s.heap n)).status = .XDEPFAIL ∧ (f (s.heap n)).xcode ≠ 0) :
    Quiet s (s.modify n f) where
  buildList := rfl
  buildListP := rfl
  runList := rfl
  nRunning := rfl
  nFinished := rfl
  forks := rfl
  finished := rfl
  visiting := rfl
  bnext := State.field_modify Item.bnext hbnext
  dbase m := by
    by_cases hm : m = n
    · rw [hm, State.heap_modify_self]
      exact hdbase
    · rw [State.heap_modify_ne hm]
      exact List.Subset.refl _
  item m := by
    by_cases hm : m = n
    · rw [hm, State.heap_modify_self]
      exact hitem
    · rw [State.heap_modify_ne hm]
      exact Or.inl ⟨rfl, rfl⟩

theorem listed (h : Quiet s s') (hs : Listed s bl rl) : Listed s' bl rl where
  build := Linked.congr (c := s.builds) h.buildList (fun n _ => h.bnext n) hs.build
  buildListP := h.buildListP.trans hs.buildListP
  buildNodup := hs.buildNodup
  run := Linked.congr (c := s.running) h.runList (fun n _ => h.bnext n) hs.run
  runNodup := hs.runNodup
  disjoint := hs.disjoint
  nRunning := h.nRunning.trans hs.nRunning

theorem byStatus (h : Quiet s s') (hs : ByStatus s bl rl) : ByStatus s' bl rl where
  build n := (hs.build n).trans (h.status_iff (by decide) (by decide) n).symm
  run n := by
    rw [h.status_iff (by decide) (by decide), h.visiting]
    exact hs.run n
  idle n hi := (h.bnext n).trans (hs.idle n ((h.idle_iff n).mp hi))

theorem once (h : Quiet s s') (hs : Once s) : Once s' where
  forksNodup := h.forks ▸ hs.forksNodup
  finishedNodup := h.finished ▸ hs.finishedNodup
  nFinished := by rw [h.nFinished, h.finished, hs.nFinished]

theorem past (h : Quiet s s') (hs : Past s) : Past s' where
  forks n hn := by
    rw [h.status_iff (by decide) (by decide), h.status_iff (by decide) (by decide)]
    exact hs.forks n (h.forks ▸ hn)
  finished n hn := by
    rw [h.status_iff (by decide) (by decide)]
    exact hs.finished n (h.finished ▸ hn)

theorem failed (h : Quiet s s') (hs : ∀ n, (s.heap n).status = .XDEPFAIL → (s.heap n).xcode ≠ 0)
    (n : Str) (hn : (s'.heap n).status = .XDEPFAIL) : (s'.heap n).xcode ≠ 0 := by
  rcases h.item n with ⟨hst, hx⟩ | ⟨-, -, hx⟩
  · rw [hx]
    exact hs n (hst.symm.trans hn)
  · exact hx

/-- What is being completed stays in its state. -/
theorem status_of_working (h : Quiet s s')
    (hn : (s.heap n).status = .XRUN ∨ (s.heap n).status = .XDEPFAIL) :
    (s'.heap n).status = (s.heap n).status := by
  rcases h.item n with ⟨hst, -⟩ | ⟨hi, hst, -⟩
  · exact hst
  · rcases hn with hn | hn
    · exact absurd (hi.imp hn.symm.trans hn.symm.trans) (by simp)
    · exact hst.trans hn.symm

theorem completing {calling : List (Str × List Str)} (h : Quiet s s')
    (hs : Completing s.heap calling) : Completing s'.heap calling where
  working n hn := by
    rw [h.status_of_working (hs.working n hn)]
    exact hs.working n hn
  depns f hf x hx := h.dbase _ (hs.depns f hf x hx)
  called a b hab := by
    have hb := hs.called a b hab
    rw [h.status_of_working (Or.inr hb.1)]
    exact ⟨hb.1, h.dbase a hb.2⟩
  trapped := hs.trapped
  failed := h.failed hs.failed

end Quiet

/-! ### The calls of `processCompletion` -/

namespace Completing

variable {heap : Str → Item} {left : List Str} {callers : List (Str × List Str)}

theorem mem_dbase (h : Completing heap ((item, x :: left) :: callers)) : x ∈ (heap item).dbase :=
  h.depns (item, x :: left) List.mem_cons_self x List.mem_cons_self

/-- The rest of the loop is a part of it. -/
theorem depns_left (h : Completing heap ((item, x :: left) :: callers)) :
    ∀ f ∈ (item, left) :: callers, ∀ y ∈ f.2, y ∈ (heap f.1).dbase := by
  intro f hf y hy
  rcases List.mem_cons.mp hf with rfl | hf
  · exact h.depns (item, x :: left) List.mem_cons_self y (List.mem_cons_of_mem x hy)
  · exact h.depns f (List.mem_cons_of_mem _ hf) y hy

/-- A call for an item that has not failed is the only one. -/
theorem callers_eq_nil (hx : (heap item).xcode = 0)
    (h : Completing heap ((item, left) :: callers)) : callers = [] := by
  cases callers with
  | nil => rfl
  | cons f callers =>
    have hcall := h.called f.1 item List.mem_cons_self
    exact absurd hx (h.failed item hcall.1)

/-- The next item is passed over. -/
theorem skip (hx : ∀ c, (c, x) ∉ calls ((item, x :: left) :: callers))
    (h : Completing heap ((item, x :: left) :: callers)) :
    Completing heap ((item, left) :: callers) where
  working := h.working
  depns := h.depns_left
  called a b hab := by
    rw [calls_left left (x :: left)] at hab
    exact h.called a b hab
  trapped := Reentry.skip hx h.trapped
  failed := h.failed

/-- The completion of the next item is called. -/
theorem enter (hx : (heap x).status = .XDEPFAIL)
    (h : Completing heap ((item, x :: left) :: callers)) :
    Completing heap ((x, (heap x).dbase) :: (item, left) :: callers) where
  working n hn := by
    rcases List.mem_cons.mp hn with rfl | hn
    · exact Or.inr hx
    · exact h.working n hn
  depns f hf y hy := by
    rcases List.mem_cons.mp hf with rfl | hf
    · exact hy
    · exact h.depns_left f hf y hy
  called a b hab := by
    rcases List.mem_cons.mp hab with hab | hab
    · obtain ⟨rfl, rfl⟩ := Prod.mk.injEq .. ▸ hab
      exact ⟨hx, h.mem_dbase⟩
    · rw [calls_left left (x :: left)] at hab
      exact h.called a b hab
  trapped := Reentry.push (fun c b hcb => (h.called c b hcb).2) h.mem_dbase h.trapped
  failed := h.failed

/-- A completion that is called from outside. -/
theorem root (hx : (heap x).status = .XRUN ∨ (heap x).status = .XDEPFAIL)
    (hfailed : ∀ n, (heap n).status = .XDEPFAIL → (heap n).xcode ≠ 0) :
    Completing heap [(x, (heap x).dbase)] where
  working n hn := by
    obtain rfl : n = x := List.mem_singleton.mp hn
    exact hx
  depns f hf y hy := by
    obtain rfl := List.mem_singleton.mp hf
    exact hy
  called a b hab := absurd hab List.not_mem_nil
  trapped := ⟨fun b hb => absurd hb List.not_mem_nil, trivial⟩
  failed := hfailed

/-- No completion is going on. -/
theorem none (hfailed : ∀ n, (heap n).status = .XDEPFAIL → (heap n).xcode ≠ 0) :
    Completing heap [] where
  working _ hn := absurd hn List.not_mem_nil
  depns _ hf := absurd hf List.not_mem_nil
  called _ _ hab := absurd hab List.not_mem_nil
  trapped := trivial
  failed := hfailed

/-- A write to one item that no completion is going on for, or that keeps its state. -/
theorem of_eq {heap' : Str → Item} {calling : List (Str × List Str)}
    (hstatus : ∀ n ∈ visiting calling, (heap' n).status = (heap n).status)
    (hdbase : ∀ n, (heap' n).dbase = (heap n).dbase)
    (hfailed : ∀ n, (heap' n).status = .XDEPFAIL → (heap' n).xcode ≠ 0)
    (h : Completing heap calling) : Completing heap' calling where
  working n hn := by
    rw [hstatus n hn]
    exact h.working n hn
  depns f hf x hx := by
    rw [hdbase]
    exact h.depns f hf x hx
  called a b hab := by
    rw [hstatus b (mem_visiting_of_call hab), hdbase]
    exact h.called a b hab
  trapped := h.trapped
  failed := hfailed

/-- The innermost completion ends: it was the only one of its item. -/
theorem finish {heap' : Str → Item} (hne : ∀ n, n ≠ item → (heap' n).status = (heap n).status ∧
      (heap' n).xcode = (heap n).xcode)
    (hdone : (heap' item).status = .XDONE) (hdbase : ∀ n, (heap' n).dbase = (heap n).dbase)
    (h : Completing heap ((item, []) :: callers)) : Completing heap' callers := by
  have hnot : item ∉ visiting callers := not_mem_of_done h.trapped
  have htail : Completing heap callers :=
    { working := fun n hn => h.working n (List.mem_cons_of_mem item hn)
      depns := fun f hf => h.depns f (List.mem_cons_of_mem _ hf)
      called := fun a b hab => h.called a b (mem_calls_cons hab)
      trapped := Reentry.pop h.trapped
      failed := h.failed }
  refine htail.of_eq (fun n hn => (hne n ?_).1) hdbase fun n hn => ?_
  · rintro rfl
    exact hnot hn
  · have hn' : n ≠ item := by
      rintro rfl
      rw [hdone] at hn
      exact absurd hn (by decide)
    rw [(hne n hn').2]
    exact h.failed n ((hne n hn').1 ▸ hn)

end Completing

/-- An item that is being completed has been put into the table. -/
theorem Inv.mem_hashtab (h : Inv s bl rl) (hn : n ∈ visiting s.completing) : n ∈ s.hashtab :=
  h.known.mem_hashtab fun hst => by
    have hworking := h.completing.working n hn
    simp [hst] at hworking

/-! ### A dependent item hears of a completion -/

section CountDown

variable {calling : List (Str × List Str)}

/-- Its count goes down, and the loop goes on. -/
def countDown (s : State) (x : Str) (calling : List (Str × List Str)) : State :=
  State.modify { s with completing := calling } x fun i => { i with dcount := i.dcount - 1 }

/-- It fails with the item it depends on. -/
def markFailed (s : State) (x : Str) (code : Int) : State :=
  s.modify x fun i => { i with xcode := code, status := .XDEPFAIL }

theorem notify_eq (s : State) (item x : Str) (calling : List (Str × List Str)) :
    notify { s with completing := calling } item x =
      if ((countDown s x calling).heap x).status = .XWAITING ∨
          ((countDown s x calling).heap x).status = .XDEPFAIL then
        if ((countDown s x calling).heap item).xcode = 0 then
          if ((countDown s x calling).heap x).dcount = 0 then
            if ((countDown s x calling).heap x).status = .XWAITING then
              addBuild (countDown s x calling) x
            else processCompletion (countDown s x calling) x
          else countDown s x calling
        else
          processCompletion
            (markFailed (countDown s x calling) x ((countDown s x calling).heap item).xcode) x
      else countDown s x calling := rfl

theorem countDown_field (s : State) (x : Str) (calling : List (Str × List Str)) (n : Str) :
    ((countDown s x calling).heap n).status = (s.heap n).status ∧
      ((countDown s x calling).heap n).xcode = (s.heap n).xcode ∧
      ((countDown s x calling).heap n).dbase = (s.heap n).dbase := by
  rw [countDown]
  exact ⟨State.field_modify Item.status rfl n, State.field_modify Item.xcode rfl n,
    State.field_modify Item.dbase rfl n⟩

theorem countDown_dcount (calling : List (Str × List Str)) (hpos : 0 < (s.heap x).dcount)
    (n : Str) :
    ((countDown s x calling).heap n).dcount + (if n = x then 1 else 0) = (s.heap n).dcount := by
  by_cases hn : n = x
  · rw [hn, countDown, State.heap_modify_self, if_pos rfl]
    show (s.heap x).dcount - 1 + 1 = (s.heap x).dcount
    omega
  · rw [countDown, State.heap_modify_ne hn, if_neg hn]
    rfl

theorem countDown_quiet (hcalling : visiting calling = visiting s.completing) :
    Quiet s (countDown s x calling) := by
  have hquiet : Quiet s { s with completing := calling } :=
    { Quiet.refl s with visiting := hcalling }
  exact hquiet.trans (Quiet.modify rfl (List.Subset.refl _) (Or.inl ⟨rfl, rfl⟩))

theorem markFailed_self (s : State) (x : Str) (code : Int) :
    (markFailed s x code).heap x = { s.heap x with xcode := code, status := .XDEPFAIL } := by
  rw [markFailed, State.heap_modify_self]

theorem markFailed_field (s : State) (x : Str) (code : Int) (n : Str) :
    ((markFailed s x code).heap n).dbase = (s.heap n).dbase ∧
      ((markFailed s x code).heap n).dcount = (s.heap n).dcount :=
  ⟨State.field_modify Item.dbase rfl n, State.field_modify Item.dcount rfl n⟩

theorem markFailed_quiet {code : Int} (hidle : (s.heap x).Idle) (hcode : code ≠ 0) :
    Quiet s (markFailed s x code) :=
  Quiet.modify rfl (List.Subset.refl _) (Or.inr ⟨hidle, rfl, hcode⟩)

end CountDown

end Flappy.Fbulk
