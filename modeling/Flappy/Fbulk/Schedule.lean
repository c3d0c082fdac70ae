/-
When the bulk builder respects dependencies (`bin/flappy-fbulk/main.c`).

Completions are processed while packages are still being enumerated.  As long as no
completion reaches a package whose dependencies are still being listed, or whose own
completion is going on, the count of a package is the number of notices its
dependencies still owe it, and

* `run_respected` — a package is on the BuildList only when its dependencies have been
  built, it is never built otherwise, and no assertion fails.
-/
import Mathlib.Algebra.BigOperators.Group.Finset.Basic
import Flappy.Fbulk.Lists

open CStr Intrusive Reentry

namespace Flappy.Fbulk

/-- The package whose dependencies the frame is listing. -/
def Frame.listing : Frame → Option Str
  | .orderedDepends item _ _ => some item
  | _ => none

/-- The dependencies that the frame has not passed to `addDepn` yet. -/
def Frame.todo (env : Env) : Frame → List Str
  | .orderedDepends _ xitem lines => xitem.toList ++ lines.filterMap env.dependency
  | _ => []

namespace State

/-- The packages whose dependencies are being listed. -/
def listing (s : State) : List Str := s.stack.filterMap Frame.listing

/-- The reverse dependencies that the completion of a package has not visited yet. -/
def pending (s : State) (n : Str) : List Str :=
  if (s.heap n).status = .XDONE then []
  else (s.completing.lookup n).getD (s.heap n).dbase

/-- The package has been built.  It is marked XDONE at the end of its completion. -/
def Good (s : State) (n : Str) : Prop :=
  (s.heap n).xcode = 0 ∧ ((s.heap n).status = .XDONE ∨ n ∈ visiting s.completing)

/-- A dependency of the package has failed. -/
def Failed (s : State) (n : Str) : Prop :=
  (s.heap n).xcode ≠ 0 ∧ ((s.heap n).status = .XDEPFAIL ∨ (s.heap n).status = .XDONE)

/-- The dependency `d` of `n` is still to be listed. -/
def Left (env : Env) (s : State) (n d : Str) : Prop :=
  ∃ f ∈ s.stack, f.listing = some n ∧ d ∈ f.todo env

/-- The dependency `d` of `n` is listed and accounted for. -/
def Answered (s : State) (n d : Str) : Prop := n ∈ s.pending d ∨ s.Good d ∨ s.Failed n

/-- No completion starts or ends a package whose dependencies are still being listed, or
whose own completion is going on. -/
def Undisturbed (s : State) : Prop :=
  match s.completing with
  | (item, x :: _) :: _ =>
    (s.heap x).status = .XWAITING ∨ (s.heap x).status = .XDEPFAIL →
      (s.heap item).xcode ≠ 0 ∨ (s.heap x).dcount = 1 →
        x ∉ s.listing ∧ x ∉ visiting s.completing
  | _ => True

instance decidableUndisturbed (s : State) : Decidable s.Undisturbed := by
  unfold Undisturbed
  split <;> infer_instance

/-- Dependencies are respected. -/
structure Respected (env : Env) (s : State) : Prop where
  assertion : s.assertion = none
  /-- On the BuildList are only packages with their dependencies built. -/
  waiting : ∀ bl, Linked s.builds bl → ∀ n ∈ bl, ∀ d ∈ env.buildDeps n,
    (s.heap d).xcode = 0 ∧ ((s.heap d).status = .XDONE ∨ d ∈ visiting s.completing)
  /-- Only such packages have been built. -/
  built : ∀ n ∈ s.forks, ∀ d ∈ env.buildDeps n,
    (s.heap d).status = .XDONE ∧ (s.heap d).xcode = 0

end State

/-- The item has been put on the BuildList, and has not failed. -/
def Item.Built (i : Item) : Prop :=
  i.status = .XBUILD ∨ i.status = .XRUN ∨ i.status = .XDONE ∧ i.xcode = 0

structure Sched (env : Env) (s : State) : Prop where
  assertion : s.assertion = none
  nodup : (visiting s.completing).Nodup
  /-- The count of a package is the number of notices owed to it. -/
  count : ∀ z, (s.heap z).dcount = ∑ y ∈ s.hashtab, (s.pending y).count z
  built : ∀ n, (s.heap n).Built → (s.heap n).dcount = 0
  listingNodup : s.listing.Nodup
  listing : ∀ n ∈ s.listing, (s.heap n).Idle ∧ n ∉ visiting s.completing
  deps : ∀ n ∈ s.hashtab, ∀ d ∈ env.buildDeps n, s.Left env n d ∨ s.Answered n d
  forks : ∀ n ∈ s.forks, ∀ d ∈ env.buildDeps n,
    (s.heap d).status = .XDONE ∧ (s.heap d).xcode = 0

variable {env : Env} {s s' : State} {bl rl : List Str} {n d x item : Str}

/-! ### Notices owed -/

/-- One notice less. -/
theorem sum_count_take {t : Finset Str} {p q : Str → List Str} (hi : item ∈ t)
    (hitem : p item = x :: q item) (hne : ∀ y, y ≠ item → p y = q y) (z : Str) :
    ∑ y ∈ t, (p y).count z = (∑ y ∈ t, (q y).count z) + if z = x then 1 else 0 := by
  rw [← Finset.add_sum_erase t _ hi, ← Finset.add_sum_erase t (fun y => (q y).count z) hi]
  have hrest : ∑ y ∈ t.erase item, (p y).count z = ∑ y ∈ t.erase item, (q y).count z :=
    Finset.sum_congr rfl fun y hy => by rw [hne y (Finset.ne_of_mem_erase hy)]
  have hfirst : (p item).count z = (q item).count z + if z = x then 1 else 0 := by
    rw [hitem, List.count_cons]
    by_cases hz : z = x
    · simp [hz]
    · simp [hz, Ne.symm hz]
  rw [hrest, hfirst]
  omega

theorem Sched.dcount_pos (h : Sched env s) (hd : d ∈ s.hashtab) (hn : n ∈ s.pending d) :
    0 < (s.heap n).dcount := by
  rw [h.count n]
  rw [← Finset.add_sum_erase s.hashtab _ hd]
  have : 0 < (s.pending d).count n := List.count_pos_iff.mpr hn
  omega

/-- A package that is not in the table owes nothing. -/
theorem pending_eq_nil (h : Inv s bl rl) (hn : n ∉ s.hashtab) : s.pending n = [] := by
  have hfresh := h.known.fresh n hn
  have hnot : s.completing.lookup n = none := by
    rw [List.lookup_eq_none_iff]
    intro f hf
    have hwork := h.completing.working f.1 (List.mem_map_of_mem hf)
    by_cases he : n = f.1
    · rw [← he, hfresh] at hwork
      simp at hwork
    · simpa using he
  rw [State.pending, hnot, hfresh]
  rfl

theorem pending_of_notMem (hn : n ∉ visiting s.completing) (hst : (s.heap n).status ≠ .XDONE) :
    s.pending n = (s.heap n).dbase := by
  have hnot : s.completing.lookup n = none := by
    rw [List.lookup_eq_none_iff]
    intro f hf
    have : n ≠ f.1 := fun he => hn (he ▸ List.mem_map_of_mem hf)
    simpa using this
  rw [State.pending, if_neg hst, hnot]
  rfl

/-- A call of `processCompletion` owes what the package owed. -/
theorem pending_enter (hx : x ∉ visiting s.completing) (n : Str) :
    ({ s with completing := (x, (s.heap x).dbase) :: s.completing } : State).pending n =
      s.pending n := by
  by_cases hst : (s.heap n).status = .XDONE
  · simp [State.pending, hst]
  · by_cases hn : n = x
    · subst hn
      rw [pending_of_notMem hx hst]
      simp [State.pending, hst]
    · have hne : (n == x) = false := by simpa using hn
      simp [State.pending, List.lookup_cons, hne]

/-! ### Steps that leave the counts alone -/

/-- The second state has the same counts and owes the same; what was done or failed
still is. -/
structure Calm (s s' : State) : Prop where
  hashtab : s'.hashtab = s.hashtab
  dcount : ∀ n, (s'.heap n).dcount = (s.heap n).dcount
  pending : ∀ n, s'.pending n = s.pending n
  good : ∀ n, s.Good n → s'.Good n
  failed : ∀ n, s.Failed n → s'.Failed n
  done : ∀ n, (s.heap n).status = .XDONE → (s.heap n).xcode = 0 →
    (s'.heap n).status = .XDONE ∧ (s'.heap n).xcode = 0

theorem Calm.answered (h : Calm s s') (ha : s.Answered n d) : s'.Answered n d := by
  rcases ha with ha | ha | ha
  · exact Or.inl (by rwa [h.pending])
  · exact Or.inr (Or.inl (h.good d ha))
  · exact Or.inr (Or.inr (h.failed n ha))

theorem Sched.calm (h : Sched env s) (hc : Calm s s') (hok : s'.assertion = none)
    (hnodup : (visiting s'.completing).Nodup)
    (hbuilt : ∀ n, (s'.heap n).Built → (s.heap n).Built ∨ (s.heap n).dcount = 0)
    (hlistingNodup : s'.listing.Nodup)
    (hlisting : ∀ n ∈ s'.listing, (s'.heap n).Idle ∧ n ∉ visiting s'.completing)
    (hleft : ∀ n d, s.Left env n d → s'.Left env n d ∨ s'.Answered n d)
    (hforks : ∀ n ∈ s'.forks, n ∈ s.forks ∨ ∀ d ∈ env.buildDeps n,
      (s.heap d).status = .XDONE ∧ (s.heap d).xcode = 0) : Sched env s' where
  assertion := hok
  nodup := hnodup
  count z := by
    rw [hc.dcount, hc.hashtab, h.count z]
    exact Finset.sum_congr rfl fun y _ => by rw [hc.pending]
  built n hn := by
    rw [hc.dcount]
    exact (hbuilt n hn).elim (h.built n) id
  listingNodup := hlistingNodup
  listing := hlisting
  deps n hn d hd := by
    rw [hc.hashtab] at hn
    exact (h.deps n hn d hd).elim (hleft n d) fun ha => Or.inr (hc.answered ha)
  forks n hn d hd := by
    have hdone : (s.heap d).status = .XDONE ∧ (s.heap d).xcode = 0 :=
      (hforks n hn).elim (fun hn => h.forks n hn d hd) fun hall => hall d hd
    exact hc.done d hdone.1 hdone.2

/-- A package with a count of zero goes on to the BuildList, or to be built. -/
theorem Sched.advance (h : Sched env s) (hhashtab : s'.hashtab = s.hashtab)
    (hcomp : s'.completing = s.completing) (hstack : s'.stack = s.stack)
    (hok : s'.assertion = none)
    (hne : ∀ n, n ≠ x → (s'.heap n).status = (s.heap n).status ∧
      (s'.heap n).xcode = (s.heap n).xcode)
    (hsame : ∀ n, (s'.heap n).dbase = (s.heap n).dbase ∧ (s'.heap n).dcount = (s.heap n).dcount)
    (hfrom : (s.heap x).status = .XWAITING ∨ (s.heap x).status = .XBUILD ∨
      (s.heap x).status = .XRUN)
    (hto : (s'.heap x).status = .XBUILD ∨ (s'.heap x).status = .XRUN)
    (hzero : (s.heap x).dcount = 0) (hx : x ∉ visiting s.completing) (hxl : x ∉ s.listing)
    (hforks : ∀ n ∈ s'.forks, n ∈ s.forks ∨ ∀ d ∈ env.buildDeps n,
      (s.heap d).status = .XDONE ∧ (s.heap d).xcode = 0) : Sched env s' := by
  have hdone : (s.heap x).status ≠ .XDONE := by
    intro he
    simp [he] at hfrom
  have hdone' : (s'.heap x).status ≠ .XDONE := by
    intro he
    simp [he] at hto
  -- only the status of `x` changes, and it is never done
  have hlist : s'.listing = s.listing := by rw [State.listing, hstack, State.listing]
  refine h.calm ⟨hhashtab, fun n => (hsame n).2, fun n => ?_, fun n hn => ?_, fun n hn => ?_,
    fun n hst hcode => ?_⟩ hok (hcomp ▸ h.nodup) (fun n hn => ?_) (hlist ▸ h.listingNodup)
    (fun n hn => ?_) (fun n d hl => ?_) hforks
  · by_cases he : n = x
    · subst he
      rw [pending_of_notMem (hcomp ▸ hx) hdone', pending_of_notMem hx hdone, (hsame n).1]
    · rw [State.pending, State.pending, (hne n he).1, hcomp, (hsame n).1]
  · have he : n ≠ x := by
      rintro rfl
      exact hn.2.elim hdone hx
    rw [State.Good, (hne n he).1, (hne n he).2, hcomp]
    exact hn
  · have he : n ≠ x := by
      rintro rfl
      rcases hn.2 with hn | hn <;> simp [hn] at hfrom
    rw [State.Failed, (hne n he).1, (hne n he).2]
    exact hn
  · have he : n ≠ x := by
      rintro rfl
      exact hdone hst
    rw [(hne n he).1, (hne n he).2]
    exact ⟨hst, hcode⟩
  · by_cases he : n = x
    · -- `x` may be built now: its count is zero
      exact Or.inr (he ▸ hzero)
    · left
      rwa [Item.Built, (hne n he).1, (hne n he).2] at hn
  · rw [hlist] at hn
    have he : n ≠ x := by
      rintro rfl
      exact hxl hn
    rw [Item.Idle, (hne n he).1, hcomp]
    exact h.listing n hn
  · rw [State.Left, hstack]
    exact Or.inl hl

theorem Sched.addBuild (h : Sched env s) (hx : (s.heap x).status = .XWAITING)
    (hzero : (s.heap x).dcount = 0) (hxv : x ∉ visiting s.completing) (hxl : x ∉ s.listing) :
    Sched env (addBuild s x) := by
  refine h.advance (x := x) rfl rfl rfl h.assertion (fun n hn => ?_) (fun n => ?_) (Or.inl hx)
    (Or.inl ?_) hzero hxv hxl fun n hn => Or.inl hn
  · rw [addBuild_heap, if_neg hn]
    exact ⟨rfl, rfl⟩
  · rw [addBuild_heap]
    exact ⟨rfl, rfl⟩
  · rw [addBuild_heap, if_pos rfl]

/-- A call of `processCompletion`, for a package that is not completed yet. -/
theorem Sched.enter (h : Sched env s)
    (hx : (s.heap x).status = .XRUN ∨ (s.heap x).status = .XDEPFAIL)
    (hxv : x ∉ visiting s.completing) (hxl : x ∉ s.listing) :
    Sched env (processCompletion s x) := by
  rw [processCompletion_eq hx]
  refine h.calm ⟨rfl, fun _ => rfl, pending_enter hxv, fun n hn => ?_, fun n hn => hn,
    fun n hst hcode => ⟨hst, hcode⟩⟩ h.assertion (List.nodup_cons.mpr ⟨hxv, h.nodup⟩)
    (fun n hn => Or.inl hn) h.listingNodup (fun n hn => ?_) (fun n d hl => Or.inl hl)
    fun n hn => Or.inl hn
  · exact ⟨hn.1, hn.2.imp id fun hn => List.mem_cons_of_mem x hn⟩
  · obtain ⟨hidle, hn'⟩ := h.listing n hn
    refine ⟨hidle, fun hmem => ?_⟩
    rcases List.mem_cons.mp hmem with rfl | hmem
    · exact hxl hn
    · exact hn' hmem

/-- Only the stack of calls changes, and what is to be listed is not lost. -/
theorem Sched.setStack {stack : List Frame} (h : Sched env s)
    (hlisting : (stack.filterMap Frame.listing).Sublist s.listing)
    (hleft : ∀ n d, s.Left env n d → ({ s with stack := stack } : State).Left env n d) :
    Sched env { s with stack := stack } :=
  h.calm ⟨rfl, fun _ => rfl, fun _ => rfl, fun _ hn => hn, fun _ hn => hn,
    fun _ hst hcode => ⟨hst, hcode⟩⟩ h.assertion h.nodup (fun _ hn => Or.inl hn)
    (hlisting.nodup h.listingNodup) (fun n hn => h.listing n (hlisting.subset hn))
    (fun n d hl => Or.inl (hleft n d hl)) fun _ hn => Or.inl hn

/-- What is on the BuildList has its dependencies built. -/
theorem Sched.good_of_build (h : Sched env s) (hinv : Inv s bl rl)
    (hn : (s.heap n).status = .XBUILD) (hd : d ∈ env.buildDeps n) : s.Good d := by
  have hknown : n ∈ s.hashtab := by
    by_contra hnot
    simp [hinv.known.fresh n hnot] at hn
  have hzero := h.built n (Or.inl hn)
  rcases h.deps n hknown d hd with ⟨f, hf, hfn, -⟩ | ha | ha | ha
  · have hlist : n ∈ s.listing := List.mem_filterMap.mpr ⟨f, hf, hfn⟩
    have hidle := (h.listing n hlist).1
    simp [Item.Idle, hn] at hidle
  · have hdk : d ∈ s.hashtab := by
      by_contra hnot
      rw [pending_eq_nil hinv hnot] at ha
      exact absurd ha List.not_mem_nil
    have := h.dcount_pos hdk ha
    omega
  · exact ha
  · rcases ha.2 with ha | ha <;> simp [hn] at ha

/-! ### Steps that change the counts -/

theorem Quiet.good (hq : Quiet s s') (hinv : Inv s bl rl) (hn : s.Good n) : s'.Good n := by
  rcases hq.item n with ⟨hst, hcode⟩ | ⟨hidle, -⟩
  · rw [State.Good, hst, hcode, hq.visiting]
    exact hn
  · rcases hn.2 with hdone | hvisit
    · simp [Item.Idle, hdone] at hidle
    · rcases hinv.completing.working n hvisit with hrun | hfail
      · simp [Item.Idle, hrun] at hidle
      · exact absurd hn.1 (hinv.completing.failed n hfail)

theorem Quiet.failed_of_failed (hq : Quiet s s') (hn : s.Failed n) : s'.Failed n := by
  rcases hq.item n with ⟨hst, hcode⟩ | ⟨-, hst, hcode⟩
  · rw [State.Failed, hst, hcode]
    exact hn
  · exact ⟨hcode, Or.inl hst⟩

theorem Quiet.built (hq : Quiet s s') (hn : (s'.heap n).Built) : (s.heap n).Built := by
  rcases hq.item n with ⟨hst, hcode⟩ | ⟨-, hst, -⟩
  · rwa [Item.Built, hst, hcode] at hn
  · simp [Item.Built, hst] at hn

/-- A quiet write keeps the counts right if it changes them as it changes what is owed. -/
theorem Sched.quiet (h : Sched env s) (hinv : Inv s bl rl) (hq : Quiet s s')
    (hhashtab : s'.hashtab = s.hashtab) (hok : s'.assertion = none)
    (hlist : s'.listing = s.listing)
    (hcount : ∀ z, (s'.heap z).dcount = ∑ y ∈ s.hashtab, (s'.pending y).count z)
    (hzero : ∀ n, (s.heap n).Built → (s'.heap n).dcount = 0)
    (hdeps : ∀ n d, s.Left env n d ∨ n ∈ s.pending d → s'.Left env n d ∨ s'.Answered n d) :
    Sched env s' where
  assertion := hok
  nodup := hq.visiting ▸ h.nodup
  count := hhashtab ▸ hcount
  built n hn := hzero n (hq.built hn)
  listingNodup := hlist ▸ h.listingNodup
  listing n hn := by
    rw [hq.idle_iff, hq.visiting]
    exact h.listing n (hlist ▸ hn)
  deps n hn d hd := by
    rcases h.deps n (hhashtab ▸ hn) d hd with hl | ha | ha | ha
    · exact hdeps n d (Or.inl hl)
    · exact hdeps n d (Or.inr ha)
    · exact Or.inr (Or.inr (Or.inl (hq.good hinv ha)))
    · exact Or.inr (Or.inr (Or.inr (hq.failed_of_failed ha)))
  forks n hn d hd := by
    have hdone := h.forks n (hq.forks ▸ hn) d hd
    rcases hq.item d with ⟨hst, hcode⟩ | ⟨hidle, -⟩
    · rw [hst, hcode]
      exact hdone
    · simp [Item.Idle, hdone.1] at hidle

/-- One notice is given: by a good build, or to a package that has failed. -/
theorem Sched.take {left : List Str} {callers : List (Str × List Str)} (h : Sched env s)
    (hinv : Inv s bl rl) (hq : Quiet s s') (hs : s.completing = (item, x :: left) :: callers)
    (hhashtab : s'.hashtab = s.hashtab) (hcomp : s'.completing = (item, left) :: callers)
    (hstack : s'.stack = s.stack) (hok : s'.assertion = none)
    (hdbase : ∀ n, (s'.heap n).dbase = (s.heap n).dbase)
    (hcount : ∀ n, (s'.heap n).dcount + (if n = x then 1 else 0) = (s.heap n).dcount)
    (hans : s'.Good item ∨ s'.Failed x) : Sched env s' := by
  have hworking := hinv.completing.working item (by rw [hs]; exact List.mem_cons_self)
  have hknown : item ∈ s.hashtab :=
    hinv.mem_hashtab (by rw [hs]; exact List.mem_cons_self)
  have hdone : ∀ n, (s'.heap n).status = .XDONE ↔ (s.heap n).status = .XDONE :=
    hq.status_iff (by decide) (by decide)
  have hitem : s.pending item = x :: s'.pending item := by
    have hnot : (s.heap item).status ≠ .XDONE := by
      intro he
      simp [he] at hworking
    have hnot' : (s'.heap item).status ≠ .XDONE := fun he => hnot ((hdone item).mp he)
    simp [State.pending, hnot, hnot', hs, hcomp]
  have hpending : ∀ y, y ≠ item → s.pending y = s'.pending y := by
    intro y hy
    have hyi : (y == item) = false := by simpa using hy
    simp only [State.pending, hdone, hs, hcomp, List.lookup_cons, hyi, hdbase]
  refine h.quiet hinv hq hhashtab hok (by rw [State.listing, hstack, State.listing])
    (fun z => ?_) (fun n hn => ?_) fun n d hl => ?_
  · -- the count of `x` goes down with the list of the build
    have hsum := sum_count_take (p := s.pending) hknown hitem hpending z
    have hz := hcount z
    rw [h.count z, hsum] at hz
    omega
  · have := h.built n hn
    have := hcount n
    omega
  · rcases hl with hl | ha
    · left
      rwa [State.Left, hstack]
    · right
      by_cases hdi : d = item
      · -- `x` is no longer on the list, and it has its answer
        subst hdi
        rw [hitem] at ha
        rcases List.mem_cons.mp ha with rfl | ha
        · exact Or.inr hans
        · exact Or.inl ha
      · exact Or.inl (by rwa [← hpending d hdi])

/-! ### The steps -/

theorem Sched.notify {left : List Str} {callers : List (Str × List Str)} (h : Sched env s)
    (hinv : Inv s bl rl) (hs : s.completing = (item, x :: left) :: callers)
    (hund : s.Undisturbed) (hpos : 0 < (s.heap x).dcount) :
    Sched env (notify { s with completing := (item, left) :: callers } item x) := by
  have hmem : item ∈ visiting s.completing := by
    rw [hs]
    exact List.mem_cons_self
  have hund : (s.heap x).Idle → (s.heap item).xcode ≠ 0 ∨ (s.heap x).dcount = 1 →
      x ∉ s.listing ∧ x ∉ visiting s.completing := by
    have := hund
    rw [State.Undisturbed, hs] at this
    rw [hs]
    exact this
  have hvisit : visiting ((item, left) :: callers) = visiting s.completing := by rw [hs]; rfl
  have hqu : Quiet s (countDown s x ((item, left) :: callers)) := countDown_quiet hvisit
  have hfield := countDown_field s x ((item, left) :: callers)
  have hcount := countDown_dcount ((item, left) :: callers) hpos
  rw [notify_eq]
  set u := countDown s x ((item, left) :: callers)
  -- the count alone, for a good build or a package that has failed
  have hcounted : u.Good item ∨ u.Failed x → Sched env u := fun hans =>
    h.take hinv hqu hs rfl rfl rfl h.assertion (fun n => (hfield n).2.2) hcount hans
  by_cases hidle : (u.heap x).status = .XWAITING ∨ (u.heap x).status = .XDEPFAIL
  · rw [if_pos hidle]
    have hidle' : (s.heap x).Idle := by rwa [(hfield x).1] at hidle
    by_cases hcode : (u.heap item).xcode = 0
    · rw [if_pos hcode]
      have hgood : Sched env u := hcounted (Or.inl ⟨hcode, Or.inr (hvisit ▸ hmem)⟩)
      -- the last dependency: the package is built, or completed if it has failed
      by_cases hzero : (u.heap x).dcount = 0
      · have hone : (s.heap x).dcount = 1 := by
          have := hcount x
          rw [if_pos rfl] at this
          omega
        obtain ⟨hxl, hxv⟩ := hund hidle' (Or.inr hone)
        rw [if_pos hzero]
        by_cases hw : (u.heap x).status = .XWAITING
        · rw [if_pos hw]
          exact hgood.addBuild hw hzero (hvisit ▸ hxv) hxl
        · rw [if_neg hw]
          exact hgood.enter (Or.inr (hidle.resolve_left hw)) (hvisit ▸ hxv) hxl
      · rw [if_neg hzero]
        exact hgood
    · rw [if_neg hcode]
      obtain ⟨hxl, hxv⟩ := hund hidle' (Or.inl ((hfield item).2.1 ▸ hcode))
      have hquv := markFailed_quiet hidle hcode
      have hmark := markFailed_field u x (u.heap item).xcode
      have hself := markFailed_self u x (u.heap item).xcode
      set v := markFailed u x (u.heap item).xcode
      have hfail : (v.heap x).status = .XDEPFAIL := by rw [hself]
      have hfailcode : (v.heap x).xcode ≠ 0 := by
        rw [hself]
        exact hcode
      have hsched : Sched env v := h.take hinv (hqu.trans hquv) hs rfl rfl rfl h.assertion
        (fun n => (hmark n).1.trans (hfield n).2.2)
        (fun n => by rw [(hmark n).2]; exact hcount n) (Or.inr ⟨hfailcode, Or.inl hfail⟩)
      exact hsched.enter (Or.inr hfail) (hvisit ▸ hxv) hxl
  · rw [if_neg hidle]
    -- a package that is on its way, or is built, is owed nothing; so this one has failed
    refine hcounted (Or.inr ?_)
    have hnot : ¬ (s.heap x).Built := fun hb => by
      have := h.built x hb
      omega
    rw [(hfield x).1] at hidle
    rw [State.Failed, (hfield x).1, (hfield x).2.1]
    cases hst : (s.heap x).status <;> simp_all [Item.Built]

theorem Sched.finish {callers : List (Str × List Str)} (h : Sched env s) (hinv : Inv s bl rl)
    (hs : s.completing = (item, []) :: callers) :
    Sched env (completionStep s item [] callers) := by
  set t := completionStep s item [] callers with ht
  have hmem : item ∈ visiting s.completing := by
    rw [hs]
    exact List.mem_cons_self
  have hworking := hinv.completing.working item hmem
  have hself : t.heap item = { s.heap item with status := .XDONE } := by
    rw [ht, completionStep_nil_heap, State.heap_modify_self]
  have hne : ∀ n, n ≠ item → t.heap n = s.heap n := fun n hn => by
    rw [ht, completionStep_nil_heap, State.heap_modify_ne hn]
  have hvisit : visiting s.completing = item :: visiting callers := by
    rw [hs]
    rfl
  have hnodup : (item :: visiting callers).Nodup := hvisit ▸ h.nodup
  have hlist : item ∉ s.listing := fun hmem' => (h.listing item hmem').2 hmem
  refine h.calm ⟨rfl, fun n => ?_, fun n => ?_, fun n hn => ?_, fun n hn => ?_,
    fun n hst hcode => ?_⟩ h.assertion hnodup.of_cons (fun n hn => ?_) h.listingNodup
    (fun n hn => ?_) (fun n d hl => Or.inl hl) fun n hn => Or.inl hn
  · by_cases he : n = item
    · rw [he, hself]
    · rw [hne n he]
  · by_cases he : n = item
    · subst he
      have hnot : (s.heap n).status ≠ .XDONE := by
        intro hst
        simp [hst] at hworking
      simp [State.pending, hself, hnot, hs]
    · have hni : (n == item) = false := by simpa using he
      rw [State.pending, State.pending, hne n he, hs]
      simp [List.lookup_cons, hni, ht, completionStep]
  · by_cases he : n = item
    · subst he
      rw [State.Good, hself]
      exact ⟨hn.1, Or.inl rfl⟩
    · rw [State.Good, hne n he]
      refine ⟨hn.1, hn.2.imp id fun hv => ?_⟩
      rw [hvisit] at hv
      exact (List.mem_cons.mp hv).resolve_left he
  · by_cases he : n = item
    · subst he
      rw [State.Failed, hself]
      exact ⟨hn.1, Or.inr rfl⟩
    · rw [State.Failed, hne n he]
      exact hn
  · have he : n ≠ item := by
      rintro rfl
      simp [hst] at hworking
    rw [hne n he]
    exact ⟨hst, hcode⟩
  · by_cases he : n = item
    · subst he
      -- a failed build has been marked by its code
      have hcode : (s.heap n).xcode = 0 := by
        rw [hself] at hn
        simpa [Item.Built] using hn
      rcases hworking with hrun | hfail
      · exact Or.inl (Or.inr (Or.inl hrun))
      · exact absurd hcode (hinv.completing.failed n hfail)
    · left
      rwa [hne n he] at hn
  · obtain ⟨hidle, hnv⟩ := h.listing n hn
    have he : n ≠ item := by
      rintro rfl
      exact hlist hn
    rw [hne n he]
    refine ⟨hidle, fun hv => hnv ?_⟩
    rw [hvisit]
    exact List.mem_cons_of_mem item hv

/-- A package on the BuildList is started. -/
theorem Sched.forkBuild (h : Sched env s) (hinv : Inv s (item :: bl) rl)
    (hcomp : s.completing = []) (fork : Option Nat) : Sched env (forkBuild s item fork) := by
  have hx : (s.heap item).status = .XBUILD :=
    (hinv.byStatus.build item).mp List.mem_cons_self
  have hzero : (s.heap item).dcount = 0 := h.built item (Or.inl hx)
  have hxv : item ∉ visiting s.completing := by simp [hcomp, visiting]
  have hxl : item ∉ s.listing := fun hmem => by
    have := (h.listing item hmem).1
    simp [Item.Idle, hx] at this
  -- nothing is completing, so the dependencies are built to the end
  have hforks : ∀ n ∈ item :: s.forks, n ∈ s.forks ∨ ∀ d ∈ env.buildDeps n,
      (s.heap d).status = .XDONE ∧ (s.heap d).xcode = 0 := by
    intro n hn
    rcases List.mem_cons.mp hn with rfl | hn
    · refine Or.inr fun d hd => ?_
      have hgood := h.good_of_build hinv hx hd
      rw [State.Good, hcomp] at hgood
      exact ⟨hgood.2.resolve_right List.not_mem_nil, hgood.1⟩
    · exact Or.inl hn
  have hadvance : ∀ t : State, Started s t item → (t.heap item).dcount = (s.heap item).dcount →
      t.hashtab = s.hashtab → t.completing = s.completing → t.stack = s.stack →
      t.assertion = none → t.forks = item :: s.forks → Sched env t := by
    intro t ht hcount hhashtab hc hst hok hf
    refine h.advance (x := item) hhashtab hc hst hok (fun n hn => ?_) (fun n => ?_)
      (Or.inr (Or.inl hx)) (Or.inr ht.status) hzero hxv hxl (hf ▸ hforks)
    · rw [ht.ne n hn]
      exact ⟨rfl, rfl⟩
    · by_cases he : n = item
      · rw [he]
        exact ⟨ht.dbase, hcount⟩
      · rw [ht.ne n he]
        exact ⟨rfl, rfl⟩
  cases fork with
  | none =>
    have ht := started_failed s item
    have hcount : (((takeBuild s item (-1)).modify item
        fun i => { i with xcode := -98 }).heap item).dcount = (s.heap item).dcount := by
      rw [State.heap_modify_self, takeBuild_heap_self]
    exact (hadvance _ ht hcount rfl rfl rfl h.assertion rfl).enter (Or.inl ht.status) hxv hxl
  | some pid =>
    have ht := started_forked s item pid
    have hcount : ((Fbulk.forkBuild s item (some pid)).heap item).dcount =
        (s.heap item).dcount := by
      simp [Fbulk.forkBuild, takeBuild, State.modify]
    exact hadvance _ ht hcount rfl rfl rfl h.assertion rfl

/-- The exit of a child is taken. -/
theorem Sched.unlinkRun {itemp : Link Str} (h : Sched env s) (hinv : Inv s bl rl)
    (hcomp : s.completing = []) (hmem : item ∈ rl) (status : UInt8) :
    Sched env (processCompletion (unlinkRun s itemp item status) item) := by
  have hx : (s.heap item).status = .XRUN := ((hinv.byStatus.run item).mp hmem).1
  have hzero : (s.heap item).dcount = 0 := h.built item (Or.inr (Or.inl hx))
  have hxv : item ∉ visiting s.completing := by simp [hcomp, visiting]
  have hxl : item ∉ s.listing := fun hmem => by
    have := (h.listing item hmem).1
    simp [Item.Idle, hx] at this
  have hadvance : Sched env (Fbulk.unlinkRun s itemp item status) := by
    refine h.advance (x := item) rfl rfl rfl h.assertion (fun n hn => ?_) (fun n => ?_)
      (Or.inr (Or.inr hx)) (Or.inr ?_) hzero hxv hxl fun n hn => Or.inl hn
    · rw [unlinkRun_heap_ne s itemp status hn]
      exact ⟨rfl, rfl⟩
    · by_cases he : n = item
      · rw [he, unlinkRun_heap_self]
        exact ⟨rfl, rfl⟩
      · rw [unlinkRun_heap_ne s itemp status he]
        exact ⟨rfl, rfl⟩
    · rw [unlinkRun_heap_self]
      exact hx
  refine hadvance.enter (Or.inl ?_) hxv hxl
  rw [unlinkRun_heap_self]
  exact hx

theorem left_cons {f : Frame} {callers : List Frame} (hs : s.stack = f :: callers) :
    s.Left env n d ↔ f.listing = some n ∧ d ∈ f.todo env ∨
      ∃ g ∈ callers, g.listing = some n ∧ d ∈ g.todo env := by
  rw [State.Left, hs]
  simp

/-- What is left to be listed when one dependency has been passed to `addDepn`. -/
theorem left_of_left {lines : List Str} {callers : List Frame}
    (hs : s.stack = .orderedDepends item (some x) lines :: callers)
    (hs' : s'.stack = .orderedDepends item none lines :: callers) (hl : s.Left env n d) :
    s'.Left env n d ∨ n = item ∧ d = x := by
  rw [left_cons hs] at hl
  rw [left_cons hs']
  rcases hl with ⟨hn, hd⟩ | hl
  · have hd' : d = x ∨ d ∈ lines.filterMap env.dependency := by simpa [Frame.todo] using hd
    have hn' : item = n := by simpa [Frame.listing] using hn
    rcases hd' with rfl | hd'
    · exact Or.inr ⟨hn'.symm, rfl⟩
    · exact Or.inl (Or.inl ⟨hn, by simpa [Frame.todo] using hd'⟩)
  · exact Or.inl (Or.inr hl)

/-- A dependency that is done is listed: it owes nothing. -/
theorem Sched.listDone {lines : List Str} {callers : List Frame} (h : Sched env s)
    (hinv : Inv s bl rl) (hq : Quiet s s') (hcomp : s.completing = []) (hcomp' : s'.completing = [])
    (hhashtab : s'.hashtab = s.hashtab) (hok : s'.assertion = none)
    (hs : s.stack = .orderedDepends item (some x) lines :: callers)
    (hs' : s'.stack = .orderedDepends item none lines :: callers)
    (hdone : (s.heap x).status = .XDONE)
    (hdbase : ∀ n, n ≠ x → (s'.heap n).dbase = (s.heap n).dbase)
    (hdcount : ∀ n, (s'.heap n).dcount = (s.heap n).dcount)
    (hans : s'.Good x ∨ s'.Failed item) : Sched env s' := by
  have hst : ∀ n, (s'.heap n).status = .XDONE ↔ (s.heap n).status = .XDONE :=
    hq.status_iff (by decide) (by decide)
  have hpending : ∀ n, s'.pending n = s.pending n := by
    intro n
    by_cases hnx : n = x
    · subst hnx
      rw [State.pending, State.pending, if_pos hdone, if_pos ((hst n).mpr hdone)]
    · simp only [State.pending, hst, hcomp, hcomp', hdbase n hnx]
  refine h.quiet hinv hq hhashtab hok (by rw [State.listing, State.listing, hs, hs']; rfl)
    (fun z => ?_) (fun n hn => by rw [hdcount]; exact h.built n hn) fun n d hl => ?_
  · rw [hdcount, h.count z]
    exact Finset.sum_congr rfl fun y _ => by rw [hpending]
  · rcases hl with hl | ha
    · rcases left_of_left hs hs' hl with hl | ⟨rfl, rfl⟩
      · exact Or.inl hl
      · exact Or.inr (Or.inr hans)
    · exact Or.inr (Or.inl (by rwa [hpending]))

/-- A dependency that is not done is listed: it owes a notice from now on. -/
theorem Sched.listOwed {lines : List Str} {callers : List Frame} (h : Sched env s)
    (hinv : Inv s bl rl) (hq : Quiet s s') (hcomp : s.completing = []) (hcomp' : s'.completing = [])
    (hhashtab : s'.hashtab = s.hashtab) (hok : s'.assertion = none)
    (hs : s.stack = .orderedDepends item (some x) lines :: callers)
    (hs' : s'.stack = .orderedDepends item none lines :: callers)
    (hdone : (s.heap x).status ≠ .XDONE) (hidle : (s.heap item).Idle)
    (hdbase : ∀ n, (s'.heap n).dbase =
      if n = x then item :: (s.heap x).dbase else (s.heap n).dbase)
    (hdcount : ∀ n, (s'.heap n).dcount = (s.heap n).dcount + if n = item then 1 else 0) :
    Sched env s' := by
  have hst : ∀ n, (s'.heap n).status = .XDONE ↔ (s.heap n).status = .XDONE :=
    hq.status_iff (by decide) (by decide)
  have hxk : x ∈ s.hashtab :=
    hinv.known.frames _ (hs ▸ List.mem_cons_self) x (by simp [Frame.items])
  have hpx : s'.pending x = item :: s.pending x := by
    simp [State.pending, hst, hdone, hcomp, hcomp', hdbase]
  have hpn : ∀ y, y ≠ x → s'.pending y = s.pending y := fun y hy => by
    simp only [State.pending, hst, hcomp, hcomp', hdbase, if_neg hy]
  refine h.quiet hinv hq hhashtab hok (by rw [State.listing, State.listing, hs, hs']; rfl)
    (fun z => ?_) (fun n hn => ?_) fun n d hl => ?_
  · rw [sum_count_take hxk hpx hpn z, ← h.count z, hdcount]
  · -- a package that is built is not the one that is listed
    have hne : n ≠ item := by
      rintro rfl
      rcases hidle with hidle | hidle <;> simp [Item.Built, hidle] at hn
    rw [hdcount, if_neg hne, h.built n hn]
  · rcases hl with hl | ha
    · rcases left_of_left hs hs' hl with hl | ⟨rfl, rfl⟩
      · exact Or.inl hl
      · exact Or.inr (Or.inl (hpx ▸ List.mem_cons_self))
    · refine Or.inr (Or.inl ?_)
      by_cases he : d = x
      · rw [he] at ha ⊢
        rw [hpx]
        exact List.mem_cons_of_mem _ ha
      · rwa [hpn d he]

theorem Sched.addDepn {lines : List Str} {callers : List Frame} (h : Sched env s)
    (hinv : Inv s bl rl) (hcomp : s.completing = [])
    (hs : s.stack = .orderedDepends item (some x) lines :: callers) :
    Sched env (addDepn { s with stack := .orderedDepends item none lines :: callers } item x) := by
  set t : State := { s with stack := .orderedDepends item none lines :: callers } with ht
  have hqt : Quiet s t := { Quiet.refl s with }
  have hidle : (s.heap item).Idle :=
    (h.listing item (by rw [State.listing, hs]; exact List.mem_cons_self)).1
  set u : State := t.modify x fun i => { i with dbase := item :: i.dbase } with hu
  have hqu : Quiet s u := hqt.trans
    (Quiet.modify rfl (List.subset_cons_self item _) (Or.inl ⟨rfl, rfl⟩))
  have hu' : ∀ n, (u.heap n).status = (s.heap n).status ∧ (u.heap n).xcode = (s.heap n).xcode ∧
      (u.heap n).dcount = (s.heap n).dcount ∧
      (u.heap n).dbase = if n = x then item :: (s.heap x).dbase else (s.heap n).dbase := by
    refine fun n => ⟨State.field_modify Item.status rfl n, State.field_modify Item.xcode rfl n,
      State.field_modify Item.dcount rfl n, ?_⟩
    by_cases he : n = x
    · rw [he, hu, State.heap_modify_self, if_pos rfl]
    · rw [hu, State.heap_modify_ne he, if_neg he]
  have huidle : (u.heap item).status = .XWAITING ∨ (u.heap item).status = .XDEPFAIL :=
    (hqu.idle_iff item).mpr hidle
  -- what is left of the call, once `item` is on the list of those that depend on `x`
  have hadd : Fbulk.addDepn t item x =
      if (u.heap x).status = .XDONE then
        if (u.heap x).xcode ≠ 0 then
          if (u.heap item).status = .XWAITING ∨ (u.heap item).status = .XDEPFAIL then
            { markFailed u item (u.heap x).xcode with nBuilt := u.nBuilt + 1 }
          else u.abort .addDepnStatus
        else u
      else u.modify item fun i => { i with dcount := i.dcount + 1 } := rfl
  rw [hadd]
  by_cases hdone : (u.heap x).status = .XDONE
  · rw [if_pos hdone]
    have hdone' : (s.heap x).status = .XDONE := (hu' x).1 ▸ hdone
    by_cases hcode : (u.heap x).xcode ≠ 0
    · -- the dependency failed, and this package fails with it
      rw [if_pos hcode, if_pos huidle]
      have hqv : Quiet s { markFailed u item (u.heap x).xcode with nBuilt := u.nBuilt + 1 } :=
        { hqu.trans (markFailed_quiet huidle hcode) with }
      have hsame := markFailed_field u item (u.heap x).xcode
      have hfailed : (markFailed u item (u.heap x).xcode).Failed item := by
        rw [State.Failed, markFailed_self]
        exact ⟨hcode, Or.inl rfl⟩
      exact h.listDone hinv hqv hcomp hcomp rfl h.assertion hs rfl hdone'
        (fun n hn => by rw [(hsame n).1, (hu' n).2.2.2, if_neg hn])
        (fun n => by rw [(hsame n).2, (hu' n).2.2.1]) (Or.inr hfailed)
    · rw [if_neg hcode]
      have hgood : u.Good x := ⟨by simpa using hcode, Or.inl hdone⟩
      exact h.listDone hinv hqu hcomp hcomp rfl h.assertion hs rfl hdone'
        (fun n hn => by rw [(hu' n).2.2.2, if_neg hn]) (fun n => (hu' n).2.2.1) (Or.inl hgood)
  · rw [if_neg hdone]
    set v : State := u.modify item fun i => { i with dcount := i.dcount + 1 } with hv
    have hqv : Quiet s v := hqu.trans
      (Quiet.modify rfl (List.Subset.refl _) (Or.inl ⟨rfl, rfl⟩))
    have hv' : ∀ n, (v.heap n).dbase = (u.heap n).dbase ∧
        (v.heap n).dcount = (u.heap n).dcount + if n = item then 1 else 0 := by
      refine fun n => ⟨State.field_modify Item.dbase rfl n, ?_⟩
      by_cases he : n = item
      · rw [he, hv, State.heap_modify_self, if_pos rfl]
      · rw [hv, State.heap_modify_ne he, if_neg he]
        rfl
    exact h.listOwed hinv hqv hcomp hcomp rfl h.assertion hs rfl ((hu' x).1 ▸ hdone) hidle
      (fun n => (hv' n).1.trans (hu' n).2.2.2) (fun n => by rw [(hv' n).2, (hu' n).2.2.1])

theorem Sched.orderedDepends {callers : List Frame} (h : Sched env s) (hinv : Inv s bl rl)
    (hcomp : s.completing = []) (hn : n ∉ s.hashtab)
    (hlisting : callers.filterMap Frame.listing = s.listing)
    (hleft : ∀ m d, s.Left env m d → ∃ f ∈ callers, f.listing = some m ∧ d ∈ f.todo env) :
    Sched env (orderedDepends env s n callers) := by
  set t := Fbulk.orderedDepends env s n callers with ht
  -- the item is new, and all fields of a new item are clear
  have hheap : t.heap = s.heap := by
    funext m
    show (if m = n then {} else s.heap m) = s.heap m
    by_cases hm : m = n
    · rw [if_pos hm, hm, hinv.known.fresh n hn]
    · rw [if_neg hm]
  have hpending : ∀ m, t.pending m = s.pending m := by
    intro m
    rw [State.pending, hheap]
    rfl
  have hlist : t.listing = n :: s.listing := by
    show (Frame.orderedDepends n none (env.showBuildDeps n) :: callers).filterMap _ = _
    rw [← hlisting]
    rfl
  have hnl : n ∉ s.listing := by
    intro hmem
    obtain ⟨f, hf, hfn⟩ := List.mem_filterMap.mp hmem
    cases f with
    | orderedDepends item xitem lines =>
      obtain rfl : item = n := by simpa [Frame.listing] using hfn
      exact hn (hinv.known.frames _ hf item (by simp [Frame.items]))
    | _ => exact absurd hfn (by simp [Frame.listing])
  have hnot : ∀ m, m ∉ visiting s.completing := by simp [hcomp, visiting]
  refine ⟨h.assertion, h.nodup, fun z => ?_, fun m hm => ?_, ?_, fun m hm => ?_,
    fun m hm d hd => ?_, fun m hm d hd => ?_⟩
  · show (t.heap z).dcount = ∑ y ∈ insert n s.hashtab, (t.pending y).count z
    rw [Finset.sum_insert hn, hpending, pending_eq_nil hinv hn, hheap, h.count z]
    simp only [List.count_nil, Nat.zero_add]
    exact Finset.sum_congr rfl fun y _ => by rw [hpending]
  · rw [hheap] at hm ⊢
    exact h.built m hm
  · rw [hlist]
    exact List.nodup_cons.mpr ⟨hnl, h.listingNodup⟩
  · rw [hlist] at hm
    rw [hheap]
    refine ⟨?_, hnot m⟩
    rcases List.mem_cons.mp hm with rfl | hm
    · rw [hinv.known.fresh m hn]
      exact Or.inl rfl
    · exact (h.listing m hm).1
  · rcases Finset.mem_insert.mp hm with rfl | hm
    · -- all of the output is still to be read
      exact Or.inl ⟨_, List.mem_cons_self, rfl, by simpa [Frame.todo, Env.buildDeps] using hd⟩
    · rcases h.deps m hm d hd with hl | ha | ha | ha
      · obtain ⟨f, hf, hfm⟩ := hleft m d hl
        exact Or.inl ⟨f, List.mem_cons_of_mem _ hf, hfm⟩
      · exact Or.inr (Or.inl (by rwa [hpending]))
      · exact Or.inr (Or.inr (Or.inl (by rwa [State.Good, hheap])))
      · exact Or.inr (Or.inr (Or.inr (by rwa [State.Failed, hheap])))
  · rw [hheap]
    exact h.forks m hm d hd

theorem Sched.endDepends (h : Sched env s) (hcomp : s.completing = [])
    (hidle : (s.heap item).Idle) (hil : item ∉ s.listing) : Sched env (endDepends s item) := by
  set t : State := { s with nTotal := s.nTotal + 1 } with ht
  have hsched : Sched env t := { h with }
  have hiv : item ∉ visiting t.completing := by
    show item ∉ visiting s.completing
    simp [hcomp, visiting]
  rw [Fbulk.endDepends]
  by_cases hzero : (t.heap item).dcount = 0
  · rw [if_pos hzero]
    rcases hidle with hw | hf
    · have hw : (t.heap item).status = .XWAITING := hw
      rw [hw]
      exact hsched.addBuild hw hzero hiv hil
    · have hf : (t.heap item).status = .XDEPFAIL := hf
      rw [hf]
      exact hsched.enter (Or.inr hf) hiv hil
  · rw [if_neg hzero]
    exact hsched

/-- The frames that list nothing can be replaced. -/
theorem Sched.replace {f : Frame} {callers : List Frame} (h : Sched env s) (top : List Frame)
    (hs : s.stack = f :: callers) (hf : ∀ n d, f.listing = some n → d ∉ f.todo env)
    (htop : top.filterMap Frame.listing = []) :
    Sched env { s with stack := top ++ callers } := by
  refine h.setStack ?_ fun n d hl => ?_
  · rw [List.filterMap_append, htop, List.nil_append, State.listing, hs]
    exact (List.sublist_cons_self f callers).filterMap _
  · rw [left_cons hs] at hl
    rcases hl with ⟨hn, hd⟩ | ⟨g, hg, hl⟩
    · exact absurd hd (hf n d hn)
    · exact ⟨g, List.mem_append_right top hg, hl⟩

theorem Sched.waitStep {flags : WaitFlags} {here : Frame} {callers : List Frame}
    {waitpid : Option (Nat × UInt8)} (h : Sched env s) (hs : s.stack = here :: callers)
    (hf : here.listing = none) : Sched env (waitStep s flags here callers waitpid) := by
  have hleft : ∀ n d, here.listing = some n → d ∉ here.todo env := fun n d hn => by
    rw [hf] at hn
    exact absurd hn (by simp)
  unfold Fbulk.waitStep
  split
  · exact h.replace [] hs hleft rfl
  · split
    · exact h.replace [.waitRunning _ _ _ _] hs hleft rfl
    · exact h.replace [] hs hleft rfl
    · exact h.replace [here] hs hleft (by simp [hf])

section Call

variable {o : Answers} {callers : List Frame} {f : Frame}

theorem Sched.callPackages {names : List Str} (h : Sched env s) (hinv : Inv s bl rl)
    (hcomp : s.completing = []) (hs : s.stack = .packages names :: callers) :
    Sched env (callStep env s o callers (.packages names)) := by
  have hleft : ∀ n d, (Frame.packages names).listing = some n →
      d ∉ (Frame.packages names).todo env := fun n d hn => absurd hn (by simp [Frame.listing])
  cases names with
  | nil => exact h.replace [.startBuilds, .waitBuilds] hs hleft rfl
  | cons n names =>
    simp only [Fbulk.callStep]
    by_cases hn : n ∈ s.hashtab
    · rw [if_pos hn]
      exact h.replace [.packages names] hs hleft rfl
    · rw [if_neg hn]
      refine h.orderedDepends hinv hcomp hn ?_ fun m d hl => ?_
      · rw [State.listing, hs]
        rfl
      · rw [left_cons hs] at hl
        rcases hl with ⟨hm, -⟩ | ⟨g, hg, hl⟩
        · exact absurd hm (by simp [Frame.listing])
        · exact ⟨g, List.mem_cons_of_mem _ hg, hl⟩

/-- What a line of the output leaves to be done is passed on, if there is anything. -/
theorem left_of_line {item buf : Str} {lines : List Str} {xitem : Option Str}
    (hs : s.stack = .orderedDepends item none (buf :: lines) :: callers)
    (hx : env.dependency buf = xitem) (n d : Str) (hl : s.Left env n d) :
    ∃ g ∈ Frame.orderedDepends item xitem lines :: callers,
      g.listing = some n ∧ d ∈ g.todo env := by
  rw [left_cons hs] at hl
  rcases hl with ⟨hn, hd⟩ | ⟨g, hg, hl⟩
  · refine ⟨_, List.mem_cons_self, hn, ?_⟩
    have hd : ∃ b, (b = buf ∨ b ∈ lines) ∧ env.dependency b = some d := by
      simpa [Frame.todo] using hd
    obtain ⟨b, rfl | hb, hbd⟩ := hd
    · rw [← hx, hbd]
      simp [Frame.todo]
    · exact List.mem_append_right _ (List.mem_filterMap.mpr ⟨b, hb, hbd⟩)
  · exact ⟨g, List.mem_cons_of_mem _ hg, hl⟩

theorem Sched.callOrderedDepends {item : Str} {xitem : Option Str} {lines : List Str}
    (h : Sched env s) (hinv : Inv s bl rl) (hcomp : s.completing = [])
    (hs : s.stack = .orderedDepends item xitem lines :: callers) :
    Sched env (callStep env s o callers (.orderedDepends item xitem lines)) := by
  cases xitem with
  | some x => exact h.addDepn hinv hcomp hs
  | none =>
    have hlisted : s.listing = item :: callers.filterMap Frame.listing := by
      rw [State.listing, hs]
      rfl
    cases lines with
    | nil =>
      have hsched : Sched env { s with stack := [.startBuilds] ++ callers } :=
        h.replace [.startBuilds] hs (fun n d _ => by simp [Frame.todo]) rfl
      refine hsched.endDepends hcomp (h.listing item (hlisted ▸ List.mem_cons_self)).1 ?_
      exact (List.nodup_cons.mp (hlisted ▸ h.listingNodup)).1
    | cons buf lines =>
      simp only [Fbulk.callStep]
      cases hx : env.dependency buf with
      | none => exact h.setStack (hlisted ▸ List.Sublist.refl _) (left_of_line hs hx)
      | some x =>
        by_cases hxk : x ∈ s.hashtab
        · simp only [if_pos hxk]
          exact h.setStack (hlisted ▸ List.Sublist.refl _) (left_of_line hs hx)
        · simp only [if_neg hxk]
          exact h.orderedDepends hinv hcomp hxk hlisted.symm (left_of_line hs hx)

theorem Sched.callStartBuilds (h : Sched env s) (hinv : Inv s bl rl) (hcomp : s.completing = [])
    (hs : s.stack = .startBuilds :: callers) :
    Sched env (callStep env s o callers .startBuilds) := by
  have hleft : ∀ n d, Frame.startBuilds.listing = some n → d ∉ Frame.startBuilds.todo env :=
    fun n d hn => absurd hn (by simp [Frame.listing])
  have hreap := h.replace [.reapBuilds] hs hleft rfl
  rw [Fbulk.callStep]
  split
  next item hhead =>
    split
    · obtain ⟨bl', rfl⟩ : ∃ bl', bl = item :: bl' :=
        List.head?_eq_some_iff.mp (hinv.listed.build.head_eq.symm.trans hhead)
      have hinv' := hinv.replace [.startBuilds] hs (by simp [Frame.IsWait])
        (by simp [Frame.items])
      exact (h.replace [.startBuilds] hs hleft rfl).forkBuild hinv' hcomp o.fork
    · exact hreap
  next => exact hreap

theorem Sched.callWaitRunning {flags : WaitFlags} {itemp : Link Str} {pid : Nat} {status : UInt8}
    (h : Sched env s) (hinv : Inv s bl rl) (hcomp : s.completing = [])
    (hs : s.stack = .waitRunning flags itemp pid status :: callers) :
    Sched env (callStep env s o callers (.waitRunning flags itemp pid status)) := by
  have hleft : ∀ n d, (Frame.waitRunning flags itemp pid status).listing = some n →
      d ∉ (Frame.waitRunning flags itemp pid status).todo env :=
    fun n d hn => absurd hn (by simp [Frame.listing])
  obtain ⟨pre, post, rfl, rfl⟩ := hinv.cursor.passed flags itemp pid status callers hs
  have hread := hinv.listed.run.read_lastLink
  simp only [Fbulk.callStep]
  cases post with
  | nil =>
    rw [hread]
    exact h.replace [] hs hleft rfl
  | cons item post =>
    rw [hread]
    simp only [List.head?_cons]
    -- the walk stops at the item of the process, or goes on
    by_cases hpid : (s.heap item).pid = pid
    · rw [if_pos hpid]
      have hmem : item ∈ pre ++ item :: post := by simp
      cases flags with
      | WNOHANG =>
        have hinv' := hinv.replace [.reapBuilds] hs (by simp [Frame.IsWait])
          (by simp [Frame.items])
        exact (h.replace [.reapBuilds] hs hleft rfl).unlinkRun hinv' hcomp hmem status
      | block =>
        have hinv' := hinv.replace [.startBuilds, .waitBuilds] hs
          (by simp [Frame.IsWait]) (by simp [Frame.items])
        exact (h.replace [.startBuilds, .waitBuilds] hs hleft rfl).unlinkRun hinv' hcomp
          hmem status
    · rw [if_neg hpid]
      exact h.replace [.waitRunning _ _ _ _] hs hleft rfl

theorem Sched.callStep (h : Sched env s) (hinv : Inv s bl rl) (hcomp : s.completing = [])
    (hs : s.stack = f :: callers) : Sched env (callStep env s o callers f) := by
  cases f with
  | packages names => exact h.callPackages hinv hcomp hs
  | orderedDepends item xitem lines => exact h.callOrderedDepends hinv hcomp hs
  | startBuilds => exact h.callStartBuilds hinv hcomp hs
  | reapBuilds => exact h.waitStep hs rfl
  | waitBuilds => exact h.waitStep hs rfl
  | waitRunning flags itemp pid status => exact h.callWaitRunning hinv hcomp hs

end Call

/-- **An undisturbed step keeps the counts right**; no assertion fails. -/
theorem Sched.step {o : Answers} (h : Sched env s) (hinv : Inv s bl rl) (hund : s.Undisturbed)
    (hstep : step env s o = some s') : Sched env s' := by
  obtain ⟨-, ⟨item, depns, callers, hcomp, rfl⟩ | ⟨hcomp, f, callers, hs, rfl⟩⟩ := step_cases hstep
  · cases depns with
    | nil => exact h.finish hinv hcomp
    | cons x depns =>
      have heq : completionStep s item (x :: depns) callers =
          if (s.heap x).dcount = 0 then s.abort .completionCount
          else Fbulk.notify { s with completing := (item, depns) :: callers } item x := rfl
      have hworking := hinv.completing.working item (by rw [hcomp]; exact List.mem_cons_self)
      have hknown : item ∈ s.hashtab :=
        hinv.mem_hashtab (by rw [hcomp]; exact List.mem_cons_self)
      have hpending : x ∈ s.pending item := by
        have hnot : (s.heap item).status ≠ .XDONE := by
          intro he
          simp [he] at hworking
        simp [State.pending, hnot, hcomp]
      have hpos : 0 < (s.heap x).dcount := h.dcount_pos hknown hpending
      rw [heq, if_neg (by omega)]
      exact h.notify hinv hcomp hund hpos
  · exact h.callStep hinv hcomp hs

theorem Sched.respected (h : Sched env s) (hinv : Inv s bl rl) : s.Respected env where
  assertion := h.assertion
  waiting bl' hbl n hn d hd := by
    rw [hbl.unique hinv.listed.build] at hn
    exact h.good_of_build hinv ((hinv.byStatus.build n).mp hn) hd
  built := h.forks

theorem sched_start (env : Env) (names : List Str) : Sched env (start names) where
  assertion := rfl
  nodup := List.nodup_nil
  count _ := rfl
  built _ _ := rfl
  listingNodup := List.nodup_nil
  listing := by simp [State.listing, start, Frame.listing]
  deps := by simp [start]
  forks := by simp [start]

/-- **When the bulk builder respects dependencies.**  In every run in which no completion
reaches a package that is still being enumerated, or is itself being completed, a package
is on the BuildList only when its dependencies have been built, a package with a failed
dependency is never built, and no assertion fails. -/
theorem run_respected {names : List Str} {os : List Answers}
    (hrun : Run.run (step env) (start names) os = some s)
    (hund : Run.Along (step env) (fun s _ => s.Undisturbed) (start names) os) :
    s.Respected env := by
  have hkeep : ∀ s o s', (Sched env s ∧ ∃ bl rl, Inv s bl rl) → s.Undisturbed →
      step env s o = some s' → Sched env s' ∧ ∃ bl rl, Inv s' bl rl := by
    rintro s o s' ⟨h, bl, rl, hinv⟩ hund hstep
    have h' := h.step hinv hund hstep
    exact ⟨h', hinv.step hstep h'.assertion⟩
  obtain ⟨h, bl, rl, hinv⟩ := Run.run_invariant hkeep
    ⟨sched_start env names, [], [], inv_start names⟩ hund hrun
  exact h.respected hinv

/-- `a` is enumerated before its dependencies have been built. -/
theorem run_respected_abc :
    ∃ s, Run.run (step (bulkEnv [['b', '\n'], ['c', '\n']] 1)) (start [['a']])
        (List.replicate 18 ⟨some 7, none⟩ ++ List.replicate 4 ⟨none, some (7, 0)⟩ ++
          List.replicate 3 ⟨some 8, none⟩ ++ List.replicate 4 ⟨none, some (8, 0)⟩ ++
          List.replicate 2 ⟨some 9, none⟩ ++ List.replicate 4 ⟨none, some (9, 0)⟩) = some s ∧
      s.forks = [['a'], ['c'], ['b']] ∧ s.finished = [['a'], ['c'], ['b']] ∧
      s.Respected (bulkEnv [['b', '\n'], ['c', '\n']] 1) := by
  have hrun : (Run.run (step (bulkEnv [['b', '\n'], ['c', '\n']] 1)) (start [['a']])
      (List.replicate 18 ⟨some 7, none⟩ ++ List.replicate 4 ⟨none, some (7, 0)⟩ ++
        List.replicate 3 ⟨some 8, none⟩ ++ List.replicate 4 ⟨none, some (8, 0)⟩ ++
        List.replicate 2 ⟨some 9, none⟩ ++ List.replicate 4 ⟨none, some (9, 0)⟩)).map
        (fun s => (s.forks, s.finished)) =
      some ([['a'], ['c'], ['b']], [['a'], ['c'], ['b']]) := by decide +kernel
  obtain ⟨s, hs, hfields⟩ := Option.map_eq_some_iff.mp hrun
  obtain ⟨hforks, hfinished⟩ := Prod.mk.injEq .. ▸ hfields
  exact ⟨s, hs, hforks, hfinished, run_respected hs (by decide +kernel)⟩

/-- With one job, `b` ends while `c` waits on the BuildList: `a` is put there after `c`.
With two, `b` and `c` end within the call for `c`, and `ordered_depends` finds `a` on the
BuildList already. -/
theorem run_not_respected :
    (∃ s, Run.run (step (bulkEnv [['b', '\n'], ['c', '\n']] 1)) (start [['a']])
        (List.replicate 10 ⟨some 7, none⟩ ++ List.replicate 4 ⟨none, some (7, 0)⟩) = some s ∧
      Linked s.builds [['c'], ['a']] ∧
      ['c'] ∈ (bulkEnv [['b', '\n'], ['c', '\n']] 1).buildDeps ['a'] ∧
      (s.heap ['c']).status = .XBUILD ∧
      ¬ s.Respected (bulkEnv [['b', '\n'], ['c', '\n']] 1)) ∧
    ∃ s, Run.run (step (bulkEnv [['b', '\n'], ['c', '\n']] 2)) (start [['a']])
        (List.replicate 9 ⟨some 7, none⟩ ++ List.replicate 5 ⟨some 8, some (8, 0)⟩ ++
          List.replicate 4 ⟨none, some (7, 0)⟩ ++ List.replicate 3 ⟨none, none⟩) = some s ∧
      s.assertion = some .orderedDependsStatus := by
  constructor
  · have hrun : (Run.run (step (bulkEnv [['b', '\n'], ['c', '\n']] 1)) (start [['a']])
        (List.replicate 10 ⟨some 7, none⟩ ++ List.replicate 4 ⟨none, some (7, 0)⟩)).map
          (fun s => (s.buildList, (s.heap ['c']).bnext, (s.heap ['a']).bnext,
            (s.heap ['c']).status, s.completing.length)) =
        some (some ['c'], some ['a'], none, .XBUILD, 0) := by decide +kernel
    obtain ⟨s, hs, hfields⟩ := Option.map_eq_some_iff.mp hrun
    simp only [Prod.mk.injEq] at hfields
    obtain ⟨hhead, hc, ha, hst, hcomp⟩ := hfields
    have hlist : Linked s.builds [['c'], ['a']] := ⟨hhead, hc, ha⟩
    have hdep : ['c'] ∈ (bulkEnv [['b', '\n'], ['c', '\n']] 1).buildDeps ['a'] := by
      decide +kernel
    refine ⟨s, hs, hlist, hdep, hst, fun h => ?_⟩
    have hdone := (h.waiting _ hlist ['a'] (by simp) ['c'] hdep).2
    rw [hst, List.length_eq_zero_iff.mp hcomp] at hdone
    exact absurd hdone (by simp [visiting])
  · have hrun : (Run.run (step (bulkEnv [['b', '\n'], ['c', '\n']] 2)) (start [['a']])
        (List.replicate 9 ⟨some 7, none⟩ ++ List.replicate 5 ⟨some 8, some (8, 0)⟩ ++
          List.replicate 4 ⟨none, some (7, 0)⟩ ++ List.replicate 3 ⟨none, none⟩)).map (·.assertion) =
        some (some .orderedDependsStatus) := by decide +kernel
    obtain ⟨s, hs, hassert⟩ := Option.map_eq_some_iff.mp hrun
    exact ⟨s, hs, hassert⟩

end Flappy.Fbulk
