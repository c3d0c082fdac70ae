/-
Parallel iteration (`flappy_array_foreach_cb_multi` of `lib/plist.c`).

The array is cut into slices.  Every thread has one of them at the start, and takes the
next one from a counter when it is done.  The counter starts behind the slices of all
threads that were wanted, whether they could be created or not.

* `step` — one thread calls the callback once, or takes a slice;
* `Inv` — every element was passed to the callback, or is in the slice of one thread, or is
  behind the counter, or was given to a thread that does not exist;
* `foreachCbMulti_iterates_iff` — in every run every element is passed to the callback once
  and no error is lost, if and only if nothing was given to a thread that does not exist.
-/
import Flappy.Lib.Run
import Mathlib.Data.List.Nodup
import Mathlib.Algebra.BigOperators.Group.List.Basic
import Mathlib.Algebra.GroupWithZero.Nat

open Run

namespace Flappy.Foreach

variable {α σ : Type}

/-! ### The functions -/

/-- A callback: it gets the data behind its argument and an object, and gives its result,
whether it sets `*loop_done`, and the data afterwards. -/
abbrev Callback (α σ : Type) := σ → α → Int × Bool × σ

/-- The result of an iteration, the calls of the callback with their results, by index, and the
data behind the argument. -/
structure Iteration (σ : Type) where
  r : Int
  calls : List (Nat × Int)
  arg : σ
deriving DecidableEq

/-- The loop of `flappy_array_foreach_cb`, from index `i` on; `internal` says which keys of the
dictionary are passed over. -/
def foreachCbFrom (internal : α → Bool) (fn : Callback α σ) (i : Nat) (arg : σ) :
    List α → Iteration σ
  | [] => ⟨0, [], arg⟩
  | obj :: objs =>
    if internal obj then foreachCbFrom internal fn (i + 1) arg objs
    else
      let (r, loopDone, arg) := fn arg obj
      if r ≠ 0 ∨ loopDone then ⟨r, [(i, r)], arg⟩
      else
        let rest := foreachCbFrom internal fn (i + 1) arg objs
        { rest with calls := (i, r) :: rest.calls }

/-- `flappy_array_foreach_cb`. -/
def foreachCb (internal : α → Bool) (fn : Callback α σ) (array : List α) (arg : σ) :
    Iteration σ :=
  foreachCbFrom internal fn 0 arg array

/-- `struct thread_data`, as far as a thread changes it, and whether it has returned. -/
structure Thread where
  i : Nat
  stop : Nat
  r : Int := 0
  running : Bool := true

/-- What the threads share. -/
structure State (σ : Type) where
  threads : List Thread
  reserved : Nat
  arg : σ
  calls : List (Nat × Int) := []

/-- One turn of a loop of `array_foreach_thread` in thread `t`: a call of the callback, or,
behind the end of the slice, the reservation of the next one.  Numbers have 32 bits. -/
def step (array : List α) (internal : α → Bool) (fn : Callback α σ) (slicecount : Nat)
    (s : State σ) (t : Nat) : Option (State σ) :=
  match s.threads[t]? with
  | none => none
  | some th =>
    if th.running = false then none
    else
      match if th.i < th.stop then array[th.i]? else none with
      | some obj =>
        if internal obj then
          some { s with threads := s.threads.set t { th with i := th.i + 1 } }
        else
          let (r, loopDone, arg) := fn s.arg obj
          let th' := if r ≠ 0 ∨ loopDone then { th with r, running := false }
            else { th with i := th.i + 1 }
          some { s with threads := s.threads.set t th', arg, calls := s.calls ++ [(th.i, r)] }
      | none =>
        let stop := (s.reserved + slicecount) % 2 ^ 32
        let th := { th with i := s.reserved, stop, running := s.reserved < array.length }
        some { s with threads := s.threads.set t th, reserved := stop }

/-- The number of threads that are wanted for `count` elements. -/
def maxthreads (count : Nat) (nprocs : Int) : Nat :=
  if (count : Int) ≤ nprocs then count else nprocs.toNat

/-- How many elements a thread takes at once. -/
def slicecount (count : Nat) (nprocs : Int) : Nat :=
  if (count : Int) ≤ nprocs then 1 else min (count / nprocs.toNat) 32

/-- The number of threads that are created: the first failure ends the loop. -/
def created (count : Nat) (nprocs : Int) (create : Nat → Bool) : Nat :=
  ((List.range (maxthreads count nprocs)).takeWhile create).length

/-- The threads at their start. -/
def State.initial (slicecount maxthreads created : Nat) (arg : σ) : State σ where
  threads := (List.range created).map fun t =>
    { i := t * slicecount, stop := t * slicecount + slicecount }
  reserved := slicecount * maxthreads
  arg

def eagain : Int := 11

/-- What is left when all threads have returned; `join` says which of them can be waited for. -/
def State.result (s : State σ) (join : Nat → Bool) : Int :=
  if (List.range s.threads.length).all join = false then -eagain
  else ((s.threads.map Thread.r).find? fun r => r ≠ 0).getD 0

/-- The single-threaded routine is used. -/
def Single (count : Nat) (nprocs : Int) (create : Nat → Bool) : Prop :=
  nprocs ≤ 1 ∨ count ≤ 1 ∨ created count nprocs create = 0

instance decidableSingle (count : Nat) (nprocs : Int) (create : Nat → Bool) :
    Decidable (Single count nprocs create) :=
  inferInstanceAs (Decidable (_ ∨ _))

/-- `flappy_array_foreach_cb_multi`: `nprocs` is the number of processors, `create` and `join`
say which threads can be created and waited for, and `schedule` which thread takes the next
turn, until all have returned. -/
def foreachCbMulti (internal : α → Bool) (fn : Callback α σ) (array : List α) (arg : σ)
    (nprocs : Int) (create join : Nat → Bool) (schedule : List Nat) : Option (Iteration σ) :=
  if array.length = 0 then some ⟨0, [], arg⟩
  else if Single array.length nprocs create then some (foreachCb internal fn array arg)
  else
    let slices := slicecount array.length nprocs
    match run (step array internal fn slices)
        (.initial slices (maxthreads array.length nprocs) (created array.length nprocs create)
          arg) schedule with
    | none => none
    | some s =>
      if s.threads.any Thread.running then none else some ⟨s.result join, s.calls, s.arg⟩

/-! ### What a step does -/

section
variable {array : List α} {internal : α → Bool} {fn : Callback α σ} {slices : Nat}
  {s s' : State σ} {t : Nat}

/-- The three turns of a thread: an internal object, a call, a reservation. -/
theorem step_cases (h : step array internal fn slices s t = some s') :
    ∃ th, s.threads[t]? = some th ∧ th.running = true ∧
    ((∃ obj, th.i < th.stop ∧ array[th.i]? = some obj ∧ internal obj = true ∧
        s' = { s with threads := s.threads.set t { th with i := th.i + 1 } }) ∨
     (∃ obj r loopDone arg, th.i < th.stop ∧ array[th.i]? = some obj ∧ internal obj = false ∧
        fn s.arg obj = (r, loopDone, arg) ∧
        s' = { s with
          threads := s.threads.set t (if r ≠ 0 ∨ loopDone then { th with r, running := false }
            else { th with i := th.i + 1 })
          arg, calls := s.calls ++ [(th.i, r)] }) ∨
     (¬ (th.i < th.stop ∧ th.i < array.length) ∧
        s' = { s with
          threads := s.threads.set t { th with
            i := s.reserved, stop := (s.reserved + slices) % 2 ^ 32
            running := s.reserved < array.length }
          reserved := (s.reserved + slices) % 2 ^ 32 })) := by
  rw [step] at h
  cases ht : s.threads[t]? with
  | none =>
    rw [ht] at h
    cases h
  | some th =>
    simp only [ht] at h
    by_cases hr : th.running = false
    · rw [if_pos hr] at h
      cases h
    rw [if_neg hr] at h
    refine ⟨th, rfl, by simpa using hr, ?_⟩
    -- the loop condition: an element of the slice that is in the array
    cases ho : (if th.i < th.stop then array[th.i]? else none) with
    | none =>
      rw [ho] at h
      cases h
      refine Or.inr (Or.inr ⟨?_, rfl⟩)
      rintro ⟨hstop, hlen⟩
      rw [if_pos hstop, List.getElem?_eq_getElem hlen] at ho
      cases ho
    | some obj =>
      simp only [ho] at h
      have hstop : th.i < th.stop := by
        by_contra hn
        rw [if_neg hn] at ho
        cases ho
      rw [if_pos hstop] at ho
      by_cases hi : internal obj = true
      · rw [if_pos hi] at h
        cases h
        exact Or.inl ⟨obj, hstop, ho, hi, rfl⟩
      · rw [if_neg hi] at h
        rcases hf : fn s.arg obj with ⟨r, loopDone, arg⟩
        rw [hf] at h
        cases h
        exact Or.inr (Or.inl ⟨obj, r, loopDone, arg, hstop, ho, by simpa using hi, hf, rfl⟩)

/-- A thread whose call has failed keeps the result. -/
def ErrorKept (s : State σ) : Prop :=
  ∀ c ∈ s.calls, c.2 ≠ 0 → ∃ (t : Nat) (th : Thread),
    s.threads[t]? = some th ∧ th.running = false ∧ th.r = c.2

theorem getElem?_set_of_ne {l : List Thread} {t t' : Nat} {th : Thread} (h : t ≠ t') :
    (l.set t th)[t']? = l[t']? := List.getElem?_set_ne h

theorem errorKept_step (hs : ErrorKept s) (h : step array internal fn slices s t = some s') :
    ErrorKept s' := by
  obtain ⟨th, ht, hrun, hcases⟩ := step_cases h
  have hlt : t < s.threads.length := (List.getElem?_eq_some_iff.mp ht).1
  -- a thread that has returned takes no turn
  have hkeep : ∀ {th' : Thread} {r : Int},
      (∃ (u : Nat) (uth : Thread), s.threads[u]? = some uth ∧ uth.running = false ∧ uth.r = r) →
      ∃ (u : Nat) (uth : Thread),
        (s.threads.set t th')[u]? = some uth ∧ uth.running = false ∧ uth.r = r := by
    rintro th' r ⟨u, uth, hu, hstop, hr⟩
    have hne : t ≠ u := by
      rintro rfl
      rw [ht] at hu
      cases hu
      rw [hrun] at hstop
      cases hstop
    exact ⟨u, uth, (getElem?_set_of_ne hne).trans hu, hstop, hr⟩
  obtain ⟨obj, -, -, -, rfl⟩ | ⟨obj, r, loopDone, arg, -, -, -, -, rfl⟩ | ⟨-, rfl⟩ := hcases
  · exact fun c hc hne => hkeep (hs c hc hne)
  · intro c hc hne
    rcases List.mem_append.mp hc with hc | hc
    · exact hkeep (hs c hc hne)
    · rw [List.mem_singleton.mp hc] at hne ⊢
      refine ⟨t, { th with r, running := false }, ?_, rfl, rfl⟩
      rw [if_pos (Or.inl hne)]
      exact List.getElem?_set_self hlt
  · exact fun c hc hne => hkeep (hs c hc hne)

/-- Element `j` is in what is left of the slice of a thread. -/
def Thread.holds (j : Nat) (th : Thread) : Bool := th.running && th.i ≤ j && j < th.stop

/-- Element `j` is behind the counter. -/
def State.free (s : State σ) (j : Nat) : Nat := if s.reserved ≤ j then 1 else 0

/-- How often element `j` was passed to the callback, or will be. -/
def State.share (s : State σ) (j : Nat) : Nat :=
  (s.calls.map Prod.fst).count j + s.threads.countP (Thread.holds j) + s.free j

/-- The numbers of the threads stay below `2 ^ 32`. -/
def Fits (count slices created : Nat) : Prop := count + slices * (created + 1) < 2 ^ 32

/-- The counter is not too far behind the array, and every thread that still runs can take one
more slice. -/
structure Bounded (count slices created : Nat) (s : State σ) : Prop where
  length : s.threads.length = created
  bound : s.reserved + slices * s.threads.countP Thread.running ≤ count + slices * (created + 1)

theorem countP_running_pos {th : Thread} (ht : s.threads[t]? = some th)
    (hrun : th.running = true) : 1 ≤ s.threads.countP Thread.running :=
  List.countP_pos_iff.mpr ⟨th, List.mem_of_getElem? ht, hrun⟩

theorem countP_set_add (p : Thread → Bool) {l : List Thread} {th : Thread}
    (ht : l[t]? = some th) (th' : Thread) :
    (l.set t th').countP p + (if p th then 1 else 0) = l.countP p + (if p th' then 1 else 0) := by
  obtain ⟨hlt, rfl⟩ := List.getElem?_eq_some_iff.mp ht
  rw [List.countP_set hlt]
  have hle : (if p l[t] = true then 1 else 0) ≤ l.countP p := by
    by_cases hp : p l[t] = true
    · rw [if_pos hp]
      exact List.countP_pos_iff.mpr ⟨l[t], List.getElem_mem hlt, hp⟩
    · rw [if_neg hp]
      exact Nat.zero_le _
  omega

variable {count made : Nat}

/-- A slice that is reserved ends below `2 ^ 32`. -/
theorem Bounded.reserved_lt (hs : Bounded count slices made s) (hfits : Fits count slices made)
    {th : Thread} (ht : s.threads[t]? = some th) (hrun : th.running = true) :
    s.reserved + slices < 2 ^ 32 := by
  have h1 : slices * 1 ≤ slices * s.threads.countP Thread.running :=
    Nat.mul_le_mul_left slices (countP_running_pos ht hrun)
  have h2 := hs.bound
  rw [Fits] at hfits
  omega

theorem Bounded.step (hs : Bounded array.length slices made s)
    (hfits : Fits array.length slices made)
    (h : step array internal fn slices s t = some s') : Bounded array.length slices made s' := by
  obtain ⟨th, ht, hrun, hcases⟩ := step_cases h
  have hle := hs.bound
  -- no turn makes a thread run that did not
  have hcount : ∀ th' : Thread, slices * (s.threads.set t th').countP Thread.running ≤
      slices * s.threads.countP Thread.running := by
    intro th'
    have := countP_set_add Thread.running ht th'
    rw [if_pos hrun] at this
    refine Nat.mul_le_mul_left slices ?_
    split at this <;> omega
  obtain ⟨obj, -, -, -, rfl⟩ | ⟨obj, r, loopDone, arg, -, -, -, -, rfl⟩ | ⟨-, rfl⟩ := hcases
  · exact ⟨by simpa using hs.length, Nat.le_trans (Nat.add_le_add_left (hcount _) _) hle⟩
  · exact ⟨by simpa using hs.length, Nat.le_trans (Nat.add_le_add_left (hcount _) _) hle⟩
  · have hlt := hs.reserved_lt hfits ht hrun
    refine ⟨by simpa using hs.length, ?_⟩
    simp only [Nat.mod_eq_of_lt hlt]
    by_cases hend : s.reserved < array.length
    · -- the thread goes on in the array
      have hmade : slices * s.threads.countP Thread.running ≤ slices * made :=
        Nat.mul_le_mul_left slices (hs.length ▸ List.countP_le_length)
      have := hcount { th with i := s.reserved, stop := s.reserved + slices
                               running := s.reserved < array.length }
      rw [Nat.mul_add, Nat.mul_one]
      omega
    · have hdec := countP_set_add Thread.running ht { th with
        i := s.reserved, stop := s.reserved + slices
        running := s.reserved < array.length }
      simp only [hrun, hend, if_true, decide_false, Bool.false_eq_true, if_false,
        Nat.add_zero] at hdec ⊢
      rw [← hdec, Nat.mul_add, Nat.mul_one] at hle
      omega

/-- The callback never sets `*loop_done`. -/
def Quiet (fn : Callback α σ) : Prop := ∀ arg obj, (fn arg obj).2.1 = false

/-- All calls have returned 0. -/
def AllZero (calls : List (Nat × Int)) : Prop := ∀ c ∈ calls, c.2 = 0

/-- The callback is called for elements of the array that are not internal. -/
def CallsOf (array : List α) (internal : α → Bool) (calls : List (Nat × Int)) : Prop :=
  ∀ c ∈ calls, ∃ obj, array[c.1]? = some obj ∧ internal obj = false

/-- Every element is in one place, unless it was given to a thread that does not exist. -/
structure Inv (array : List α) (internal : α → Bool) (slices wanted made : Nat) (s : State σ) :
    Prop where
  share : ∀ j obj, array[j]? = some obj → internal obj = false →
    s.share j = if made * slices ≤ j ∧ j < wanted * slices then 0 else 1
  behind : ∀ th ∈ s.threads, th.running = false → array.length ≤ s.reserved

theorem callsOf_step (hs : CallsOf array internal s.calls)
    (h : step array internal fn slices s t = some s') : CallsOf array internal s'.calls := by
  obtain ⟨th, -, -, hcases⟩ := step_cases h
  obtain ⟨obj, -, -, -, rfl⟩ | ⟨obj, r, loopDone, arg, -, ho, hi, -, rfl⟩ | ⟨-, rfl⟩ := hcases
  · exact hs
  · intro c hc
    rcases List.mem_append.mp hc with hc | hc
    · exact hs c hc
    · rw [List.mem_singleton.mp hc]
      exact ⟨obj, ho, hi⟩
  · exact hs

theorem Thread.holds_iff {th : Thread} {j : Nat} :
    th.holds j = true ↔ th.running = true ∧ th.i ≤ j ∧ j < th.stop := by
  simp [Thread.holds, and_assoc]

/-- A thread that goes on to its next element is left with all the others. -/
theorem Thread.holds_next {th : Thread} {j : Nat} (hne : th.i ≠ j) :
    Thread.holds j { th with i := th.i + 1 } = Thread.holds j th := by
  rw [Bool.eq_iff_iff, holds_iff, holds_iff]
  refine and_congr_right fun _ => ?_
  show th.i + 1 ≤ j ∧ j < th.stop ↔ th.i ≤ j ∧ j < th.stop
  omega

/-- A turn moves an element from one place to another. -/
theorem share_step (hb : Bounded array.length slices made s) (hfits : Fits array.length slices made)
    (hquiet : Quiet fn) (h : step array internal fn slices s t = some s')
    (hzero : AllZero s'.calls) {j : Nat} {obj : α} (ho : array[j]? = some obj)
    (hi : internal obj = false) : s'.share j = s.share j := by
  obtain ⟨th, ht, hrun, hcases⟩ := step_cases h
  have hset := countP_set_add (Thread.holds j) ht
  have hlt : j < array.length := (List.getElem?_eq_some_iff.mp ho).1
  have hth : Thread.holds j th = true ↔ th.i ≤ j ∧ j < th.stop := by
    rw [Thread.holds_iff, hrun]
    exact and_iff_right rfl
  obtain ⟨obj', hstop, ho', hi', rfl⟩ | ⟨obj', r, loopDone, arg, hstop, ho', -, hf, rfl⟩ |
    ⟨hend, rfl⟩ := hcases
  · -- the element that is passed over is another one
    have hne : th.i ≠ j := by
      rintro rfl
      rw [ho'] at ho
      cases ho
      rw [hi'] at hi
      cases hi
    have := hset { th with i := th.i + 1 }
    rw [Thread.holds_next hne] at this
    simp only [State.share, State.free]
    omega
  · -- the element that is called for goes from the thread to the calls
    have hr : r = 0 := hzero (th.i, r) (List.mem_append_right _ List.mem_cons_self)
    have hdone : loopDone = false := by
      have := hquiet s.arg obj'
      rw [hf] at this
      exact this
    have hgo : ¬ (r ≠ 0 ∨ loopDone = true) := by simp [hr, hdone]
    have := hset { th with i := th.i + 1 }
    simp only [State.share, State.free, if_neg hgo, List.map_append, List.count_append,
      List.map_cons, List.map_nil, List.count_singleton, beq_iff_eq]
    by_cases hj : th.i = j
    · have hpast : ¬ Thread.holds j { th with i := th.i + 1 } = true := by
        rw [Thread.holds_iff]
        rintro ⟨-, hle, -⟩
        exact absurd (show th.i + 1 ≤ j from hle) (by omega)
      rw [if_pos (hth.mpr ⟨by omega, by omega⟩), if_neg hpast] at this
      rw [if_pos hj]
      omega
    · rw [Thread.holds_next hj] at this
      rw [if_neg hj]
      omega
  · -- the slice goes from what is free to the thread
    have hfit := hb.reserved_lt hfits ht hrun
    have hnot : ¬ Thread.holds j th = true := by
      rw [hth]
      omega
    have := hset { th with
      i := s.reserved, stop := (s.reserved + slices) % 2 ^ 32
      running := s.reserved < array.length }
    rw [if_neg hnot] at this
    simp only [State.share, State.free, Nat.mod_eq_of_lt hfit] at this ⊢
    have hnew : Thread.holds j { th with
        i := s.reserved, stop := s.reserved + slices
        running := s.reserved < array.length } = true ↔
        s.reserved ≤ j ∧ j < s.reserved + slices := by
      rw [Thread.holds_iff]
      simp only [decide_eq_true_eq]
      omega
    by_cases h1 : s.reserved ≤ j ∧ j < s.reserved + slices
    · rw [if_pos (hnew.mpr h1)] at this
      rw [if_pos h1.1, if_neg (by omega)]
      omega
    · rw [if_neg (mt hnew.mp h1)] at this
      by_cases h2 : s.reserved ≤ j
      · rw [if_pos h2, if_pos (by omega)]
        omega
      · rw [if_neg h2, if_neg (by omega)]
        omega

theorem allZero_of_step (h : step array internal fn slices s t = some s')
    (hzero : AllZero s'.calls) : AllZero s.calls := by
  obtain ⟨th, -, -, hcases⟩ := step_cases h
  obtain ⟨obj, -, -, -, rfl⟩ | ⟨obj, r, loopDone, arg, -, -, -, -, rfl⟩ | ⟨-, rfl⟩ := hcases
  · exact hzero
  · exact fun c hc => hzero c (List.mem_append_left _ hc)
  · exact hzero

theorem Inv.step {wanted : Nat} (hs : Inv array internal slices wanted made s)
    (hb : Bounded array.length slices made s) (hfits : Fits array.length slices made)
    (hquiet : Quiet fn) (h : step array internal fn slices s t = some s')
    (hzero : AllZero s'.calls) : Inv array internal slices wanted made s' := by
  refine ⟨fun j obj ho hi => ?_, fun th' hth' hstop => ?_⟩
  · rw [share_step hb hfits hquiet h hzero ho hi]
    exact hs.share j obj ho hi
  obtain ⟨th, ht, hrun, hcases⟩ := step_cases h
  obtain ⟨obj, -, -, -, rfl⟩ | ⟨obj, r, loopDone, arg, -, -, -, hf, rfl⟩ | ⟨-, rfl⟩ := hcases
  · rcases List.mem_or_eq_of_mem_set hth' with hth' | rfl
    · exact hs.behind th' hth' hstop
    · rw [show ({ th with i := th.i + 1 } : Thread).running = th.running from rfl, hrun] at hstop
      cases hstop
  · have hr : r = 0 := hzero (th.i, r) (List.mem_append_right _ List.mem_cons_self)
    have hdone : loopDone = false := by
      have := hquiet s.arg obj
      rw [hf] at this
      exact this
    rw [if_neg (by simp [hr, hdone])] at hth'
    rcases List.mem_or_eq_of_mem_set hth' with hth' | rfl
    · exact hs.behind th' hth' hstop
    · rw [show ({ th with i := th.i + 1 } : Thread).running = th.running from rfl, hrun] at hstop
      cases hstop
  · have hfit := hb.reserved_lt hfits ht hrun
    simp only [Nat.mod_eq_of_lt hfit] at hth' ⊢
    rcases List.mem_or_eq_of_mem_set hth' with hth' | rfl
    · exact Nat.le_add_right_of_le (hs.behind th' hth' hstop)
    · have := of_decide_eq_false hstop
      omega

/-! ### A whole run -/

variable {schedule : List Nat} {wanted : Nat}

theorem errorKept_run (hs : ErrorKept s)
    (h : run (step array internal fn slices) s schedule = some s') : ErrorKept s' :=
  run_keeps (fun _ _ _ hs h => errorKept_step hs h) hs h

theorem callsOf_run (hs : CallsOf array internal s.calls)
    (h : run (step array internal fn slices) s schedule = some s') :
    CallsOf array internal s'.calls :=
  run_keeps (I := fun s => CallsOf array internal s.calls) (fun _ _ _ hs h => callsOf_step hs h)
    hs h

theorem inv_run (hb : Bounded array.length slices made s)
    (hs : Inv array internal slices wanted made s) (hfits : Fits array.length slices made)
    (hquiet : Quiet fn) (h : run (step array internal fn slices) s schedule = some s')
    (hzero : AllZero s'.calls) : Inv array internal slices wanted made s' := by
  have hkeeps := run_keeps (I := fun s => Bounded array.length slices made s ∧
    (AllZero s.calls → Inv array internal slices wanted made s)) (fun s₁ t s₂ h₁ hstep =>
      ⟨h₁.1.step hfits hstep, fun hz => (h₁.2 (allZero_of_step hstep hz)).step h₁.1 hfits hquiet
        hstep hz⟩) ⟨hb, fun _ => hs⟩ h
  exact hkeeps.2 hzero

/-- An element is in one of the first slices. -/
theorem countP_initial (slices made j : Nat) :
    ((List.range made).map fun t => ({ i := t * slices, stop := t * slices + slices } :
      Thread)).countP (Thread.holds j) = if j < made * slices then 1 else 0 := by
  induction made with
  | zero => simp
  | succ made ih =>
    rw [List.range_succ, List.map_append, List.countP_append, ih]
    have hlast : Thread.holds j { i := made * slices, stop := made * slices + slices } = true ↔
        made * slices ≤ j ∧ j < made * slices + slices := by
      simp [Thread.holds]
    rw [List.map_singleton, List.countP_singleton, Nat.add_mul, Nat.one_mul]
    by_cases h1 : j < made * slices
    · rw [if_pos h1, if_neg (mt hlast.mp (by omega)), if_pos (by omega)]
    · rw [if_neg h1]
      by_cases h2 : j < made * slices + slices
      · rw [if_pos (hlast.mpr ⟨by omega, h2⟩), if_pos h2]
      · rw [if_neg (mt hlast.mp (by omega)), if_neg h2]

theorem inv_initial (arg : σ) (hmade : made ≤ wanted) :
    Inv array internal slices wanted made (.initial slices wanted made arg) := by
  refine ⟨fun j obj _ _ => ?_, fun th hth hstop => ?_⟩
  · have hle : made * slices ≤ wanted * slices := Nat.mul_le_mul_right slices hmade
    rw [State.share, State.free, State.initial, countP_initial, Nat.mul_comm slices wanted]
    simp only [List.map_nil, List.count_nil, Nat.zero_add]
    split <;> split <;> split <;> omega
  · obtain ⟨t, -, rfl⟩ := List.mem_map.mp hth
    cases hstop

theorem bounded_initial (arg : σ) (hle : slices * wanted ≤ count) :
    Bounded count slices made (.initial slices wanted made arg) := by
  have hlen : (State.initial slices wanted made arg).threads.length = made := by
    simp [State.initial]
  have hrun : slices * (State.initial slices wanted made arg).threads.countP Thread.running ≤
      slices * made := Nat.mul_le_mul_left slices (List.countP_le_length.trans_eq hlen)
  refine ⟨hlen, ?_⟩
  rw [Nat.mul_add, Nat.mul_one]
  change slices * wanted + _ ≤ _
  omega

/-! ### The iteration -/

/-- The indices of the elements that are not internal. -/
def elements (internal : α → Bool) (array : List α) : List Nat :=
  (array.zipIdx.filter fun e => !internal e.1).map Prod.snd

/-- If all calls return 0 and so does the iteration, every element was passed to the callback
once; if a call fails, the iteration does. -/
def Iterates (array : List α) (internal : α → Bool) (it : Iteration σ) : Prop :=
  (AllZero it.calls → it.r = 0 → (it.calls.map Prod.fst).Perm (elements internal array)) ∧
  ((∃ c ∈ it.calls, c.2 ≠ 0) → it.r ≠ 0)

theorem mem_elements_iff {j : Nat} :
    j ∈ elements internal array ↔ ∃ obj, array[j]? = some obj ∧ internal obj = false := by
  simp only [elements, List.mem_map, List.mem_filter, Bool.not_eq_true', Prod.exists]
  constructor
  · rintro ⟨obj, _, ⟨hmem, hi⟩, rfl⟩
    exact ⟨obj, List.mem_zipIdx_iff_getElem?.mp hmem, hi⟩
  · rintro ⟨obj, ho, hi⟩
    exact ⟨obj, j, ⟨List.mem_zipIdx_iff_getElem?.mpr ho, hi⟩, rfl⟩

theorem nodup_elements : (elements internal array).Nodup := by
  refine List.Nodup.sublist (List.filter_sublist.map Prod.snd) ?_
  rw [List.zipIdx_map_snd]
  exact List.nodup_range'

theorem foreachCbFrom_iterates (internal : α → Bool) (hquiet : Quiet fn) (i : Nat) (arg : σ)
    (objs : List α) :
    (AllZero (foreachCbFrom internal fn i arg objs).calls →
      (foreachCbFrom internal fn i arg objs).calls.map Prod.fst =
        ((objs.zipIdx i).filter fun e => !internal e.1).map Prod.snd) ∧
    ((∃ c ∈ (foreachCbFrom internal fn i arg objs).calls, c.2 ≠ 0) →
      (foreachCbFrom internal fn i arg objs).r ≠ 0) := by
  induction objs generalizing i arg with
  | nil => exact ⟨fun _ => rfl, by rintro ⟨c, hc, -⟩; cases hc⟩
  | cons obj objs ih =>
    rw [foreachCbFrom]
    by_cases hi : internal obj = true
    · simp only [hi, if_true, List.zipIdx_cons, Bool.not_true, Bool.false_eq_true,
        not_false_eq_true, List.filter_cons_of_neg]
      exact ih (i + 1) arg
    -- the callback is called, and the loop goes on if it returns 0
    rcases hf : fn arg obj with ⟨r, loopDone, arg'⟩
    have hdone : loopDone = false := by
      have := hquiet arg obj
      rw [hf] at this
      exact this
    obtain ⟨hcalls, herror⟩ := ih (i + 1) arg'
    simp only [hi, hdone, Bool.false_eq_true, if_false, or_false, List.zipIdx_cons, Bool.not_false,
      List.filter_cons_of_pos, List.map_cons]
    by_cases hr : r = 0
    · rw [if_neg (not_not.mpr hr)]
      refine ⟨fun hz => ?_, fun ⟨c, hc, hne⟩ => ?_⟩
      · rw [List.map_cons, hcalls fun c hc => hz c (List.mem_cons_of_mem _ hc)]
      · rcases List.mem_cons.mp hc with rfl | hc
        · exact absurd hr hne
        · exact herror ⟨c, hc, hne⟩
    · rw [if_pos hr]
      refine ⟨fun hz => absurd (hz (i, r) List.mem_cons_self) hr, fun _ => hr⟩

theorem foreachCbFrom_keeps {P : σ → List (Nat × Int) → Prop}
    (hcall : ∀ arg calls i obj, array[i]? = some obj → internal obj = false → P arg calls →
      P (fn arg obj).2.2 (calls ++ [(i, (fn arg obj).1)])) {arg : σ} (hstart : P arg []) :
    P (foreachCb internal fn array arg).arg (foreachCb internal fn array arg).calls := by
  -- what is left of the array, and the calls for what is before it
  have hfrom : ∀ (objs : List α) (i : Nat) (arg : σ) (calls : List (Nat × Int)),
      (∀ k, objs[k]? = array[i + k]?) → P arg calls →
      P (foreachCbFrom internal fn i arg objs).arg
        (calls ++ (foreachCbFrom internal fn i arg objs).calls) := by
    intro objs
    induction objs with
    | nil =>
      intro i arg calls _ hP
      rw [foreachCbFrom, List.append_nil]
      exact hP
    | cons obj objs ih =>
      intro i arg calls hat hP
      have hnext : ∀ k, objs[k]? = array[i + 1 + k]? := by
        intro k
        rw [Nat.add_assoc, Nat.add_comm 1 k, ← hat (k + 1), List.getElem?_cons_succ]
      have ho : array[i]? = some obj := (hat 0).symm
      rw [foreachCbFrom]
      by_cases hi : internal obj = true
      · rw [if_pos hi]
        exact ih (i + 1) arg calls hnext hP
      rw [if_neg hi]
      have hone := hcall arg calls i obj ho (by simpa using hi) hP
      rcases hf : fn arg obj with ⟨r, loopDone, arg'⟩
      rw [hf] at hone
      by_cases hr : r ≠ 0 ∨ loopDone = true
      · simp only [if_pos hr]
        exact hone
      · simp only [if_neg hr]
        have := ih (i + 1) arg' _ hnext hone
        rwa [List.append_assoc] at this
  have := hfrom array 0 arg [] (fun k => by rw [Nat.zero_add]) hstart
  exact this

/-- A failed call shows in the result. -/
theorem result_ne_zero {join : Nat → Bool} (hs : ErrorKept s)
    (h : ∃ c ∈ s.calls, c.2 ≠ 0) : s.result join ≠ 0 := by
  obtain ⟨c, hc, hne⟩ := h
  obtain ⟨t, th, ht, -, hr⟩ := hs c hc hne
  rw [State.result]
  split
  · decide
  · cases hf : (s.threads.map Thread.r).find? fun r => r ≠ 0 with
    | none =>
      rw [List.find?_eq_none] at hf
      have := hf th.r (List.mem_map_of_mem (List.mem_of_getElem? ht))
      rw [hr] at this
      exact absurd hne (by simpa using this)
    | some r => simpa using List.find?_some hf

/-- When all threads have returned, every element was passed to the callback that was not given
to a thread that does not exist. -/
theorem count_calls (hs : Inv array internal slices wanted made s)
    (hend : s.threads.any Thread.running = false) (hne : s.threads ≠ []) {j : Nat} {obj : α}
    (ho : array[j]? = some obj) (hi : internal obj = false) :
    (s.calls.map Prod.fst).count j =
      if made * slices ≤ j ∧ j < wanted * slices then 0 else 1 := by
  have hstop : ∀ th ∈ s.threads, th.running = false := by simpa using hend
  have hholds : s.threads.countP (Thread.holds j) = 0 := by
    rw [List.countP_eq_zero]
    intro th hth
    simp [Thread.holds, hstop th hth]
  obtain ⟨th, hth⟩ := List.exists_mem_of_ne_nil _ hne
  have hlt : j < array.length := (List.getElem?_eq_some_iff.mp ho).1
  have hbehind := hs.behind th hth (hstop th hth)
  have hfree : s.free j = 0 := if_neg (by omega)
  have hshare := hs.share j obj ho hi
  rw [State.share, hholds, hfree] at hshare
  exact hshare

/-! ### A schedule to the end -/

/-- How many elements of its slice a thread has left. -/
def Thread.left (count : Nat) (th : Thread) : Nat :=
  if th.running then min th.stop count - th.i else 0

/-- What is left to be done, with `bound` above the counter. -/
def State.left (count bound : Nat) (s : State σ) : Nat :=
  2 * (bound - s.reserved) + (s.threads.map (Thread.left count)).sum

theorem sum_set_add (f : Thread → Nat) (th' : Thread) :
    ∀ {l : List Thread} {t : Nat} {th : Thread}, l[t]? = some th →
      ((l.set t th').map f).sum + f th = (l.map f).sum + f th' := by
  intro l
  induction l with
  | nil =>
    intro t th h
    cases h
  | cons u l ih =>
    intro t th h
    cases t with
    | zero =>
      cases h
      simp only [List.set_cons_zero, List.map_cons, List.sum_cons]
      omega
    | succ t =>
      have := ih (t := t) h
      simp only [List.set_cons_succ, List.map_cons, List.sum_cons]
      omega

theorem left_step (hb : Bounded array.length slices made s)
    (hfits : Fits array.length slices made) (hpos : 0 < slices)
    (h : step array internal fn slices s t = some s') :
    s'.left array.length (array.length + slices * (made + 1)) <
      s.left array.length (array.length + slices * (made + 1)) := by
  obtain ⟨th, ht, hrun, hcases⟩ := step_cases h
  have hset := fun th' => sum_set_add (Thread.left array.length) th' ht
  have hleft : th.left array.length = min th.stop array.length - th.i := by
    rw [Thread.left, if_pos hrun]
  -- one element less is left to a thread that goes on, and none to one that stops
  have hpass : th.i < th.stop → th.i < array.length → ∀ r : Int,
      Thread.left array.length { th with i := th.i + 1 } < th.left array.length ∧
      Thread.left array.length { th with r, running := false } < th.left array.length := by
    intro h1 h2 r
    rw [hleft]
    constructor
    · rw [Thread.left, if_pos hrun]
      simp only
      omega
    · rw [Thread.left, if_neg (by simp)]
      omega
  obtain ⟨obj, hstop, ho, -, rfl⟩ | ⟨obj, r, loopDone, arg, hstop, ho, -, -, rfl⟩ | ⟨-, rfl⟩ :=
    hcases
  · have hlt := (List.getElem?_eq_some_iff.mp ho).1
    have := hset { th with i := th.i + 1 }
    have := (hpass hstop hlt 0).1
    simp only [State.left]
    omega
  · have hlt := (List.getElem?_eq_some_iff.mp ho).1
    simp only [State.left]
    by_cases hr : r ≠ 0 ∨ loopDone = true
    · have := hset { th with r, running := false }
      have := (hpass hstop hlt r).2
      rw [if_pos hr]
      omega
    · have := hset { th with i := th.i + 1 }
      have := (hpass hstop hlt r).1
      rw [if_neg hr]
      omega
  · -- the thread gets at most what the counter gives away
    have hfit := hb.reserved_lt hfits ht hrun
    have hbound : s.reserved + slices ≤ array.length + slices * (made + 1) := by
      have h1 := Nat.mul_le_mul_left slices (countP_running_pos ht hrun)
      have h2 := hb.bound
      omega
    simp only [State.left, Nat.mod_eq_of_lt hfit]
    have h1 := hset { th with
      i := s.reserved, stop := s.reserved + slices
      running := s.reserved < array.length }
    have h2 : Thread.left array.length { th with
        i := s.reserved, stop := s.reserved + slices
        running := s.reserved < array.length } ≤ slices := by
      rw [Thread.left]
      split
      · simp only
        omega
      · exact Nat.zero_le _
    omega

theorem exists_step (array : List α) (internal : α → Bool) (fn : Callback α σ) (slices : Nat)
    (h : s.threads.any Thread.running = true) :
    ∃ t s', step array internal fn slices s t = some s' := by
  obtain ⟨th, hth, hrun⟩ := List.any_eq_true.mp h
  obtain ⟨t, ht⟩ := List.mem_iff_getElem?.mp hth
  refine ⟨t, ?_⟩
  simp only [step, ht, hrun, Bool.true_eq_false, if_false]
  split
  · split <;> exact ⟨_, rfl⟩
  · exact ⟨_, rfl⟩

/-- From every state there is a schedule in which all threads return. -/
theorem exists_schedule (internal : α → Bool) (fn : Callback α σ)
    (hfits : Fits array.length slices made) (hpos : 0 < slices)
    (hb : Bounded array.length slices made s) :
    ∃ schedule s', run (step array internal fn slices) s schedule = some s' ∧
      s'.threads.any Thread.running = false := by
  induction hn : s.left array.length (array.length + slices * (made + 1)) using
    Nat.strongRecOn generalizing s with
  | ind n ih =>
    by_cases hend : s.threads.any Thread.running = true
    · obtain ⟨t, s₁, hstep⟩ := exists_step array internal fn slices hend
      have hlt := left_step hb hfits hpos hstep
      obtain ⟨schedule, s', hrun, hstop⟩ := ih _ (hn ▸ hlt) (hb.step hfits hstep) rfl
      exact ⟨t :: schedule, s', run_cons_eq_some.mpr ⟨s₁, hstep, hrun⟩, hstop⟩
    · exact ⟨[], s, rfl, by simpa using hend⟩

end

/-! ### The main result -/

/-- The number of elements of a first slice, of threads that are wanted, and of threads that are
created, if there are any. -/
theorem slices_spec {count : Nat} {nprocs : Int} {create : Nat → Bool}
    (h : ¬ Single count nprocs create) :
    0 < slicecount count nprocs ∧
    slicecount count nprocs * maxthreads count nprocs ≤ count ∧
    created count nprocs create ≤ maxthreads count nprocs ∧ 0 < created count nprocs create := by
  rw [Single, not_or, not_or] at h
  obtain ⟨hprocs, hcount, hmade⟩ := h
  have hle : created count nprocs create ≤ maxthreads count nprocs :=
    (List.takeWhile_sublist _).length_le.trans_eq List.length_range
  refine ⟨?_, ?_, hle, Nat.pos_of_ne_zero hmade⟩
  · rw [slicecount]
    split
    · exact Nat.one_pos
    · exact Nat.lt_min.mpr ⟨Nat.div_pos (by omega) (by omega), by decide⟩
  · rw [slicecount, maxthreads]
    split
    · exact Nat.le_of_eq (Nat.one_mul count)
    · exact Nat.le_trans (Nat.mul_le_mul_right _ (Nat.min_le_left _ _)) (Nat.div_mul_le_self _ _)

/-- The slices of the threads that could not be created hold internal objects only. -/
def NothingLost (array : List α) (internal : α → Bool) (nprocs : Int) (create : Nat → Bool) :
    Prop :=
  ∀ j obj, array[j]? = some obj →
    created array.length nprocs create * slicecount array.length nprocs ≤ j →
    j < maxthreads array.length nprocs * slicecount array.length nprocs → internal obj = true

/-- With threads, the counter does not wrap around. -/
def ThreadsFit (count : Nat) (nprocs : Int) (create : Nat → Bool) : Prop :=
  ¬ Single count nprocs create →
    Fits count (slicecount count nprocs) (created count nprocs create)

/-- Nothing is left out without an error: the single-threaded routine is used, or some thread
cannot be waited for, or the slices of the threads that could not be created hold internal
objects only. -/
def Covered (array : List α) (internal : α → Bool) (nprocs : Int) (create join : Nat → Bool) :
    Prop :=
  Single array.length nprocs create ∨
  (∃ t < created array.length nprocs create, join t = false) ∨
  NothingLost array internal nprocs create

section
variable {array : List α} {internal : α → Bool} {nprocs : Int} {create join : Nat → Bool}

theorem result_of_join {s : State σ} (h : ∃ t < s.threads.length, join t = false) :
    s.result join = -eagain := by
  obtain ⟨t, ht, hj⟩ := h
  refine if_pos ?_
  rw [List.all_eq_false]
  exact ⟨t, List.mem_range.mpr ht, by simp [hj]⟩

/-- An iteration is the single-threaded one, or what all threads leave when they have
returned. -/
theorem foreachCbMulti_cases {fn : Callback α σ} {arg : σ} {schedule : List Nat}
    {it : Iteration σ}
    (h : foreachCbMulti internal fn array arg nprocs create join schedule = some it) :
    (Single array.length nprocs create ∧ it = foreachCb internal fn array arg) ∨
    (¬ Single array.length nprocs create ∧ ∃ s,
      run (step array internal fn (slicecount array.length nprocs))
        (.initial (slicecount array.length nprocs) (maxthreads array.length nprocs)
          (created array.length nprocs create) arg) schedule = some s ∧
      s.threads.any Thread.running = false ∧ it = ⟨s.result join, s.calls, s.arg⟩) := by
  rw [foreachCbMulti] at h
  by_cases hempty : array.length = 0
  · rw [if_pos hempty] at h
    cases h
    have hnil : array = [] := List.length_eq_zero_iff.mp hempty
    subst hnil
    exact Or.inl ⟨Or.inr (Or.inl (Nat.zero_le 1)), rfl⟩
  rw [if_neg hempty] at h
  by_cases hsingle : Single array.length nprocs create
  · rw [if_pos hsingle] at h
    cases h
    exact Or.inl ⟨hsingle, rfl⟩
  rw [if_neg hsingle] at h
  refine Or.inr ⟨hsingle, ?_⟩
  simp only at h
  split at h
  · cases h
  · rename_i s hr
    split at h
    · cases h
    · rename_i hend
      cases h
      exact ⟨s, hr, by simpa using hend, rfl⟩

theorem foreachCbMulti_threads (hfits : ThreadsFit array.length nprocs create)
    (hsingle : ¬ Single array.length nprocs create) {fn : Callback α σ} {arg : σ}
    {schedule : List Nat} {s : State σ}
    (hr : run (step array internal fn (slicecount array.length nprocs))
      (.initial (slicecount array.length nprocs) (maxthreads array.length nprocs)
        (created array.length nprocs create) arg) schedule = some s) :
    s.threads.length = created array.length nprocs create ∧ s.threads ≠ [] ∧
    (Quiet fn → AllZero s.calls → Inv array internal (slicecount array.length nprocs)
      (maxthreads array.length nprocs) (created array.length nprocs create) s) := by
  obtain ⟨-, hslices, hmade, hpos⟩ := slices_spec hsingle
  have hb : Bounded array.length (slicecount array.length nprocs)
      (created array.length nprocs create) _ := bounded_initial arg hslices
  have hlen : s.threads.length = created array.length nprocs create :=
    (run_keeps (I := Bounded array.length _ _) (fun _ _ _ hb h => hb.step (hfits hsingle) h) hb
      hr).length
  refine ⟨hlen, fun hnil => ?_, fun hquiet hzero => ?_⟩
  · rw [hnil, List.length_nil] at hlen
    omega
  · exact inv_run hb (inv_initial arg hmade) (hfits hsingle) hquiet hr hzero

/-- If nothing is lost and no call fails, every element is passed to the callback once. -/
theorem perm_elements (hfits : ThreadsFit array.length nprocs create)
    (hlost : Single array.length nprocs create ∨ NothingLost array internal nprocs create)
    {fn : Callback α σ} (hquiet : Quiet fn) {arg : σ} {schedule : List Nat} {it : Iteration σ}
    (h : foreachCbMulti internal fn array arg nprocs create join schedule = some it)
    (hzero : AllZero it.calls) : (it.calls.map Prod.fst).Perm (elements internal array) := by
  obtain ⟨-, rfl⟩ | ⟨hsingle, s, hr, hend, rfl⟩ := foreachCbMulti_cases h
  · rw [foreachCb, (foreachCbFrom_iterates internal hquiet 0 arg array).1 hzero, elements]
  obtain ⟨-, hne, hinv⟩ := foreachCbMulti_threads hfits hsingle hr
  have hcalls : CallsOf array internal s.calls := callsOf_run (fun c hc => by cases hc) hr
  have hcount : ∀ {j : Nat} {obj : α}, array[j]? = some obj → internal obj = false →
      (s.calls.map Prod.fst).count j = 1 := by
    intro j obj ho hi
    rw [count_calls (hinv hquiet hzero) hend hne ho hi, if_neg]
    rintro ⟨h1, h2⟩
    rw [hlost.resolve_left hsingle j obj ho h1 h2] at hi
    cases hi
  rw [List.perm_iff_count]
  intro j
  simp only
  by_cases hj : j ∈ elements internal array
  · obtain ⟨obj, ho, hi⟩ := mem_elements_iff.mp hj
    rw [hcount ho hi, List.nodup_iff_count_eq_one.mp nodup_elements j hj]
  · rw [List.count_eq_zero_of_not_mem hj, List.count_eq_zero]
    intro hmem
    obtain ⟨c, hc, rfl⟩ := List.mem_map.mp hmem
    exact hj (mem_elements_iff.mpr (hcalls c hc))

/-- No failure of a call is lost. -/
theorem error_kept {fn : Callback α σ} (hquiet : Quiet fn) {arg : σ} {schedule : List Nat}
    {it : Iteration σ}
    (h : foreachCbMulti internal fn array arg nprocs create join schedule = some it)
    (hne : ∃ c ∈ it.calls, c.2 ≠ 0) : it.r ≠ 0 := by
  obtain ⟨-, rfl⟩ | ⟨-, s, hr, -, rfl⟩ := foreachCbMulti_cases h
  · exact (foreachCbFrom_iterates internal hquiet 0 arg array).2 hne
  · exact result_ne_zero (errorKept_run (fun c hc => by cases hc) hr) hne

theorem foreachCbMulti_iterates (hfits : ThreadsFit array.length nprocs create)
    (hcov : Covered array internal nprocs create join) {fn : Callback α σ} (hquiet : Quiet fn)
    {arg : σ} {schedule : List Nat} {it : Iteration σ}
    (h : foreachCbMulti internal fn array arg nprocs create join schedule = some it) :
    Iterates array internal it := by
  refine ⟨fun hzero hres => ?_, error_kept hquiet h⟩
  by_cases hsingle : Single array.length nprocs create
  · exact perm_elements hfits (Or.inl hsingle) hquiet h hzero
  obtain hcov | ⟨t, ht, hj⟩ | hcov := hcov
  · exact absurd hcov hsingle
  · obtain ⟨hs, -⟩ | ⟨-, s, hr, -, rfl⟩ := foreachCbMulti_cases h
    · exact absurd hs hsingle
    · have hlen := (foreachCbMulti_threads hfits hsingle hr).1
      simp only [result_of_join ⟨t, hlen ▸ ht, hj⟩] at hres
      cases hres
  · exact perm_elements hfits (Or.inr hcov) hquiet h hzero

/-- What every call of the callback keeps, of the data behind its argument and the calls so
far, an iteration keeps. -/
theorem foreachCbMulti_keeps {fn : Callback α σ} {P : σ → List (Nat × Int) → Prop}
    (hcall : ∀ arg calls i obj, array[i]? = some obj → internal obj = false → P arg calls →
      P (fn arg obj).2.2 (calls ++ [(i, (fn arg obj).1)]))
    {arg : σ} (hstart : P arg []) {schedule : List Nat} {it : Iteration σ}
    (h : foreachCbMulti internal fn array arg nprocs create join schedule = some it) :
    P it.arg it.calls := by
  obtain ⟨-, rfl⟩ | ⟨-, s, hr, -, rfl⟩ := foreachCbMulti_cases h
  · exact foreachCbFrom_keeps hcall hstart
  · refine run_keeps (I := fun s => P s.arg s.calls) (fun s t s' hs h => ?_) hstart hr
    obtain ⟨th, -, -, hcases⟩ := step_cases h
    obtain ⟨obj, -, -, -, rfl⟩ | ⟨obj, r, loopDone, arg, -, ho, hi, hf, rfl⟩ | ⟨-, rfl⟩ := hcases
    · exact hs
    · have := hcall s.arg s.calls th.i obj ho hi hs
      rw [hf] at this
      exact this
    · exact hs

/-! A callback that does nothing leaves no error behind. -/

/-- A callback that always returns 0. -/
def idle : Callback α Unit := fun _ _ => (0, false, ())

/-- No thread has a result, and no call had one. -/
def NoErrors (s : State Unit) : Prop := (∀ th ∈ s.threads, th.r = 0) ∧ AllZero s.calls

theorem noErrors_step {slices : Nat} {s s' : State Unit} {t : Nat} (hs : NoErrors s)
    (h : step array internal idle slices s t = some s') : NoErrors s' := by
  obtain ⟨th, ht, -, hcases⟩ := step_cases h
  have hset : ∀ th' : Thread, th'.r = 0 → ∀ u ∈ s.threads.set t th', u.r = 0 := by
    intro th' hr u hu
    rcases List.mem_or_eq_of_mem_set hu with hu | rfl
    · exact hs.1 u hu
    · exact hr
  have hr : th.r = 0 := hs.1 th (List.mem_of_getElem? ht)
  obtain ⟨obj, -, -, -, rfl⟩ | ⟨obj, r, loopDone, arg, -, -, -, hf, rfl⟩ | ⟨-, rfl⟩ := hcases
  · exact ⟨hset _ hr, hs.2⟩
  · cases hf
    refine ⟨hset _ ?_, fun c hc => ?_⟩
    · exact hr
    · rcases List.mem_append.mp hc with hc | hc
      · exact hs.2 c hc
      · rw [List.mem_singleton.mp hc]
  · exact ⟨hset _ hr, hs.2⟩

theorem result_eq_zero {s : State Unit} (hs : NoErrors s)
    (hjoin : ∀ t < s.threads.length, join t = true) : s.result join = 0 := by
  have hall : (List.range s.threads.length).all join = true :=
    List.all_eq_true.mpr fun t ht => hjoin t (List.mem_range.mp ht)
  have hfind : (s.threads.map Thread.r).find? (fun r => r ≠ 0) = none := by
    rw [List.find?_eq_none]
    intro r hr
    obtain ⟨th, hth, rfl⟩ := List.mem_map.mp hr
    simp [hs.1 th hth]
  rw [State.result, hall, if_neg (by decide), hfind, Option.getD_none]

/-- A run of `idle` that leaves out what was given to the threads that do not exist. -/
theorem covered_of_iterates (hfits : ThreadsFit array.length nprocs create)
    (h : ∀ schedule it, foreachCbMulti internal idle array () nprocs create join schedule =
      some it → Iterates array internal it) : Covered array internal nprocs create join := by
  by_contra hcov
  rw [Covered, not_or, not_or] at hcov
  obtain ⟨hsingle, hjoin, hlost⟩ := hcov
  obtain ⟨hpos, hslices, -, -⟩ := slices_spec hsingle
  have hb : Bounded array.length (slicecount array.length nprocs)
      (created array.length nprocs create) _ := bounded_initial () hslices
  obtain ⟨schedule, s, hr, hend⟩ := exists_schedule internal idle (hfits hsingle) hpos hb
  have hit : foreachCbMulti internal idle array () nprocs create join schedule =
      some ⟨s.result join, s.calls, s.arg⟩ := by
    have hempty : ¬ array.length = 0 := fun h0 => hsingle (Or.inr (Or.inl (by omega)))
    rw [foreachCbMulti, if_neg hempty, if_neg hsingle]
    simp only [hr, hend, Bool.false_eq_true, if_false]
  have hno : NoErrors s := by
    refine run_keeps (fun _ _ _ hs h => noErrors_step hs h) ⟨fun th hth => ?_, fun c hc => ?_⟩ hr
    · obtain ⟨t, -, rfl⟩ := List.mem_map.mp hth
      rfl
    · cases hc
  obtain ⟨hlen, hne, hinv⟩ := foreachCbMulti_threads hfits hsingle hr
  have hres : s.result join = 0 := by
    refine result_eq_zero hno fun t ht => ?_
    by_contra hj
    exact hjoin ⟨t, hlen ▸ ht, by simpa using hj⟩
  have hperm := (h schedule _ hit).1 hno.2 hres
  simp only [NothingLost, not_forall, Bool.not_eq_true] at hlost
  obtain ⟨j, obj, ho, h1, h2, hi⟩ := hlost
  have hquiet : Quiet (idle : Callback α Unit) := fun _ _ => rfl
  have hzero := count_calls (hinv hquiet hno.2) hend hne ho hi
  rw [if_pos ⟨h1, h2⟩, List.count_eq_zero] at hzero
  exact hzero (hperm.mem_iff.mpr (mem_elements_iff.mpr ⟨obj, ho, hi⟩))

/-- In every run of a callback that does not set `*loop_done`, every element is passed to it
once and no error is lost, if and only if nothing was given to a thread that does not exist. -/
theorem foreachCbMulti_iterates_iff (hfits : ThreadsFit array.length nprocs create) :
    (∀ {σ : Type} (fn : Callback α σ) (arg : σ) (schedule : List Nat) (it : Iteration σ),
      Quiet fn → foreachCbMulti internal fn array arg nprocs create join schedule = some it →
      Iterates array internal it) ↔
    Covered array internal nprocs create join := by
  constructor
  · exact fun h => covered_of_iterates hfits fun schedule it =>
      h idle () schedule it fun _ _ => rfl
  · intro hcov σ fn arg schedule it hquiet h
    exact foreachCbMulti_iterates hfits hcov hquiet h

end

/-- Three elements, two processors, and both threads. -/
theorem foreachCbMulti_iterates_three :
    Iterates [10, 11, 12] (fun _ => false)
      (⟨0, [(0, 0), (1, 0), (2, 0)], ()⟩ : Iteration Unit) := by
  have hiff := @foreachCbMulti_iterates_iff Nat [10, 11, 12] (fun _ => false) 2 (fun _ => true)
    (fun _ => true) ?_
  · refine hiff.mpr (Or.inr (Or.inr ?_)) idle () [0, 1, 0, 0, 0, 1] _ (fun _ _ => rfl) (by decide)
    intro j obj _ h1 h2
    exact absurd h1 (Nat.not_le.mpr h2)
  · intro _
    rw [Fits]
    decide

/-- The second of three threads cannot be created: two elements are left out, and the result
is 0. -/
theorem foreachCbMulti_not_iterates :
    foreachCbMulti (fun _ => false) idle [10, 11, 12] () 3 (fun t => t ≠ 1) (fun _ => true) [0, 0] =
      some ⟨0, [(0, 0)], ()⟩ ∧
    ¬ Iterates [10, 11, 12] (fun _ => false) (⟨0, [(0, 0)], ()⟩ : Iteration Unit) := by
  refine ⟨by decide, fun h => ?_⟩
  have hzero : AllZero [(0, 0)] := fun c hc => by rw [List.mem_singleton.mp hc]
  have hlen := (h.1 hzero rfl).length_eq
  exact absurd hlen (by decide)

end Flappy.Foreach
