/-
The bulk builder (`bin/flappy-fbulk/main.c`).

The package list is enumerated recursively, and packages are built while the
enumeration is going on: each call of `ordered_depends` ends with `runBuilds`, which
forks builds and takes the exits of children.  The model runs in small steps, one
iteration of a loop each; the calls that are going on are on a stack.  What the kernel
answers to `fork` and `waitpid` comes with each step, so that a list of answers is one
interleaving of the enumeration with the builds.
-/
import Mathlib.Data.Finset.Insert
import Flappy.Lib.CStr
import Flappy.Lib.Linked
import Flappy.Lib.Run

open CStr Intrusive

namespace Flappy.Fbulk

inductive Status where
  | XWAITING
  | XDEPFAIL
  | XBUILD
  | XRUN
  | XDONE
deriving DecidableEq, Repr

/-- A `struct item`.  Pointers to items are package names. -/
structure Item where
  status : Status := .XWAITING
  bnext : Option Str := none
  /-- The packages that depend on this one, the last one added first. -/
  dbase : List Str := []
  dcount : Nat := 0
  xcode : Int := 0
  pid : Int := 0
deriving DecidableEq, Repr

/-- The assertions about the state of the build. -/
inductive Assertion where
  | completionStatus
  | completionCount
  | addDepnStatus
  | orderedDependsStatus
deriving DecidableEq, Repr

/-- The flags of `waitpid`. -/
inductive WaitFlags where
  | block
  | WNOHANG
deriving DecidableEq, Repr

/-- A call that is going on, at the head of its loop. -/
inductive Frame where
  /-- The loop of `ordered_depends` over the lines still to be read.  `xitem` is the
  dependency that `addDepn` gets next. -/
  | orderedDepends (item : Str) (xitem : Option Str) (lines : List Str)
  /-- The first loop of `runBuilds`. -/
  | startBuilds
  /-- Its second loop, `while (waitRunning(WNOHANG) != NULL)`. -/
  | reapBuilds
  /-- The loop of `waitRunning` over the RunList. -/
  | waitRunning (flags : WaitFlags) (itemp : Link Str) (pid : Nat) (status : UInt8)
  /-- The loop of `main` over the packages. -/
  | packages (names : List Str)
  /-- Its last loop, `while (waitRunning(0) != NULL) runBuilds(bpath)`. -/
  | waitBuilds
deriving DecidableEq

/-- What the build directory holds, and the number of jobs. -/
structure Env where
  /-- The output of `flappy-src show-build-deps`, as `fgets` returns it. -/
  showBuildDeps : Str → List Str
  /-- Is there a `srcpkgs/<name>/template`? -/
  template : Str → Bool
  nParallel : Int

/-- The answers of the kernel at one step; `none` is a failure (of `waitpid`: no child). -/
structure Answers where
  fork : Option Nat := none
  waitpid : Option (Nat × UInt8) := none

structure State where
  hashtab : Finset Str := ∅
  heap : Str → Item := fun _ => {}
  buildList : Option Str := none
  buildListP : Link Str := .head
  runList : Option Str := none
  nRunning : Int := 0
  nBuilt : Nat := 0
  nFinished : Nat := 0
  nChecked : Nat := 0
  nTotal : Nat := 0
  /-- The calls of `processCompletion`, the innermost first, each with the reverse
  dependencies still to be visited. -/
  completing : List (Str × List Str) := []
  /-- The other calls, below those. -/
  stack : List Frame := []
  /-- The assertion that failed. -/
  assertion : Option Assertion := none
  /-- The packages `fork` was called for, the last one first. -/
  forks : List Str := []
  /-- The packages counted in `nFinished`, the last one first. -/
  finished : List Str := []

namespace State

/-- Write fields of one item. -/
def modify (s : State) (n : Str) (f : Item → Item) : State :=
  { s with heap := fun m => if m = n then f (s.heap n) else s.heap m }

@[simp] theorem heap_modify_self (s : State) (n : Str) (f : Item → Item) :
    (s.modify n f).heap n = f (s.heap n) := if_pos rfl

@[simp] theorem heap_modify_ne {s : State} {n m : Str} {f : Item → Item} (h : m ≠ n) :
    (s.modify n f).heap m = s.heap m := if_neg h

/-- A field that is not written stays as it is, for every item. -/
theorem field_modify {β : Type} {s : State} {n : Str} {f : Item → Item} (field : Item → β)
    (h : field (f (s.heap n)) = field (s.heap n)) (m : Str) :
    field ((s.modify n f).heap m) = field (s.heap m) := by
  by_cases hm : m = n
  · rw [hm, heap_modify_self, h]
  · rw [heap_modify_ne hm]

def abort (s : State) (a : Assertion) : State := { s with assertion := some a }

/-- The BuildList and the RunList, both threaded through `bnext`. -/
def builds (s : State) : Cells Str := ⟨s.buildList, fun n => (s.heap n).bnext⟩

def running (s : State) : Cells Str := ⟨s.runList, fun n => (s.heap n).bnext⟩

end State

/-- `*BuildListP = v`. -/
def State.writeBuild (s : State) (v : Option Str) : State :=
  let cells := s.builds.write s.buildListP v
  { s with buildList := cells.head, heap := fun m => { s.heap m with bnext := cells.next m } }

/-- `*itemp = v` in `waitRunning`. -/
def State.writeRun (s : State) (itemp : Link Str) (v : Option Str) : State :=
  let cells := s.running.write itemp v
  { s with runList := cells.head, heap := fun m => { s.heap m with bnext := cells.next m } }

def addItem (s : State) (pkgn : Str) : State :=
  { s with
    hashtab := insert pkgn s.hashtab
    heap := fun m => if m = pkgn then {} else s.heap m }

def addBuild (s : State) (item : Str) : State :=
  { (s.writeBuild (some item)).modify item fun i => { i with status := .XBUILD } with
    buildListP := .next item }

/-- The call of `processCompletion`, up to its loop. -/
def processCompletion (s : State) (item : Str) : State :=
  if (s.heap item).status = .XRUN ∨ (s.heap item).status = .XDEPFAIL then
    { s with completing := (item, (s.heap item).dbase) :: s.completing }
  else s.abort .completionStatus

/-- The body of the loop of `processCompletion`, after the check of the count. -/
def notify (s : State) (item xitem : Str) : State :=
  let s := s.modify xitem fun x => { x with dcount := x.dcount - 1 }
  if (s.heap xitem).status = .XWAITING ∨ (s.heap xitem).status = .XDEPFAIL then
    if (s.heap item).xcode = 0 then
      if (s.heap xitem).dcount = 0 then
        if (s.heap xitem).status = .XWAITING then addBuild s xitem
        else processCompletion s xitem
      else s
    else
      let s := s.modify xitem fun x =>
        { x with xcode := (s.heap item).xcode, status := .XDEPFAIL }
      processCompletion s xitem
  else s

/-- One step of the innermost `processCompletion`. -/
def completionStep (s : State) (item : Str) (depns : List Str)
    (callers : List (Str × List Str)) : State :=
  match depns with
  | [] =>
    { s.modify item fun i => { i with status := .XDONE } with
      completing := callers
      nFinished := s.nFinished + 1
      finished := item :: s.finished }
  | xitem :: depns =>
    if (s.heap xitem).dcount = 0 then s.abort .completionCount
    else notify { s with completing := (item, depns) :: callers } item xitem

/-- `runBuilds` takes the head of the BuildList and calls `fork`. -/
def takeBuild (s : State) (item : Str) (pid : Int) : State :=
  let next := (s.heap item).bnext
  let s := { s with
    buildList := next
    buildListP := if next = none then .head else s.buildListP
    forks := item :: s.forks }
  s.modify item fun i => { i with status := .XRUN, pid := pid }

/-- `runBuilds` with a package to start. -/
def forkBuild (s : State) (item : Str) (fork : Option Nat) : State :=
  match fork with
  | none =>
    let s := takeBuild s item (-1)
    processCompletion (s.modify item fun i => { i with xcode := -98 }) item
  | some pid =>
    let s := takeBuild s item pid
    { s.modify item fun i => { i with bnext := s.runList } with
      runList := some item
      nRunning := s.nRunning + 1
      nBuilt := s.nBuilt + 1 }

/-- `waitRunning` takes the item found at `itemp` off the RunList. -/
def unlinkRun (s : State) (itemp : Link Str) (item : Str) (status : UInt8) : State :=
  let s := s.writeRun itemp (s.heap item).bnext
  let s := s.modify item fun i => { i with bnext := none, xcode := status.toNat }
  { s with nRunning := s.nRunning - 1 }

def addDepn (s : State) (item xitem : Str) : State :=
  let s := s.modify xitem fun x => { x with dbase := item :: x.dbase }
  if (s.heap xitem).status = .XDONE then
    if (s.heap xitem).xcode ≠ 0 then
      if (s.heap item).status = .XWAITING ∨ (s.heap item).status = .XDEPFAIL then
        { s.modify item fun i =>
            { i with xcode := (s.heap xitem).xcode, status := .XDEPFAIL } with
          nBuilt := s.nBuilt + 1 }
      else s.abort .addDepnStatus
    else s
  else s.modify item fun i => { i with dcount := i.dcount + 1 }

/-- The dependency a line of the output names, if any. -/
def Env.dependency (env : Env) (buf : Str) : Option Str :=
  if ['=', '>'].isPrefixOf buf then none
  else
    let name := if buf.getLast? = some '\n' then buf.dropLast else buf
    if env.template name then some name else none

/-- The build dependencies of a package, as the enumeration lists them. -/
def Env.buildDeps (env : Env) (pkgn : Str) : List Str :=
  (env.showBuildDeps pkgn).filterMap env.dependency

/-- The call of `ordered_depends`, up to its loop. -/
def orderedDepends (env : Env) (s : State) (pkgn : Str) (callers : List Frame) : State :=
  let s := addItem s pkgn
  { s with
    nChecked := s.nChecked + 1
    stack := .orderedDepends pkgn none (env.showBuildDeps pkgn) :: callers }

/-- The end of `ordered_depends`, with all lines read. -/
def endDepends (s : State) (item : Str) : State :=
  let s := { s with nTotal := s.nTotal + 1 }
  if (s.heap item).dcount = 0 then
    match (s.heap item).status with
    | .XWAITING => addBuild s item
    | .XDEPFAIL => processCompletion s item
    | _ => s.abort .orderedDependsStatus
  else s

/-- The head of a loop around `waitRunning`: `here` is that loop. -/
def waitStep (s : State) (flags : WaitFlags) (here : Frame) (callers : List Frame)
    (waitpid : Option (Nat × UInt8)) : State :=
  if s.runList = none then { s with stack := callers }
  else
    match waitpid, flags with
    | some (pid, status), _ => { s with stack := .waitRunning flags .head pid status :: callers }
    | none, .WNOHANG => { s with stack := callers }
    -- `waitpid` is called again
    | none, .block => { s with stack := here :: callers }

/-- One step of the innermost call that is no `processCompletion`. -/
def callStep (env : Env) (s : State) (o : Answers) (callers : List Frame) : Frame → State
  | .packages [] => { s with stack := .startBuilds :: .waitBuilds :: callers }
  | .packages (pkgn :: names) =>
    if pkgn ∈ s.hashtab then { s with stack := .packages names :: callers }
    else orderedDepends env s pkgn (.packages names :: callers)
  | .orderedDepends item (some xitem) lines =>
    addDepn { s with stack := .orderedDepends item none lines :: callers } item xitem
  | .orderedDepends item none (buf :: lines) =>
    match env.dependency buf with
    | none => { s with stack := .orderedDepends item none lines :: callers }
    | some xitem =>
      if xitem ∈ s.hashtab then
        { s with stack := .orderedDepends item (some xitem) lines :: callers }
      else orderedDepends env s xitem (.orderedDepends item (some xitem) lines :: callers)
  | .orderedDepends item none [] =>
    endDepends { s with stack := .startBuilds :: callers } item
  | .startBuilds =>
    match s.buildList with
    | some item =>
      if s.nRunning < env.nParallel then
        forkBuild { s with stack := .startBuilds :: callers } item o.fork
      else { s with stack := .reapBuilds :: callers }
    | none => { s with stack := .reapBuilds :: callers }
  | .reapBuilds => waitStep s .WNOHANG .reapBuilds callers o.waitpid
  | .waitBuilds => waitStep s .block .waitBuilds callers o.waitpid
  | .waitRunning flags itemp pid status =>
    match s.running.read itemp with
    -- a child of `popen`
    | none => { s with stack := callers }
    | some item =>
      if (s.heap item).pid = pid then
        let loop := match flags with
          | .WNOHANG => .reapBuilds :: callers
          | .block => .startBuilds :: .waitBuilds :: callers
        processCompletion (unlinkRun { s with stack := loop } itemp item status) item
      else { s with stack := .waitRunning flags (.next item) pid status :: callers }

/-- One step of the program; `none` when it has ended. -/
def step (env : Env) (s : State) (o : Answers) : Option State :=
  if s.assertion.isSome then none
  else
    match s.completing, s.stack with
    | (item, depns) :: callers, _ => some (completionStep s item depns callers)
    | [], frame :: callers => some (callStep env s o callers frame)
    | [], [] => none

/-- What a step does. -/
theorem step_cases {env : Env} {s s' : State} {o : Answers} (h : step env s o = some s') :
    s.assertion = none ∧
      ((∃ item depns callers, s.completing = (item, depns) :: callers ∧
          s' = completionStep s item depns callers) ∨
        s.completing = [] ∧ ∃ f callers, s.stack = f :: callers ∧
          s' = callStep env s o callers f) := by
  unfold step at h
  split at h
  · exact absurd h (by simp)
  next hok =>
    refine ⟨by simpa using hok, ?_⟩
    cases hcomp : s.completing with
    | cons frame callers =>
      rw [hcomp] at h
      exact Or.inl ⟨frame.1, frame.2, callers, rfl, (Option.some.inj h).symm⟩
    | nil =>
      rw [hcomp] at h
      cases hs : s.stack with
      | cons f callers =>
        rw [hs] at h
        exact Or.inr ⟨rfl, f, callers, rfl, (Option.some.inj h).symm⟩
      | nil =>
        rw [hs] at h
        exact absurd h (by simp)

/-- The start of the loop over the packages that `main` has selected. -/
def start (names : List Str) : State := { stack := [.packages names] }

end Flappy.Fbulk
