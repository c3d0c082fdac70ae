/-
The lock of a repository (`lib/repo.c`).

`flappy_repo_lock` opens a lock file and takes its `flock`; `flappy_repo_unlock`
removes the name of the file.  Any number of processes do so, one system call at a
time.  The lock belongs to the inode and not to the name, and unlocking closes
descriptor 0 whatever descriptor the lock has.

* `flappyRepoLock`, `flappyRepoUnlock` — the functions, as programs of system calls;
* `State.step` — a step of one of the processes;
* `Orderly` — a lock is only taken on a file that still has its name, no name is removed
  while the lock on its file belongs to somebody else, and closing descriptor 0 closes
  nothing but the descriptor of the lock;
* `repoLock_exclusive` — in a run of such steps, two processes never hold the lock of one
  repository, and every call closes only the descriptor of its lock.
-/
import Flappy.Fetch
import Flappy.Lib.Run

open CStr Run

namespace Flappy.RepoLock

def ewouldblock : Nat := 11
def enametoolong : Nat := 36

abbrev Pid := Nat
abbrev Fd := Nat
abbrev Inode := Nat

/-! ### The functions -/

/-- The system calls they make. -/
inductive SysCall where
  /-- `open (path, O_WRONLY|O_CREAT|O_CLOEXEC, 0660)`. -/
  | openCreat (path : Str)
  /-- `flock (fd, LOCK_EX)`, with `LOCK_NB` or without. -/
  | flock (fd : Fd) (nb : Bool)
  | close (fd : Fd)
  | unlink (path : Str)

/-- A function, by the system calls that are left: each goes on with the result, or with the
`errno` of a failure. -/
inductive Prog where
  | ret (r : Int)
  | sys (call : SysCall) (k : Except Nat Nat → Prog)

/-- The path of the lock file as it fits into the buffer, if `snprintf` does not fail. -/
def lockPath (repodir arch : Str) : Option Str :=
  let path := repodir ++ "/".toList ++ arch ++ "-repodata.lock".toList
  if pathMax < path.length then none else some (path.take (pathMax - 1))

/-- `flappy_repo_lock`. -/
def flappyRepoLock (repodir arch : Str) : Prog :=
  if repositoryIsRemote repodir then .ret (-einval)
  else
    match lockPath repodir arch with
    | none => .ret (-enametoolong)
    | some path =>
      .sys (.openCreat path) fun
        | .error errno => .ret (-errno)
        | .ok fd =>
          .sys (.flock fd true) fun
            | .ok _ => .ret fd
            | .error errno =>
              if errno ≠ ewouldblock then .sys (.close fd) fun _ => .ret (-errno)
              else
                .sys (.flock fd false) fun
                  | .ok _ => .ret fd
                  | .error errno => .sys (.close fd) fun _ => .ret (-errno)

/-- The end of `flappy_repo_unlock`. -/
def flappyRepoUnlink (repodir arch : Str) : Prog :=
  match lockPath repodir arch with
  | none => .ret 0
  | some path => .sys (.unlink path) fun _ => .ret 0

/-- `flappy_repo_unlock`. -/
def flappyRepoUnlock (repodir arch : Str) (fd : Int) : Prog :=
  if fd ≠ -1 then .sys (.close 0) fun _ => flappyRepoUnlink repodir arch
  else flappyRepoUnlink repodir arch

/-! ### The kernel -/

/-- What a descriptor refers to. -/
inductive File where
  | lock (inode : Inode)
  | other
  deriving DecidableEq

def isLock : Option File → Bool
  | some (.lock _) => true
  | _ => false

/-- Directory entries of lock files, descriptors, and who has the `flock` of an inode.  An entry
is named by a `N`: paths that are spelled in different ways may name the same. -/
structure Kernel (N : Type) where
  entry : N → Option Inode
  /-- The inode of the next file. -/
  fresh : Inode
  fds : Pid → Fd → Option File
  owner : Inode → Option (Pid × Fd)

variable {N : Type} [DecidableEq N] (name : Str → N)

/-- The descriptor refers to something else now. -/
def Kernel.setFd (k : Kernel N) (p : Pid) (fd : Fd) (f : Option File) : Kernel N :=
  { k with fds := Function.update k.fds p (Function.update (k.fds p) fd f) }

/-- A closed descriptor gives its lock back. -/
def Kernel.close (k : Kernel N) (p : Pid) (fd : Fd) : Kernel N :=
  { k.setFd p fd none with
    owner := fun i => if k.owner i = some (p, fd) then none else k.owner i }

/-- A process that ends closes its descriptors. -/
def Kernel.exit (k : Kernel N) (p : Pid) : Kernel N :=
  { k with
    fds := Function.update k.fds p fun _ => none
    owner := fun i => if (k.owner i).map Prod.fst = some p then none else k.owner i }

/-- A system call that ends with the given result; `none` if it cannot end so now. -/
def Kernel.exec (k : Kernel N) (p : Pid) : SysCall → Except Nat Nat → Option (Kernel N)
  | .openCreat path, .ok fd =>
    -- the lowest descriptor that is free
    if k.fds p fd = none ∧ ∀ d < fd, k.fds p d ≠ none then
      match k.entry (name path) with
      | some i => some (k.setFd p fd (some (.lock i)))
      | none =>
        some { k.setFd p fd (some (.lock k.fresh)) with
          entry := Function.update k.entry (name path) (some k.fresh)
          fresh := k.fresh + 1 }
    else none
  | .openCreat _, .error errno => if errno = 0 then none else some k
  | .flock fd _, .ok _ =>
    match k.fds p fd with
    | some (.lock i) =>
      if k.owner i = none ∨ k.owner i = some (p, fd) then
        some { k with owner := Function.update k.owner i (some (p, fd)) }
      else none
    | _ => none
  | .flock fd nb, .error errno =>
    if errno = 0 then none
    else if errno = ewouldblock then
      match k.fds p fd with
      | some (.lock i) =>
        if nb = true ∧ k.owner i ≠ none ∧ k.owner i ≠ some (p, fd) then some k else none
      | _ => none
    else some k
  | .close fd, r =>
    match k.fds p fd, r with
    | none, .ok _ => none
    | none, .error _ => some k
    | some _, _ => some (k.close p fd)
  | .unlink path, .ok _ =>
    match k.entry (name path) with
    | none => none
    | some _ => some { k with entry := Function.update k.entry (name path) none }
  | .unlink _, .error _ => some k

/-! ### The processes -/

/-- A call of one of the functions. -/
inductive LockCall where
  | lock (repodir arch : Str)
  | unlock (repodir arch : Str) (fd : Fd)

/-- A call that is under way, with the descriptor that its lock has been opened as. -/
structure Running where
  call : LockCall
  opened : Option Fd
  prog : Prog

/-- A process. -/
structure Thread where
  /-- The locks between a successful `flappy_repo_lock` and the start of its
  `flappy_repo_unlock`. -/
  held : List (Str × Str × Fd) := []
  running : Option Running := none

structure State (N : Type) where
  kernel : Kernel N
  threads : Pid → Thread

inductive Event where
  /-- A call of one of the functions. -/
  | start (p : Pid) (call : LockCall)
  /-- The next system call ends with this result. -/
  | sys (p : Pid) (r : Except Nat Nat)
  /-- The function returns. -/
  | ret (p : Pid)
  /-- The process opens or closes a descriptor of its own, outside of the functions. -/
  | own (p : Pid) (fd : Fd) (f : Option File)
  /-- The process ends. -/
  | exit (p : Pid)

def State.setThread (s : State N) (p : Pid) (t : Thread) : State N :=
  { s with threads := Function.update s.threads p t }

/-- The descriptor of the lock, once it is open. -/
def openedBy (call : SysCall) (r : Except Nat Nat) (opened : Option Fd) : Option Fd :=
  match call, r with
  | .openCreat _, .ok fd => some fd
  | _, _ => opened

/-- A step of one of the processes; `none` if it is impossible. -/
def State.step (s : State N) : Event → Option (State N)
  | .start p (.lock repodir arch) =>
    match (s.threads p).running with
    | some _ => none
    | none =>
      some (s.setThread p { s.threads p with
        running := some ⟨.lock repodir arch, none, flappyRepoLock repodir arch⟩ })
  | .start p (.unlock repodir arch fd) =>
    match (s.threads p).running with
    | some _ => none
    | none =>
      if (repodir, arch, fd) ∈ (s.threads p).held then
        some (s.setThread p {
          held := (s.threads p).held.erase (repodir, arch, fd)
          running := some ⟨.unlock repodir arch fd, some fd, flappyRepoUnlock repodir arch fd⟩ })
      else none
  | .sys p r =>
    match (s.threads p).running with
    | some ⟨call, opened, .sys c k⟩ =>
      (s.kernel.exec name p c r).map fun kernel =>
        { s.setThread p { s.threads p with running := some ⟨call, openedBy c r opened, k r⟩ } with
          kernel := kernel }
    | _ => none
  | .ret p =>
    match (s.threads p).running with
    | some ⟨.lock repodir arch, _, .ret r⟩ =>
      if 0 ≤ r then
        some (s.setThread p {
          held := (repodir, arch, r.toNat) :: (s.threads p).held, running := none })
      else some (s.setThread p { s.threads p with running := none })
    | some ⟨.unlock .., _, .ret _⟩ =>
      some (s.setThread p { s.threads p with running := none })
    | _ => none
  | .own p fd f =>
    if (s.threads p).running.isNone ∧ isLock (s.kernel.fds p fd) = false ∧ isLock f = false then
      some { s with kernel := s.kernel.setFd p fd f }
    else none
  | .exit p => some { s.setThread p {} with kernel := s.kernel.exit p }

/-- Nobody has called the functions yet. -/
structure State.Init (s : State N) : Prop where
  threads : ∀ p, s.threads p = {}
  fds : ∀ p fd i, s.kernel.fds p fd ≠ some (.lock i)
  owner : ∀ i, s.kernel.owner i = none
  fresh : ∀ n i, s.kernel.entry n = some i → i < s.kernel.fresh

/-! ### The property and its condition -/

/-- No two processes hold the lock of one repository and architecture. -/
def Exclusive (s : State N) : Prop :=
  ∀ p q r₁ a₁ fd₁ r₂ a₂ fd₂, (r₁, a₁, fd₁) ∈ (s.threads p).held →
    (r₂, a₂, fd₂) ∈ (s.threads q).held →
    (lockPath r₁ a₁).map name = (lockPath r₂ a₂).map name → p = q

/-- The step is a system call of one of the functions and closes only the descriptor that the
lock has been opened as. -/
def ClosesOwn (s : State N) (e : Event) (s' : State N) : Prop :=
  ∀ p r, e = .sys p r → ∀ q d, s.kernel.fds q d ≠ none → s'.kernel.fds q d = none →
    q = p ∧ ∃ run, (s.threads p).running = some run ∧ run.opened = some d

/-- In every run the lock of a repository is held by one process. -/
def AlwaysExclusive : Prop :=
  ∀ s₀ : State N, s₀.Init → ∀ es s, run (State.step name) s₀ es = some s → Exclusive name s

/-- In every run a call closes only the descriptor of its lock. -/
def AlwaysClosesOwn : Prop :=
  ∀ s₀ : State N, s₀.Init → ∀ es s, run (State.step name) s₀ es = some s →
    ∀ e s', s.step name e = some s' → ClosesOwn s e s'

/-- The condition on a system call of a function: where a lock is taken its file still has its
name; a name is not removed while the lock of its file belongs to somebody else; closing
descriptor 0 on behalf of another descriptor finds it closed. -/
def OrderlyCall (k : Kernel N) (p : Pid) (r : Except Nat Nat) : LockCall → SysCall → Prop
  | .lock repodir arch, .flock fd _ =>
    r.isOk → ∃ path ∈ lockPath repodir arch, ∃ i ∈ k.entry (name path),
      k.fds p fd = some (.lock i)
  | .unlock _ _ fd, .close _ => fd = 0 ∨ k.fds p 0 = none
  | .unlock _ _ fd, .unlink path =>
    ∀ i ∈ k.entry (name path), ∀ o ∈ k.owner i, o = (p, fd)
  | _, _ => True

instance (k : Kernel N) (p : Pid) (r : Except Nat Nat) (call : LockCall) (c : SysCall) :
    Decidable (OrderlyCall name k p r call c) := by
  unfold OrderlyCall
  split <;> infer_instance

/-- The condition on a step. -/
def Orderly (s : State N) : Event → Prop
  | .sys p r =>
    match (s.threads p).running with
    | some ⟨call, _, .sys c _⟩ => OrderlyCall name s.kernel p r call c
    | _ => True
  | _ => True

instance (s : State N) (e : Event) : Decidable (Orderly name s e) := by
  unfold Orderly
  split
  · split <;> infer_instance
  · infer_instance

/-! ### What the programs may do -/

/-- How a call of `flappy_repo_lock` may go on: it opens its path, takes the lock of this
descriptor, closes the descriptor only without the lock, and succeeds only with it. -/
def Prog.LockSpec (repodir arch : Str) (opened : Option Fd) (locked : Prop) : Prog → Prop
  | .ret r => 0 ≤ r → locked ∧ opened = some r.toNat
  | .sys (.openCreat path) k => lockPath repodir arch = some path ∧ ¬locked ∧
    (∀ errno ≠ 0, (k (.error errno)).LockSpec repodir arch opened locked) ∧
      ∀ fd, (k (.ok fd)).LockSpec repodir arch (some fd) locked
  | .sys (.flock fd _) k => opened = some fd ∧ ¬locked ∧
    (∀ errno ≠ 0, (k (.error errno)).LockSpec repodir arch opened locked) ∧
      ∀ v, (k (.ok v)).LockSpec repodir arch opened True
  | .sys (.close fd) k => opened = some fd ∧ ¬locked ∧
    ∀ r, (k r).LockSpec repodir arch opened locked
  | .sys (.unlink _) _ => False

/-- How a call of `flappy_repo_unlock` may go on. -/
def Prog.UnlockSpec : Prog → Prop
  | .ret _ => True
  | .sys (.close fd) k => fd = 0 ∧ ∀ r, (k r).UnlockSpec
  | .sys (.unlink _) k => ∀ r, (k r).UnlockSpec
  | .sys _ _ => False

private theorem neg_errno {errno : Nat} (h : errno ≠ 0) : ¬ (0 : Int) ≤ -(errno : Int) := by
  omega

theorem lockSpec_flappyRepoLock (repodir arch : Str) :
    (flappyRepoLock repodir arch).LockSpec repodir arch none False := by
  unfold flappyRepoLock
  split
  · exact fun h => absurd h (by decide)
  · split
    · exact fun h => absurd h (by decide)
    · rename_i path hpath
      refine ⟨hpath, id, fun errno he h => absurd h (neg_errno he), fun fd => ?_⟩
      refine ⟨rfl, id, fun errno he => ?_, fun _ _ => ⟨trivial, rfl⟩⟩
      show Prog.LockSpec _ _ _ _ (if _ then _ else _)
      split
      · exact ⟨rfl, id, fun _ h => absurd h (neg_errno he)⟩
      · exact ⟨rfl, id, fun errno he => ⟨rfl, id, fun _ h => absurd h (neg_errno he)⟩,
          fun _ _ => ⟨trivial, rfl⟩⟩

theorem unlockSpec_flappyRepoUnlock (repodir arch : Str) (fd : Int) :
    (flappyRepoUnlock repodir arch fd).UnlockSpec := by
  have hunlink : (flappyRepoUnlink repodir arch).UnlockSpec := by
    unfold flappyRepoUnlink
    split
    · trivial
    · exact fun _ => trivial
  unfold flappyRepoUnlock
  split
  · exact ⟨rfl, fun _ => hunlink⟩
  · exact hunlink

/-! ### The kernel keeps what is owned -/

/-- A lock belongs to an open descriptor of its file. -/
def Kernel.OwnersOpen (k : Kernel N) : Prop :=
  ∀ i p fd, k.owner i = some (p, fd) → k.fds p fd = some (.lock i)

/-- A lock of this descriptor, on a file that has its name, is still there. -/
def Kernel.Keeps (k k' : Kernel N) (p : Pid) (fd : Fd) : Prop :=
  ∀ n i, k.entry n = some i → k.owner i = some (p, fd) →
    k'.entry n = some i ∧ k'.owner i = some (p, fd)

/-- The descriptor has the lock of the file that the name refers to. -/
def Kernel.Owns (k : Kernel N) (p : Pid) (repodir arch : Str) (fd : Fd) : Prop :=
  ∃ path i, lockPath repodir arch = some path ∧ k.entry (name path) = some i ∧
    k.owner i = some (p, fd)

variable {name} {k k' : Kernel N} {p q : Pid} {fd d : Fd} {f : Option File}

omit [DecidableEq N] in
theorem Kernel.Owns.keep {r a : Str} (h : k.Owns name p r a fd) (hk : k.Keeps k' p fd) :
    k'.Owns name p r a fd := by
  obtain ⟨path, i, hpath, hentry, howner⟩ := h
  exact ⟨path, i, hpath, hk _ i hentry howner⟩

omit [DecidableEq N] in
theorem Kernel.Owns.fds (h : k.OwnersOpen) {r a : Str} (ho : k.Owns name p r a fd) :
    k.fds p fd ≠ none := by
  obtain ⟨path, i, -, -, howner⟩ := ho
  rw [h i p fd howner]
  nofun

omit [DecidableEq N] in
@[simp] theorem Kernel.setFd_fds_self : (k.setFd p fd f).fds p fd = f := by
  simp [Kernel.setFd]

omit [DecidableEq N] in
theorem Kernel.setFd_fds_of_ne (h : (q, d) ≠ (p, fd)) : (k.setFd p fd f).fds q d = k.fds q d := by
  by_cases hq : q = p
  · subst hq
    have hd : d ≠ fd := fun hd => h (by rw [hd])
    simp [Kernel.setFd, Function.update_of_ne hd]
  · simp [Kernel.setFd, Function.update_of_ne hq]

omit [DecidableEq N] in
/-- A descriptor without a lock may come to refer to anything. -/
theorem Kernel.OwnersOpen.setFd (h : k.OwnersOpen) (hfd : ∀ i, k.fds p fd ≠ some (.lock i)) :
    (k.setFd p fd f).OwnersOpen := by
  intro i q d hown
  have hopen := h i q d hown
  rw [Kernel.setFd_fds_of_ne, hopen]
  rintro ⟨⟩
  exact hfd i hopen

omit [DecidableEq N] in
theorem Kernel.close_owner {i : Inode} {o : Pid × Fd} :
    (k.close p fd).owner i = some o ↔ k.owner i = some o ∧ o ≠ (p, fd) := by
  simp only [Kernel.close]
  split
  · rename_i h
    simp [h, eq_comm]
  · rename_i h
    exact ⟨fun ho => ⟨ho, fun e => h (e ▸ ho)⟩, And.left⟩

omit [DecidableEq N] in
theorem Kernel.OwnersOpen.close (h : k.OwnersOpen) : (k.close p fd).OwnersOpen := by
  intro i q d hown
  obtain ⟨hown, hne⟩ := close_owner.mp hown
  exact (setFd_fds_of_ne hne).trans (h i q d hown)

omit [DecidableEq N] in
theorem Kernel.exit_owner {i : Inode} {o : Pid × Fd} :
    (k.exit p).owner i = some o ↔ k.owner i = some o ∧ o.1 ≠ p := by
  simp only [Kernel.exit]
  split
  · rename_i h
    obtain ⟨o', ho', rfl⟩ := Option.map_eq_some_iff.mp h
    simp only [reduceCtorEq, ho', Option.some.injEq, false_iff, not_and, not_not]
    rintro rfl
    rfl
  · rename_i h
    exact ⟨fun ho => ⟨ho, fun e => h (by simp [ho, e])⟩, And.left⟩

omit [DecidableEq N] in
theorem Kernel.OwnersOpen.exit (h : k.OwnersOpen) : (k.exit p).OwnersOpen := by
  intro i q d hown
  obtain ⟨hown, hne⟩ := exit_owner.mp hown
  exact (congrFun (Function.update_of_ne hne _ _) d).trans (h i q d hown)

/-- What a system call can do. -/
theorem Kernel.exec_cases {c : SysCall} {r : Except Nat Nat} (h : k.exec name p c r = some k') :
    (∃ path fd i, c = .openCreat path ∧ r = .ok fd ∧ k.fds p fd = none ∧
      k'.fds = (k.setFd p fd (some (.lock i))).fds ∧ k'.owner = k.owner ∧
      ∀ n j, k.entry n = some j → k'.entry n = some j) ∨
    (∃ fd nb v i, c = .flock fd nb ∧ r = .ok v ∧ k.fds p fd = some (.lock i) ∧
      (k.owner i = none ∨ k.owner i = some (p, fd)) ∧
      k' = { k with owner := Function.update k.owner i (some (p, fd)) }) ∨
    (∃ fd, c = .close fd ∧ k.fds p fd ≠ none ∧ k' = k.close p fd) ∨
    (∃ path v, c = .unlink path ∧ r = .ok v ∧
      k' = { k with entry := Function.update k.entry (name path) none }) ∨
    (k' = k ∧ (∀ fd, c = .close fd → k.fds p fd = none) ∧ ∃ errno, r = .error errno ∧
      ((∃ path, c = .openCreat path) ∨ (∃ fd nb, c = .flock fd nb) → errno ≠ 0)) := by
  cases c with
  | openCreat path =>
    cases r with
    | error errno =>
      simp only [exec, Option.ite_none_left_eq_some, Option.some.injEq] at h
      exact .inr (.inr (.inr (.inr ⟨h.2.symm, nofun, errno, rfl, fun _ => h.1⟩)))
    | ok fd =>
      simp only [exec, Option.ite_none_right_eq_some] at h
      obtain ⟨⟨hfree, -⟩, h⟩ := h
      refine .inl ⟨path, fd, ?_⟩
      split at h
      · rename_i i hentry
        cases h
        exact ⟨i, rfl, rfl, hfree, rfl, rfl, fun _ _ => id⟩
      · rename_i hentry
        cases h
        refine ⟨k.fresh, rfl, rfl, hfree, rfl, rfl, fun n j hj => ?_⟩
        have hne : n ≠ name path := by
          rintro rfl
          exact nomatch hentry.symm.trans hj
        exact (Function.update_of_ne hne _ _).trans hj
  | flock fd nb =>
    cases r with
    | error errno =>
      have hk : k' = k ∧ errno ≠ 0 := by
        simp only [exec, Option.ite_none_left_eq_some] at h
        refine ⟨?_, h.1⟩
        have h := h.2
        split at h
        · split at h
          · split at h <;> cases h
            rfl
          · cases h
        · cases h
          rfl
      exact .inr (.inr (.inr (.inr ⟨hk.1, nofun, errno, rfl, fun _ => hk.2⟩)))
    | ok v =>
      refine .inr (.inl ⟨fd, nb, v, ?_⟩)
      simp only [exec] at h
      split at h
      · rename_i i hfd
        split at h <;> cases h
        exact ⟨i, rfl, rfl, hfd, by assumption, rfl⟩
      · cases h
  | close fd =>
    simp only [exec] at h
    split at h
    · cases h
    · rename_i errno hfd
      cases h
      refine .inr (.inr (.inr (.inr ⟨rfl, ?_, errno, rfl, ?_⟩)))
      · rintro _ ⟨⟩
        exact hfd
      · rintro (⟨_, ⟨⟩⟩ | ⟨_, _, ⟨⟩⟩)
    · rename_i f hfd
      cases h
      exact .inr (.inr (.inl ⟨fd, rfl, by simp [hfd], rfl⟩))
  | unlink path =>
    cases r with
    | error errno =>
      cases h
      refine .inr (.inr (.inr (.inr ⟨rfl, nofun, errno, rfl, ?_⟩)))
      rintro (⟨_, ⟨⟩⟩ | ⟨_, _, ⟨⟩⟩)
    | ok v =>
      refine .inr (.inr (.inr (.inl ⟨path, v, rfl, rfl, ?_⟩)))
      simp only [exec] at h
      split at h <;> cases h
      rfl

theorem Kernel.OwnersOpen.exec {c : SysCall} {r : Except Nat Nat} (h : k.OwnersOpen)
    (hexec : k.exec name p c r = some k') : k'.OwnersOpen := by
  rcases exec_cases hexec with ⟨_, fd, i, -, -, hfree, hfds, hown, -⟩ |
      ⟨fd, _, _, i, -, -, hfd, hfree, rfl⟩ | ⟨fd, -, -, rfl⟩ | ⟨_, _, -, -, rfl⟩ | ⟨rfl, -⟩
  · intro j q d ho
    rw [hfds]
    exact h.setFd (by simp [hfree]) j q d (hown ▸ ho)
  · intro j q d ho
    by_cases hj : j = i
    · subst hj
      obtain ⟨rfl, rfl⟩ : p = q ∧ fd = d := by simpa using ho
      exact hfd
    · exact h j q d (by simpa [Function.update_of_ne hj] using ho)
  · exact h.close
  · exact h
  · exact h

/-- A system call does away with a lock only if it closes its descriptor or removes its name. -/
theorem Kernel.exec_keeps {c : SysCall} {r : Except Nat Nat} (h : k.OwnersOpen)
    (hexec : k.exec name p c r = some k')
    (hclose : ∀ fd, c = .close fd → k.fds p fd = none ∨ (q, d) ≠ (p, fd))
    (hunlink : ∀ path, c = .unlink path → ∀ i, k.entry (name path) = some i →
      k.owner i ≠ some (q, d)) : k.Keeps k' q d := by
  intro n i hentry ho
  rcases exec_cases hexec with ⟨_, fd, j, -, -, -, -, hown, hkeep⟩ |
      ⟨fd, _, _, j, -, -, -, hfree, rfl⟩ | ⟨fd, rfl, hopen, rfl⟩ | ⟨path, _, rfl, -, rfl⟩ | ⟨rfl, -⟩
  · exact ⟨hkeep n i hentry, hown ▸ ho⟩
  · refine ⟨hentry, ?_⟩
    by_cases hi : i = j
    · subst hi
      rcases hfree with hfree | hfree
      · exact nomatch hfree.symm.trans ho
      · simpa [hfree] using ho
    · simpa [Function.update_of_ne hi] using ho
  · refine ⟨hentry, close_owner.mpr ⟨ho, ?_⟩⟩
    exact (hclose fd rfl).resolve_left hopen
  · refine ⟨?_, ho⟩
    have hne : n ≠ name path := by
      rintro rfl
      exact hunlink path rfl i hentry ho
    exact (Function.update_of_ne hne _ _).trans hentry
  · exact ⟨hentry, ho⟩

/-! ### The invariant -/

/-- The descriptors of the locks of a process. -/
def Thread.heldFds (t : Thread) : List Fd := t.held.map fun l => l.2.2

theorem Thread.mem_heldFds {t : Thread} {r a : Str} (h : (r, a, fd) ∈ t.held) : fd ∈ t.heldFds :=
  List.mem_map.mpr ⟨_, h, rfl⟩

/-- What holds of a call that is under way. -/
def RunningOk (name : Str → N) (k : Kernel N) (p : Pid) (heldFds : List Fd) (run : Running) :
    Prop :=
  match run.call with
  | .lock r a => (∀ fd, run.opened = some fd → fd ∉ heldFds) ∧
      ∃ locked : Prop, run.prog.LockSpec r a run.opened locked ∧
        (locked → ∀ fd, run.opened = some fd → k.Owns name p r a fd)
  | .unlock _ _ fd => run.opened = some fd ∧ run.prog.UnlockSpec ∧ fd ∉ heldFds

/-- What holds of a process. -/
structure ThreadOk (name : Str → N) (k : Kernel N) (p : Pid) (t : Thread) : Prop where
  owns : ∀ r a fd, (r, a, fd) ∈ t.held → k.Owns name p r a fd
  nodup : t.heldFds.Nodup
  running : ∀ run, t.running = some run → RunningOk name k p t.heldFds run

/-- The invariant. -/
structure Inv (name : Str → N) (s : State N) : Prop where
  owners : s.kernel.OwnersOpen
  threads : ∀ p, ThreadOk name s.kernel p (s.threads p)

omit [DecidableEq N] in
theorem RunningOk.keep {heldFds : List Fd} {run : Running} (h : RunningOk name k p heldFds run)
    (hk : ∀ fd, k.Keeps k' p fd) : RunningOk name k' p heldFds run := by
  unfold RunningOk at h ⊢
  split
  · rename_i r a hcall
    rw [hcall] at h
    obtain ⟨hnew, locked, hspec, hown⟩ := h
    exact ⟨hnew, locked, hspec, fun hl fd hfd => (hown hl fd hfd).keep (hk fd)⟩
  · rename_i hcall
    rw [hcall] at h
    exact h

omit [DecidableEq N] in
theorem ThreadOk.keep {t : Thread} (h : ThreadOk name k p t) (hk : ∀ fd, k.Keeps k' p fd) :
    ThreadOk name k' p t where
  owns r a fd hheld := (h.owns r a fd hheld).keep (hk fd)
  nodup := h.nodup
  running run hrun := (h.running run hrun).keep hk

omit [DecidableEq N] in
theorem Inv.init {s : State N} (h : s.Init) : Inv name s where
  owners i p fd ho := nomatch (h.owner i).symm.trans ho
  threads p := by
    rw [h.threads p]
    exact ⟨nofun, List.nodup_nil, nofun⟩

omit [DecidableEq N] in
/-- Only the process has changed. -/
theorem Inv.setThread {s : State N} (h : Inv name s) {t : Thread}
    (ht : ThreadOk name s.kernel p t) : Inv name (s.setThread p t) where
  owners := h.owners
  threads q := by
    by_cases hq : q = p
    · subst hq
      simpa [State.setThread] using ht
    · simpa [State.setThread, Function.update_of_ne hq] using h.threads q

omit [DecidableEq N] in
/-- The other processes keep what they own. -/
theorem Inv.setKernel {s : State N} (h : Inv name s) {t : Thread} (howners : k'.OwnersOpen)
    (ht : ThreadOk name k' p t) (hkeep : ∀ q ≠ p, ∀ fd, s.kernel.Keeps k' q fd) :
    Inv name { s.setThread p t with kernel := k' } where
  owners := howners
  threads q := by
    by_cases hq : q = p
    · subst hq
      simpa [State.setThread] using ht
    · simpa [State.setThread, Function.update_of_ne hq] using (h.threads q).keep (hkeep q hq)

theorem Inv.start {s s' : State N} (h : Inv name s) {call : LockCall}
    (hstep : s.step name (.start p call) = some s') : Inv name s' := by
  have ht := h.threads p
  cases call with
  | lock r a =>
    simp only [State.step] at hstep
    split at hstep <;> cases hstep
    refine h.setThread ⟨ht.owns, ht.nodup, ?_⟩
    rintro run ⟨⟩
    exact ⟨nofun, False, lockSpec_flappyRepoLock r a, False.elim⟩
  | unlock r a fd =>
    simp only [State.step] at hstep
    split at hstep
    · cases hstep
    · split at hstep <;> cases hstep
      rename_i hheld
      have hperm := (List.perm_cons_erase hheld).map fun l => l.2.2
      have hnodup := List.nodup_cons.mp (hperm.nodup ht.nodup)
      refine h.setThread ⟨fun r a fd hl => ht.owns r a fd (List.mem_of_mem_erase hl), hnodup.2, ?_⟩
      rintro run ⟨⟩
      exact ⟨rfl, unlockSpec_flappyRepoUnlock r a fd, hnodup.1⟩

theorem Inv.ret {s s' : State N} (h : Inv name s) (hstep : s.step name (.ret p) = some s') :
    Inv name s' := by
  have ht := h.threads p
  simp only [State.step] at hstep
  split at hstep
  · rename_i r a opened rv hrun
    obtain ⟨hnew, locked, hspec, hown⟩ := ht.running _ hrun
    split at hstep <;> cases hstep
    · rename_i hrv
      obtain ⟨hlocked, hopened⟩ := hspec hrv
      refine h.setThread ⟨?_, List.nodup_cons.mpr ⟨hnew _ hopened, ht.nodup⟩, nofun⟩
      intro r' a' fd' hl
      rcases List.mem_cons.mp hl with heq | hl
      · cases heq
        exact hown hlocked _ hopened
      · exact ht.owns r' a' fd' hl
    · exact h.setThread ⟨ht.owns, ht.nodup, nofun⟩
  · cases hstep
    exact h.setThread ⟨ht.owns, ht.nodup, nofun⟩
  · cases hstep

theorem Inv.own {s s' : State N} (h : Inv name s)
    (hstep : s.step name (.own p fd f) = some s') : Inv name s' := by
  have hset : (∀ i, s.kernel.fds p fd ≠ some (.lock i)) ∧
      s' = { s with kernel := s.kernel.setFd p fd f } := by
    simp only [State.step, Option.ite_none_right_eq_some] at hstep
    obtain ⟨⟨-, hfd, -⟩, ⟨⟩⟩ := hstep
    exact ⟨fun i hi => by simp [hi, isLock] at hfd, rfl⟩
  obtain ⟨hlock, rfl⟩ := hset
  exact ⟨h.owners.setFd hlock, fun q => (h.threads q).keep fun d n i hentry ho => ⟨hentry, ho⟩⟩

theorem Inv.exit {s s' : State N} (h : Inv name s)
    (hstep : s.step name (.exit p) = some s') : Inv name s' := by
  cases hstep
  refine h.setKernel h.owners.exit ⟨nofun, List.nodup_nil, nofun⟩ fun q hq fd n i hentry ho => ?_
  exact ⟨hentry, Kernel.exit_owner.mpr ⟨ho, hq⟩⟩

section
variable {heldFds : List Fd} {call : LockCall} {opened : Option Fd} {c : SysCall}
  {cont : Except Nat Nat → Prog} {r : Except Nat Nat}

omit [DecidableEq N] in
/-- A call closes no descriptor of another lock. -/
theorem RunningOk.close_ne (h : RunningOk name k p heldFds ⟨call, opened, .sys c cont⟩)
    (hok : OrderlyCall name k p r call c) (hd : q ≠ p ∨ d ∈ heldFds) :
    ∀ fd, c = .close fd → k.fds p fd = none ∨ (q, d) ≠ (p, fd) := by
  rintro fd rfl
  by_contra! hne
  obtain ⟨hopen, ⟨⟩⟩ := hne
  have hd : d ∈ heldFds := hd.resolve_left fun h => h rfl
  cases call with
  | lock r a =>
    obtain ⟨hnew, _, ⟨hopened, -⟩, -⟩ := h
    exact hnew d hopened hd
  | unlock r a fd =>
    obtain ⟨-, ⟨rfl, -⟩, hnew⟩ := h
    rcases hok with rfl | hok
    · exact hnew hd
    · exact hopen hok

omit [DecidableEq N] in
/-- A call removes no name that another lock needs. -/
theorem RunningOk.unlink_ne (h : RunningOk name k p heldFds ⟨call, opened, .sys c cont⟩)
    (hok : OrderlyCall name k p r call c) (hd : q ≠ p ∨ d ∈ heldFds) :
    ∀ path, c = .unlink path → ∀ i, k.entry (name path) = some i → k.owner i ≠ some (q, d) := by
  rintro path rfl i hentry ho
  cases call with
  | lock r a =>
    obtain ⟨-, _, hspec, -⟩ := h
    exact hspec
  | unlock r a fd =>
    obtain ⟨-, -, hnew⟩ := h
    obtain ⟨rfl, rfl⟩ := Prod.mk.inj (hok i hentry _ ho)
    rcases hd with hq | hd
    · exact hq rfl
    · exact hnew hd

/-- The call goes on. -/
theorem RunningOk.exec (h : RunningOk name k p heldFds ⟨call, opened, .sys c cont⟩)
    (hheld : ∀ fd ∈ heldFds, k.fds p fd ≠ none) (hok : OrderlyCall name k p r call c)
    (hexec : k.exec name p c r = some k') :
    RunningOk name k' p heldFds ⟨call, openedBy c r opened, cont r⟩ := by
  cases call with
  | unlock r' a' fd =>
    obtain ⟨hopened, hspec, hnew⟩ := h
    cases c with
    | close fd' => exact ⟨hopened, hspec.2 r, hnew⟩
    | unlink path => exact ⟨hopened, hspec r, hnew⟩
    | openCreat path => exact hspec.elim
    | flock fd' nb => exact hspec.elim
  | lock r' a' =>
    obtain ⟨hnew, locked, hspec, -⟩ := h
    cases c with
    | openCreat path =>
      obtain ⟨-, hlocked, herror, hsucc⟩ := hspec
      cases r with
      | error errno =>
        have he : errno ≠ 0 := by
          simp only [Kernel.exec, Option.ite_none_left_eq_some] at hexec
          exact hexec.1
        exact ⟨hnew, locked, herror errno he, fun hl => (hlocked hl).elim⟩
      | ok fd =>
        simp only [Kernel.exec, Option.ite_none_right_eq_some] at hexec
        refine ⟨?_, locked, hsucc fd, fun hl => (hlocked hl).elim⟩
        rintro _ ⟨⟩ hfd
        exact hheld fd hfd hexec.1.1
    | flock fd nb =>
      obtain ⟨rfl, hlocked, herror, hsucc⟩ := hspec
      cases r with
      | error errno =>
        have he : errno ≠ 0 := by
          simp only [Kernel.exec, Option.ite_none_left_eq_some] at hexec
          exact hexec.1
        exact ⟨hnew, locked, herror errno he, fun hl => (hlocked hl).elim⟩
      | ok v =>
        refine ⟨hnew, True, hsucc v, ?_⟩
        rintro - _ ⟨⟩
        obtain ⟨path, hpath, i, hentry, hfd⟩ := hok rfl
        simp only [Kernel.exec, hfd, Option.ite_none_right_eq_some] at hexec
        obtain ⟨-, ⟨⟩⟩ := hexec
        exact ⟨path, i, hpath, hentry, Function.update_self ..⟩
    | close fd =>
      obtain ⟨-, hlocked, hnext⟩ := hspec
      exact ⟨hnew, locked, hnext r, fun hl => (hlocked hl).elim⟩
    | unlink path => exact hspec.elim

end

theorem State.step_sys {s s' : State N} {r : Except Nat Nat}
    (hstep : s.step name (.sys p r) = some s') :
    ∃ call opened c cont kernel, (s.threads p).running = some ⟨call, opened, .sys c cont⟩ ∧
      s.kernel.exec name p c r = some kernel ∧
      s' = { s.setThread p { s.threads p with
        running := some ⟨call, openedBy c r opened, cont r⟩ } with kernel := kernel } := by
  simp only [State.step] at hstep
  split at hstep
  · rename_i call opened c cont hrun
    obtain ⟨kernel, hexec, rfl⟩ := Option.map_eq_some_iff.mp hstep
    exact ⟨call, opened, c, cont, kernel, hrun, hexec, rfl⟩
  · cases hstep

theorem Inv.sys {s s' : State N} (h : Inv name s) {r : Except Nat Nat}
    (hok : Orderly name s (.sys p r)) (hstep : s.step name (.sys p r) = some s') :
    Inv name s' := by
  obtain ⟨call, opened, c, cont, kernel, hrun, hexec, rfl⟩ := State.step_sys hstep
  have ht := h.threads p
  have hrunning := ht.running _ hrun
  replace hok : OrderlyCall name s.kernel p r call c := by simpa only [Orderly, hrun] using hok
  have hkeep : ∀ q fd, q ≠ p ∨ fd ∈ (s.threads p).heldFds → s.kernel.Keeps kernel q fd :=
    fun q fd hd => Kernel.exec_keeps h.owners hexec (hrunning.close_ne hok hd)
      (hrunning.unlink_ne hok hd)
  have hheld : ∀ fd ∈ (s.threads p).heldFds, s.kernel.fds p fd ≠ none := by
    intro fd hfd
    obtain ⟨⟨r, a, fd⟩, hl, rfl⟩ := List.mem_map.mp hfd
    exact (ht.owns r a fd hl).fds h.owners
  refine h.setKernel (h.owners.exec hexec) ⟨?_, ht.nodup, ?_⟩ fun q hq fd => hkeep q fd (.inl hq)
  · intro r a fd hl
    exact (ht.owns r a fd hl).keep (hkeep p fd (.inr (Thread.mem_heldFds hl)))
  · rintro run ⟨⟩
    exact hrunning.exec hheld hok hexec

/-- Every orderly step keeps the invariant. -/
theorem Inv.step {s s' : State N} {e : Event} (h : Inv name s) (hok : Orderly name s e)
    (hstep : s.step name e = some s') : Inv name s' := by
  cases e with
  | start p call => exact h.start hstep
  | sys p r => exact h.sys hok hstep
  | ret p => exact h.ret hstep
  | own p fd f => exact h.own hstep
  | exit p => exact h.exit hstep

/-! ### Exclusion -/

omit [DecidableEq N] in
/-- One file has one owner. -/
theorem Inv.exclusive {s : State N} (h : Inv name s) : Exclusive name s := by
  intro p q r₁ a₁ fd₁ r₂ a₂ fd₂ h₁ h₂ hsame
  obtain ⟨path₁, i₁, hp₁, hentry₁, ho₁⟩ := (h.threads p).owns _ _ _ h₁
  obtain ⟨path₂, i₂, hp₂, hentry₂, ho₂⟩ := (h.threads q).owns _ _ _ h₂
  have hname : name path₁ = name path₂ := by simpa [hp₁, hp₂] using hsame
  have hi : i₁ = i₂ := Option.some.inj (hentry₁.symm.trans ((congrArg _ hname).trans hentry₂))
  subst hi
  exact (Prod.mk.inj (Option.some.inj (ho₁.symm.trans ho₂))).1

/-- The only descriptor that a system call closes is the one it is told to close. -/
theorem Kernel.exec_closes {c : SysCall} {r : Except Nat Nat}
    (hexec : k.exec name p c r = some k') (hopen : k.fds q d ≠ none)
    (hclosed : k'.fds q d = none) : q = p ∧ c = .close d := by
  rcases exec_cases hexec with ⟨_, fd, i, -, -, -, hfds, -⟩ |
      ⟨_, _, _, _, -, -, -, -, rfl⟩ | ⟨fd, rfl, -, rfl⟩ | ⟨_, _, -, -, rfl⟩ | ⟨rfl, -⟩
  · rw [hfds] at hclosed
    by_cases he : (q, d) = (p, fd)
    · obtain ⟨rfl, rfl⟩ := Prod.mk.inj he
      simp at hclosed
    · exact absurd ((setFd_fds_of_ne he).symm.trans hclosed) hopen
  · exact absurd hclosed hopen
  · by_cases he : (q, d) = (p, fd)
    · obtain ⟨rfl, rfl⟩ := Prod.mk.inj he
      exact ⟨rfl, rfl⟩
    · exact absurd ((setFd_fds_of_ne he).symm.trans hclosed) hopen
  · exact absurd hclosed hopen
  · exact absurd hclosed hopen

theorem Inv.closesOwn {s s' : State N} {e : Event} (h : Inv name s) (hok : Orderly name s e)
    (hstep : s.step name e = some s') : ClosesOwn s e s' := by
  rintro p r rfl q d hopen hclosed
  obtain ⟨call, opened, c, cont, kernel, hrun, hexec, rfl⟩ := State.step_sys hstep
  obtain ⟨rfl, rfl⟩ := Kernel.exec_closes hexec hopen hclosed
  refine ⟨rfl, _, hrun, ?_⟩
  have hrunning := (h.threads q).running _ hrun
  replace hok : OrderlyCall name s.kernel q r call (.close d) := by
    simpa only [Orderly, hrun] using hok
  cases call with
  | lock r a =>
    obtain ⟨-, _, ⟨hopened, -⟩, -⟩ := hrunning
    exact hopened
  | unlock r a fd =>
    obtain ⟨hopened, ⟨rfl, -⟩, -⟩ := hrunning
    rcases hok with rfl | hok
    · exact hopened
    · exact absurd hok hopen

variable (name) in
/-- In a run of orderly steps the lock of a repository is held by one process, and a call closes
only the descriptor that its lock has been opened as. -/
theorem repoLock_exclusive {s₀ s : State N} {es : List Event} (hinit : s₀.Init)
    (hok : Along (State.step name) (Orderly name) s₀ es)
    (hrun : run (State.step name) s₀ es = some s) :
    Exclusive name s ∧
      ∀ e s', Orderly name s e → s.step name e = some s' → ClosesOwn s e s' := by
  have hinv : Inv name s :=
    run_invariant (fun _ _ _ h hok hstep => h.step hok hstep) (Inv.init hinit) hok hrun
  exact ⟨hinv.exclusive, fun e s' hok hstep => hinv.closesOwn hok hstep⟩

/-- Processes with standard input, and processes without. -/
def lockInit (stdin : Bool) : State Str where
  kernel :=
    { entry := fun _ => none, fresh := 0, owner := fun _ => none
      fds := fun _ fd => if fd = 1 ∨ fd = 2 ∨ (fd = 0 ∧ stdin) then some .other else none }
  threads _ := {}

theorem lockInit_init (stdin : Bool) : (lockInit stdin).Init where
  threads _ := rfl
  fds p fd i := by
    simp only [lockInit]
    split <;> nofun
  owner _ := rfl
  fresh := nofun

/-- The process locks the repository at once. -/
def locks (p : Pid) (fd : Fd) : List Event :=
  [.start p (.lock ['r'] ['a']), .sys p (.ok fd), .sys p (.ok 0), .ret p]

/-- The process unlocks it. -/
def unlocks (p : Pid) (fd : Fd) : List Event :=
  [.start p (.unlock ['r'] ['a'] fd), .sys p (.ok 0), .sys p (.ok 0), .ret p]

/-- The second process waits for the lock while the first has it; the first removes the name and
ends, and the third creates a new file. -/
def lockRace : List Event :=
  locks 0 3 ++ [.start 1 (.lock ['r'] ['a']), .sys 1 (.ok 3), .sys 1 (.error ewouldblock)] ++
    unlocks 0 3 ++ [.exit 0] ++ [.sys 1 (.ok 0), .ret 1] ++ locks 2 3

/-- A process with standard input open closes it when it unlocks. -/
def unlockStart : List Event := locks 0 3 ++ [.start 0 (.unlock ['r'] ['a'] 3)]

theorem lockRace_fails :
    ¬ AlwaysExclusive (id : Str → Str) ∧ ¬ AlwaysClosesOwn (id : Str → Str) := by
  constructor
  · intro h
    have hrace : (run (State.step id) (lockInit true) lockRace).map
        (fun s => ((s.threads 1).held, (s.threads 2).held)) =
          some ([(['r'], ['a'], 3)], [(['r'], ['a'], 3)]) := by
      decide +kernel
    obtain ⟨s, hrun, hheld⟩ := Option.map_eq_some_iff.mp hrace
    obtain ⟨h₁, h₂⟩ := Prod.mk.inj hheld
    exact absurd (h _ (lockInit_init true) _ s hrun 1 2 _ _ _ _ _ _ (h₁ ▸ List.mem_cons_self)
      (h₂ ▸ List.mem_cons_self) rfl) (by decide)
  · intro h
    have hunlock : (run (State.step id) (lockInit true) unlockStart).map
        (fun s => ((s.step id (.sys 0 (.ok 0))).map fun s' => s'.kernel.fds 0 0,
          s.kernel.fds 0 0, (s.threads 0).running.map Running.opened)) =
          some (some none, some .other, some (some 3)) := by
      decide +kernel
    obtain ⟨s, hrun, hs⟩ := Option.map_eq_some_iff.mp hunlock
    simp only [Prod.mk.injEq] at hs
    obtain ⟨hstep, hopen, hopened⟩ := hs
    obtain ⟨s', hstep, hclosed⟩ := Option.map_eq_some_iff.mp hstep
    obtain ⟨-, run, hrunning, hzero⟩ :=
      h _ (lockInit_init true) _ s hrun _ s' hstep 0 _ rfl 0 0 (by simp [hopen]) hclosed
    rw [hrunning] at hopened
    exact absurd (hzero.symm.trans (Option.some.inj hopened)) (by decide)

/-- Two processes without standard input, one after the other. -/
def lockTurns : List Event := locks 0 0 ++ unlocks 0 0 ++ locks 1 0

theorem lockTurns_exclusive :
    ∃ s, run (State.step id) (lockInit false) lockTurns = some s ∧
      (s.threads 1).held = [(['r'], ['a'], 0)] ∧ Exclusive (id : Str → Str) s := by
  have hheld : (run (State.step id) (lockInit false) lockTurns).map
      (fun s => (s.threads 1).held) = some [(['r'], ['a'], 0)] := by
    decide +kernel
  obtain ⟨s, hrun, hheld⟩ := Option.map_eq_some_iff.mp hheld
  exact ⟨s, hrun, hheld,
    (repoLock_exclusive id (lockInit_init false) (by decide +kernel) hrun).1⟩

end Flappy.RepoLock
