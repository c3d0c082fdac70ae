/-
Requests (`lib/transaction_ops.c`).

A request finds a package in the repositories, decides what is to be done with
it and puts a copy into the transaction.  The dictionary in the repository's
index is changed on the way: it takes over the modes of the installed package,
and gets a state and a transaction type.

* `transLookup` — the first half of `trans_find_pkg`: which installed package
  is consulted, and which package of the repositories answers;
* `transQueue` — the second half: the type of the entry, and the store;
* `Session` — the requests of a program, with the calls of `trans_find_pkg`
  they made.
-/
import Flappy.Orphans
import Flappy.Rpool
import Flappy.Store

open CStr

namespace Flappy

/-- The handle, the repository pool and the transaction dictionary; a dictionary
that does not exist yet counts as one with empty arrays. -/
structure State where
  xhp : Handle
  pool : Rpool := {}
  packages : List PkgDict := []
  /-- `missing_deps`, which is removed once it has been checked to be empty. -/
  missingDeps : Option (List Str) := some []
  /-- The `run_depends` arrays an element was removed from, once for each removal. -/
  edits : List Nat := []
  /-- The calls of `flappy_transaction_store` so far. -/
  stores : List StoreCall := []

/-- How a function ends: with 0, with an error, or with the process. -/
inductive Rv where
  | ok
  | err (e : Errno)
  | abort
deriving DecidableEq, Repr

/-- Errors that a caller of `trans_find_pkg` passes over. -/
def Rv.isSoft : Rv → Bool
  | .err .enoent | .err .eexist | .err .enodev => true
  | .ok | .err _ | .abort => false

/-- `errno` after a lookup that sets it to `ENOENT` when it finds nothing. -/
def State.missed {α : Type} (st : State) (found : Option α) : State :=
  if found.isSome then st else { st with pool.errno := some .enoent }

/-- Change a dictionary of the package database. -/
def Handle.modifyPkgdb (xhp : Handle) (pkgd : PkgDict) (f : PkgDict → PkgDict) : Handle :=
  { xhp with pkgdb := xhp.pkgdb.mapValues fun d => if d = pkgd then f d else d }

/-- `flappy_pkgdb_get_pkg`, with its effect on `errno`. -/
def State.pkgdbGetPkg (st : State) (pkg : Str) : State × Option PkgDict :=
  let pkgd := Flappy.pkgdbGetPkg st.xhp pkg
  (st.missed pkgd, pkgd)

/-- `flappy_find_pkg_in_array` on the transaction, with its effect on `errno`. -/
def State.findPkg (st : State) (str : Str) (tt : TransType) : State × Option PkgDict :=
  let pkgd := findPkgInArray st.packages str tt
  (st.missed pkgd, pkgd)

/-- `flappy_pkgdb_get_virtualpkg`, with its effect on `errno`. -/
def State.pkgdbGetVirtualpkg (st : State) (vpkg : Str) : State × Option PkgDict :=
  ({ st with pool.errno := findVirtualErrno st.xhp st.xhp.pkgdb vpkg st.pool.errno },
    Flappy.pkgdbGetVirtualpkg st.xhp vpkg)

/-- `flappy_pkgdb_get_pkg`, else `flappy_pkgdb_get_virtualpkg`. -/
def State.pkgdbGetAny (st : State) (pkg : Str) : State × Option PkgDict :=
  match st.pkgdbGetPkg pkg with
  | (st, some pkgd) => (st, some pkgd)
  | (st, none) => st.pkgdbGetVirtualpkg pkg

/-- `flappy_pkgdb_get_pkg_revdeps`, with its effect on `errno`. -/
def State.pkgdbGetPkgRevdeps (st : State) (pkg : Str) : State × Option (List Str) :=
  ((st.pkgdbGetPkg pkg).1, Flappy.pkgdbGetPkgRevdeps st.xhp pkg)

/-- `flappy_rpool_get_pkg`. -/
def State.rpoolGetPkg (env : Env) (st : State) (pkg : Str) : State × Option PkgRef :=
  let (pool, ref) := Flappy.rpoolGetPkg env st.xhp st.pool pkg
  ({ st with pool }, ref)

/-- `flappy_rpool_get_pkg`, else `flappy_rpool_get_virtualpkg`. -/
def State.rpoolGetAny (env : Env) (st : State) (pkg : Str) : State × Option PkgRef :=
  match st.rpoolGetPkg env pkg with
  | (st, some ref) => (st, some ref)
  | (st, none) =>
    let (pool, ref) := rpoolGetVirtualpkg env st.xhp st.pool pkg
    ({ st with pool }, ref)

/-- `flappy_regget_repo` and `flappy_repo_get_pkg`. -/
def State.repoGetPkg (env : Env) (st : State) (url pkg : Str) : State × Option PkgRef :=
  match reggetRepo env st.pool url with
  | (pool, none) => ({ st with pool }, none)
  | (pool, some i) =>
    let (pool, ref) := Flappy.repoGetPkg env st.xhp pool i pkg
    ({ st with pool }, ref)

/-! ### `trans_find_pkg` -/

/-- What the first half of `trans_find_pkg` settles: the installed package that is
consulted, the type so far, and the package of the repositories. -/
structure Found where
  pkgPkgdb : Option PkgDict
  ttype : TransType
  pkgRepod : PkgRef

/-- The lookup in the repositories, once it is known what is installed. -/
def transLookupRepo (env : Env) (st : State) (pkgPkgdb : Option PkgDict) (pkg : Str)
    (force : Bool) : State × Except Rv Found :=
  match pkgPkgdb with
  | some p =>
    let ttype := if force then TransType.reinstall else .update
    let (st, ref) : State × Except Rv (Option PkgRef) :=
      if p.repolock.isSome then
        match p.repository with
        | none => (st, .error .abort)
        | some repoloc =>
          let (st, ref) := st.repoGetPkg env repoloc pkg
          (st, .ok ref)
      else
        let (st, ref) := st.rpoolGetPkg env pkg
        (st, .ok ref)
    match ref with
    | .error rv => (st, .error rv)
    | .ok none => (st, .error (.err .enoent))
    | .ok (some ref) => (st, .ok ⟨pkgPkgdb, ttype, ref⟩)
  | none =>
    match st.rpoolGetAny env pkg with
    | (st, none) => (st, .error (.err .enoent))
    | (st, some ref) => (st, .ok ⟨none, .install, ref⟩)

/-- What is installed: the package of that name, else a provider. -/
def transLookupPkgdb (st : State) (pkg : Str) : State × Option PkgDict × Option PkgDict :=
  let name := (pkgName pkg).getD pkg
  match st.pkgdbGetPkg name with
  | (st, some p) => (st, some p, none)
  | (st, none) =>
    let (st, v) := st.pkgdbGetVirtualpkg name
    (st, none, v)

/-- The lookups of `trans_find_pkg`. -/
def transLookup (env : Env) (st : State) (pkg : Str) (force : Bool) : State × Except Rv Found :=
  let (st, pkgPkgdb, vpkgPkgdb) := transLookupPkgdb st pkg
  let pkgPkgdb := if st.xhp.flags.downloadOnly then none else pkgPkgdb
  match vpkgPkgdb with
  | none => transLookupRepo env st pkgPkgdb pkg force
  | some v =>
    -- without a real package in the pool, the provider is kept
    match st.rpoolGetPkg env pkg with
    | (st, some _) => transLookupRepo env st pkgPkgdb pkg force
    | (st, none) =>
      match v.pkgname with
      | none => (st, .error (.err .einval))
      | some pkgname => transLookupRepo env st (some v) pkgname force

/-- If pkg is already installed, respect some properties. -/
def respect (pkgPkgdb : Option PkgDict) (d : PkgDict) : PkgDict :=
  match pkgPkgdb with
  | none => d
  | some p =>
    { d with
      automaticInstall := p.automaticInstall.or d.automaticInstall
      hold := p.hold.or d.hold
      repolock := p.repolock.or d.repolock }

/-- The type of the entry after the versions have been compared; `none` if there is
nothing to do. -/
def transCompare (found : Found) (d : PkgDict) : Option TransType :=
  match found.ttype, found.pkgPkgdb with
  | .update, some p =>
    if cmpver d.pkgver p.pkgver ≤ 0 ∧ pkgReverts d p.pkgver = false then none else some .update
  | .reinstall, some p => if cmpver d.pkgver p.pkgver = 1 then some .update else some .reinstall
  | ttype, _ => some ttype

/-- `flappy_pkg_state_installed`. -/
def pkgStateInstalled (xhp : Handle) (pkgver : Str) : Except Errno PkgState :=
  match pkgdbGetPkg xhp pkgver with
  | none => .error .enoent
  | some pkgd =>
    match pkgd.state with
    | none => .error .einval
    | some state => .ok state

/-- The state a package of the repositories gets: that of the installed package. -/
def transState (xhp : Handle) (pkgname : Str) : Except Errno PkgState :=
  match pkgStateInstalled xhp pkgname with
  | .error .enoent => .ok .notInstalled
  | r => r

/-- The final type of the entry. -/
def transType (ttype : TransType) (state : PkgState) (d : PkgDict) (force : Bool) : TransType :=
  let ttype := if state = .notInstalled then .install else ttype
  if force = false ∧ d.hold.isSome then .hold else ttype

/-- Write a dictionary back to where it comes from. -/
def State.setRepod (st : State) (ref : PkgRef) (d : PkgDict) : State :=
  { st with pool := st.pool.modify ref fun _ => d }

/-- Store the dictionary `d` that lives at `ref`. -/
def State.store (st : State) (ref : PkgRef) (d : PkgDict) (autoinst : Bool) : State × Rv :=
  match transactionStore st.packages d autoinst with
  | none => (st.setRepod ref d, .err .einval)
  | some (packages, d') =>
    -- the store looks for an entry of that name
    let st := (st.findPkg (d.pkgname.getD []) .unknown).1
    ({ st.setRepod ref d' with packages, stores := st.stores ++ [⟨st.packages, d⟩] }, .ok)

/-- The dictionary that goes into the transaction. -/
def queuedDict (d : PkgDict) (ttype : TransType) (state : PkgState) (force : Bool) : PkgDict :=
  { d with state := some state, transaction := transType ttype state d force }

/-- Set automatic-install to true if it was requested and this is a new install. -/
def queuedAuto (xhp : Handle) (d : PkgDict) : Bool :=
  d.transaction = .install && xhp.flags.installAuto

/-- The rest of `trans_find_pkg`, for the dictionary `d` that was found. -/
def transQueue (st : State) (found : Found) (d : PkgDict) (force : Bool) : State × Rv :=
  match transCompare found d with
  | none => (st, .err .eexist)
  | some ttype =>
    let d := respect found.pkgPkgdb d
    let st := st.setRepod found.pkgRepod d
    let (st, queued) := if ttype = .update then st.findPkg d.pkgver .unknown else (st, none)
    if queued.isSome then (st, .err .eexist)
    else
      match d.pkgname with
      | none => (st, .err .einval)
      | some pkgname =>
        match transState st.xhp pkgname with
        | .error e => (st, .err e)
        | .ok state =>
          let st := (st.pkgdbGetPkg pkgname).1
          let d := queuedDict d ttype state force
          st.store found.pkgRepod d (queuedAuto st.xhp d)

/-- `trans_find_pkg`. -/
def transFindPkg (env : Env) (st : State) (pkg : Str) (force : Bool) : State × Rv :=
  match transLookup env st pkg force with
  | (st, .error rv) => (st, rv)
  | (st, .ok found) =>
    match st.pool.get found.pkgRepod with
    | none => (st, .err .enoent)
    | some d => transQueue st found d force

/-! ### The requests -/

/-- A call of `trans_find_pkg`: the state it is made in, and its arguments. -/
structure FindCall where
  st : State
  pkg : Str
  force : Bool

/-- A program that makes requests: the state, and the calls of `trans_find_pkg` so far. -/
structure Session where
  st : State
  calls : List FindCall := []

/-- A program that has not made a request yet. -/
def Session.start (xhp : Handle) (repositories : List Str) : Session :=
  { st := { xhp, pool := { repositories } } }

/-- Call `trans_find_pkg`. -/
def Session.find (env : Env) (s : Session) (pkg : Str) (force : Bool) : Session × Rv :=
  let (st, rv) := transFindPkg env s.st pkg force
  (⟨st, s.calls ++ [⟨s.st, pkg, force⟩]⟩, rv)

/-- Call `trans_find_pkg` for reverse dependencies, up to the first hard error. -/
def Session.findRevdeps (env : Env) : List Str → Session → Session × Rv
  | [], s => (s, .ok)
  | pkgver :: rdeps, s =>
    match pkgName pkgver with
    | none => (s, .abort)
    | some pkgname =>
      let (s, rv) := s.find env pkgname false
      if rv = .ok ∨ rv.isSoft = true then s.findRevdeps env rdeps else (s, rv)

/-- What `flappy_autoupdate` returns: 0 (and `EINVAL`, which its callers take for 0), 1,
or -1. -/
inductive Autoupdate where
  | none
  | update
  | error
  | abort
deriving DecidableEq, Repr

/-- The name of the package manager's own package. -/
def flappyName : Str := "flappy".toList

/-- The end of `flappy_autoupdate`: a new version is queued, update its reverse
dependencies too and let nothing else stop the transaction. -/
def autoupdateRevdeps (env : Env) (s : Session) : Session × Autoupdate :=
  match s.st.pkgdbGetPkgRevdeps flappyName with
  | (st, none) => ({ s with st }, .abort)
  | (st, some rdeps) =>
    match Session.findRevdeps env rdeps { s with st } with
    | (s, .ok) => ({ s with st.xhp.flags.forceRemoveRevdeps := true }, .update)
    | (s, .err _) => (s, .error)
    | (s, .abort) => (s, .abort)

/-- `flappy_autoupdate`. -/
def autoupdate (env : Env) (s : Session) : Session × Autoupdate :=
  match s.st.pkgdbGetAny flappyName with
  | (st, none) => ({ s with st }, .none)
  | (st, some pkgd) =>
    match pkgd.pkgname with
    | none => ({ s with st }, .none)
    | some pkgname =>
      match Session.find env { s with st } pkgname false with
      | (s, .ok) => if s.st.xhp.flags.downloadOnly then (s, .none) else autoupdateRevdeps env s
      | (s, .abort) => (s, .abort)
      | (s, .err e) => (s, if (Rv.err e).isSoft then .none else .error)

/-- The common body of `flappy_transaction_update_pkg` and
`flappy_transaction_install_pkg`: the reverse dependencies first, then the package. -/
def requestPkg (env : Env) (s : Session) (pkg : Str) (force : Bool) : Session × Rv :=
  match autoupdate env s with
  | (s, .update) => (s, if pkg = flappyName then .ok else .err .ebusy)
  | (s, .error) => (s, .err .einval)
  | (s, .abort) => (s, .abort)
  | (s, .none) =>
    match s.st.pkgdbGetPkgRevdeps pkg with
    | (st, none) => ({ s with st }, .abort)
    | (st, some rdeps) =>
      match Session.findRevdeps env (if st.xhp.flags.downloadOnly then [] else rdeps)
          { s with st } with
      | (s, .ok) => s.find env pkg force
      | (s, rv) => (s, rv)

/-- `flappy_transaction_update_pkg`. -/
def transactionUpdatePkg (env : Env) (s : Session) (pkg : Str) (force : Bool) : Session × Rv :=
  requestPkg env s pkg force

/-- `flappy_transaction_install_pkg`. -/
def transactionInstallPkg (env : Env) (s : Session) (pkg : Str) (force : Bool) : Session × Rv :=
  requestPkg env s pkg force

/-- The loop of `flappy_transaction_update_packages`, with `newpkg_found` and `rv`. -/
def updateEach (env : Env) : List PkgDict → Session → Bool → Rv → Session × Bool × Rv
  | [], s, newpkgFound, rv => (s, newpkgFound, rv)
  | pkgd :: pkgs, s, newpkgFound, _ =>
    match pkgName pkgd.pkgver with
    | none => (s, newpkgFound, .err .einval)
    | some pkgname =>
      match s.find env pkgname false with
      | (s, .abort) => (s, newpkgFound, .abort)
      | (s, rv) => updateEach env pkgs s (newpkgFound || rv = .ok) (if rv.isSoft then .ok else rv)

/-- `flappy_transaction_update_packages`. -/
def transactionUpdatePackages (env : Env) (s : Session) : Session × Rv :=
  match autoupdate env s with
  | (s, .update) => (s, .err .ebusy)
  | (s, .error) => (s, .err .einval)
  | (s, .abort) => (s, .abort)
  | (s, .none) =>
    match updateEach env s.st.xhp.pkgdb.values s false .ok with
    | (s, _, .abort) => (s, .abort)
    | (s, newpkgFound, rv) => (s, if newpkgFound then rv else .err .eexist)

/-- Put a dictionary of the package database into the transaction.  The dictionary itself
gets the type. -/
def State.storePkgdb (st : State) (pkgd : PkgDict) (ttype : TransType) (autoinst : Bool) :
    State × Rv :=
  let d := { pkgd with transaction := ttype }
  match transactionStore st.packages d autoinst with
  | none => ({ st with xhp := st.xhp.modifyPkgdb pkgd fun _ => d }, .err .einval)
  | some (packages, d') =>
    let st := (st.findPkg (d.pkgname.getD []) .unknown).1
    ({ st with
        xhp := st.xhp.modifyPkgdb pkgd fun _ => d'
        packages, stores := st.stores ++ [⟨st.packages, d⟩] }, .ok)

/-- The loop over the orphans, given by their keys in the package database. -/
def State.storeRemovals : List Str → State → State × Rv
  | [], st => (st, .ok)
  | key :: keys, st =>
    match st.xhp.pkgdb.get key with
    | none => st.storeRemovals keys
    | some pkgd =>
      match st.storePkgdb pkgd .remove false with
      | (st, .ok) => st.storeRemovals keys
      | (st, rv) => (st, rv)

/-- The keys of dictionaries of the package database. -/
def keysOf (d : Dict Str PkgDict) (pkgs : List PkgDict) : List Str :=
  pkgs.filterMap fun pkgd => (d.entries.find? fun e => e.2 = pkgd).map Prod.fst

/-- `flappy_transaction_remove_pkg`.  `orphansOf` is the recursive mode of
`flappy_find_pkg_orphans`: the keys of the dictionaries in the array it returns. -/
def transactionRemovePkg (orphansOf : Handle → Str → Option (List Str)) (st : State)
    (pkgname : Str) (recursive : Bool) : State × Rv :=
  match st.pkgdbGetPkg pkgname with
  | (st, none) => (st, .err .enoent)
  | (st, some pkgd) =>
    if recursive = false then st.storePkgdb pkgd .remove false
    else
      match orphansOf st.xhp pkgname with
      | none => (st, .err .einval)
      | some orphans => st.storeRemovals orphans

/-- `flappy_transaction_autoremove_pkgs`. -/
def transactionAutoremovePkgs (st : State) : State × Rv :=
  match findPkgOrphans st.xhp with
  | none => (st, .abort)
  | some orphans => st.storeRemovals (keysOf st.xhp.pkgdb orphans)

/-- The requests of a program. -/
inductive Req where
  | update (pkg : Str) (force : Bool)
  | install (pkg : Str) (force : Bool)
  | updateAll
  | remove (pkgname : Str) (recursive : Bool)
  | autoremove
deriving DecidableEq, Repr

/-- Is the request made without force? -/
def Req.unforced : Req → Bool
  | .update _ force | .install _ force => !force
  | .updateAll | .remove _ _ | .autoremove => true

/-- Carry a request out. -/
def Session.request (env : Env) (orphansOf : Handle → Str → Option (List Str)) (s : Session) :
    Req → Session × Rv
  | .update pkg force => transactionUpdatePkg env s pkg force
  | .install pkg force => transactionInstallPkg env s pkg force
  | .updateAll => transactionUpdatePackages env s
  | .remove pkgname recursive =>
    let (st, rv) := transactionRemovePkg orphansOf s.st pkgname recursive
    ({ s with st }, rv)
  | .autoremove =>
    let (st, rv) := transactionAutoremovePkgs s.st
    ({ s with st }, rv)

/-- Carry requests out one after the other, whatever they return. -/
def Session.requests (env : Env) (orphansOf : Handle → Str → Option (List Str)) (s : Session)
    (reqs : List Req) : Session :=
  reqs.foldl (fun s r => (s.request env orphansOf r).1) s

/-! ### Bookkeeping in the package database -/

/-- The database has the same packages, up to bookkeeping. -/
structure SameDb (xhp xhp' : Handle) : Prop where
  downloadOnly : xhp'.flags.downloadOnly = xhp.flags.downloadOnly
  get : ∀ k, (xhp'.pkgdb.get k).map PkgDict.core = (xhp.pkgdb.get k).map PkgDict.core

theorem SameDb.refl (xhp : Handle) : SameDb xhp xhp := ⟨rfl, fun _ => rfl⟩

theorem SameDb.trans {a b c : Handle} (h : SameDb a b) (h' : SameDb b c) : SameDb a c :=
  ⟨h'.downloadOnly.trans h.downloadOnly, fun k => (h'.get k).trans (h.get k)⟩

theorem SameDb.symm {a b : Handle} (h : SameDb a b) : SameDb b a :=
  ⟨h.downloadOnly.symm, fun k => (h.get k).symm⟩

theorem SameDb.get_some {xhp xhp' : Handle} (h : SameDb xhp xhp') {k : Str} {p' : PkgDict}
    (hp : xhp'.pkgdb.get k = some p') : ∃ p, xhp.pkgdb.get k = some p ∧ p.core = p'.core := by
  have hk := h.get k
  rw [hp, Option.map_some, eq_comm, Option.map_eq_some_iff] at hk
  exact hk

theorem SameDb.mapValues (xhp : Handle) {f : PkgDict → PkgDict}
    (hf : ∀ d, (f d).core = d.core) : SameDb xhp { xhp with pkgdb := xhp.pkgdb.mapValues f } := by
  refine ⟨rfl, fun k => ?_⟩
  rw [Dict.get_mapValues, Option.map_map]
  exact congrArg (fun g => (xhp.pkgdb.get k).map g) (funext hf)

theorem SameDb.modifyPkgdb (xhp : Handle) (pkgd : PkgDict) {f : PkgDict → PkgDict}
    (hf : (f pkgd).core = pkgd.core) : SameDb xhp (xhp.modifyPkgdb pkgd f) := by
  refine SameDb.mapValues xhp fun d => ?_
  by_cases h : d = pkgd
  · rw [if_pos h, h, hf]
  · rw [if_neg h]

@[simp] theorem State.missed_queue {α : Type} (st : State) (found : Option α) :
    (st.missed found).pool.queue = st.pool.queue := by
  rw [State.missed]
  split <;> rfl

/-- A dictionary of the database goes into the transaction. -/
theorem State.storePkgdb_spec (st : State) (pkgd : PkgDict) (ttype : TransType)
    (autoinst : Bool) :
    SameDb st.xhp (st.storePkgdb pkgd ttype autoinst).1.xhp ∧
      (st.storePkgdb pkgd ttype autoinst).1.pool.queue = st.pool.queue ∧
      ∀ e ∈ (st.storePkgdb pkgd ttype autoinst).1.packages, e ∈ st.packages ∨
        ∃ pkgname, pkgd.pkgname = some pkgname ∧
          e = storedCopy { pkgd with transaction := ttype } pkgname autoinst := by
  rw [State.storePkgdb]
  simp only
  split
  · exact ⟨SameDb.modifyPkgdb st.xhp pkgd rfl, rfl, fun e he => Or.inl he⟩
  · next packages d' h =>
    have hx : (st.findPkg (pkgd.pkgname.getD []) .unknown).1.xhp = st.xhp := by
      rw [State.findPkg, State.missed]
      split <;> rfl
    have hd' : d'.core = pkgd.core := by
      rw [transactionStore_original h]
      rfl
    refine ⟨?_, State.missed_queue _ _, fun e he => mem_transactionStore h he⟩
    simp only [hx]
    exact SameDb.modifyPkgdb st.xhp pkgd hd'

/-! ### What lookups do to the state -/

/-- A state that differs from another one only by what lookups do. -/
structure Looked (env : Env) (st st' : State) : Prop where
  xhp : st'.xhp = st.xhp
  packages : st'.packages = st.packages
  missingDeps : st'.missingDeps = st.missingDeps
  edits : st'.edits = st.edits
  stores : st'.stores = st.stores
  pool : PoolExt env st.pool st'.pool

theorem Looked.refl (env : Env) (st : State) : Looked env st st :=
  ⟨rfl, rfl, rfl, rfl, rfl, PoolExt.refl env st.pool⟩

theorem Looked.trans {env : Env} {a b c : State} (h : Looked env a b) (h' : Looked env b c) :
    Looked env a c :=
  ⟨h'.xhp.trans h.xhp, h'.packages.trans h.packages, h'.missingDeps.trans h.missingDeps,
    h'.edits.trans h.edits, h'.stores.trans h.stores, h.pool.trans h'.pool⟩

/-- A lookup in the pool. -/
theorem Looked.of_pool {env : Env} (st : State) {pool : Rpool} (h : PoolExt env st.pool pool) :
    Looked env st { st with pool } :=
  ⟨rfl, rfl, rfl, rfl, rfl, h⟩

theorem Looked.errno (env : Env) (st : State) (errno : Option Errno) :
    Looked env st { st with pool.errno := errno } :=
  Looked.of_pool st (PoolExt.of_queue_eq rfl)

theorem State.missed_looked (env : Env) {α : Type} (st : State) (found : Option α) :
    Looked env st (st.missed found) := by
  rw [State.missed]
  split
  · exact Looked.refl env st
  · exact Looked.errno env st _

theorem State.pkgdbGetPkg_looked (env : Env) (st : State) (pkg : Str) :
    Looked env st (st.pkgdbGetPkg pkg).1 :=
  st.missed_looked env _

theorem State.findPkg_looked (env : Env) (st : State) (str : Str) (tt : TransType) :
    Looked env st (st.findPkg str tt).1 :=
  st.missed_looked env _

theorem State.pkgdbGetVirtualpkg_looked (env : Env) (st : State) (vpkg : Str) :
    Looked env st (st.pkgdbGetVirtualpkg vpkg).1 :=
  Looked.errno env st _

theorem State.pkgdbGetAny_looked (env : Env) (st : State) (pkg : Str) :
    Looked env st (st.pkgdbGetAny pkg).1 := by
  have h := st.pkgdbGetPkg_looked env pkg
  rw [State.pkgdbGetAny]
  split
  · next st' p hp => rwa [hp] at h
  · next st' hp =>
    rw [hp] at h
    exact h.trans (st'.pkgdbGetVirtualpkg_looked env pkg)

theorem State.pkgdbGetPkgRevdeps_looked (env : Env) (st : State) (pkg : Str) :
    Looked env st (st.pkgdbGetPkgRevdeps pkg).1 :=
  st.pkgdbGetPkg_looked env pkg

/-- A lookup in the repositories leads to a later state, and what it finds is there. -/
def FindsOk (env : Env) (st : State) (r : State × Option PkgRef) : Prop :=
  Looked env st r.1 ∧ ∀ ref, r.2 = some ref → r.1.pool.Valid ref

theorem State.rpoolGetPkg_spec (env : Env) (st : State) (pkg : Str) :
    FindsOk env st (st.rpoolGetPkg env pkg) := by
  obtain ⟨h, hv⟩ := Flappy.rpoolGetPkg_spec env st.xhp st.pool pkg
  exact ⟨Looked.of_pool st h, hv⟩

theorem State.rpoolGetAny_spec (env : Env) (st : State) (pkg : Str) :
    FindsOk env st (st.rpoolGetAny env pkg) := by
  obtain ⟨h, hv⟩ := st.rpoolGetPkg_spec env pkg
  rw [State.rpoolGetAny]
  split
  · next st' ref hr =>
    rw [hr] at h hv
    exact ⟨h, hv⟩
  · next st' hr =>
    rw [hr] at h
    obtain ⟨h', hv'⟩ := rpoolGetVirtualpkg_spec env st'.xhp st'.pool pkg
    exact ⟨h.trans (Looked.of_pool st' h'), hv'⟩

theorem State.repoGetPkg_spec (env : Env) (st : State) (url pkg : Str) :
    FindsOk env st (st.repoGetPkg env url pkg) := by
  have h := reggetRepo_spec env st.pool url
  rw [State.repoGetPkg]
  split
  · next pool hr =>
    rw [hr] at h
    exact ⟨Looked.of_pool st h, fun ref h => by cases h⟩
  · next pool i hr =>
    rw [hr] at h
    obtain ⟨h', hv⟩ := Flappy.repoGetPkg_spec env st.xhp pool i pkg
    exact ⟨Looked.of_pool st (h.trans h'), hv⟩

/-! ### What `trans_find_pkg` does -/

/-- The installed package is one of the database. -/
def InPkgdb (xhp : Handle) (pkgd : Option PkgDict) : Prop :=
  ∀ p, pkgd = some p → p ∈ xhp.pkgdb.values

theorem transLookupPkgdb_spec (env : Env) (st : State) (pkg : Str) :
    Looked env st (transLookupPkgdb st pkg).1 ∧
      InPkgdb st.xhp (transLookupPkgdb st pkg).2.1 ∧
      InPkgdb st.xhp (transLookupPkgdb st pkg).2.2 := by
  rw [transLookupPkgdb]
  have h := st.pkgdbGetPkg_looked env ((pkgName pkg).getD pkg)
  simp only
  split
  · next st' p hp =>
    have hp' : pkgdbGetPkg st.xhp ((pkgName pkg).getD pkg) = some p := congrArg Prod.snd hp
    rw [hp] at h
    refine ⟨h, fun q hq => ?_, fun q hq => by cases hq⟩
    obtain rfl := Option.some.inj hq
    exact findPkgInDict_mem hp'
  · next st' hp =>
    rw [hp] at h
    refine ⟨h.trans (st'.pkgdbGetVirtualpkg_looked env _), fun q hq => (by cases hq),
      fun q hq => ?_⟩
    rw [← h.xhp]
    exact findVirtualpkgInDict_mem hq

/-- What a lookup of `trans_find_pkg` that ends well has settled. -/
structure FoundOk (env : Env) (st : State) (r : State × Except Rv Found) : Prop where
  looked : Looked env st r.1
  valid : ∀ found, r.2 = .ok found → r.1.pool.Valid found.pkgRepod
  installed : ∀ found, r.2 = .ok found → InPkgdb st.xhp found.pkgPkgdb
  ttype : ∀ found, r.2 = .ok found → found.pkgPkgdb = none → found.ttype = .install

theorem FoundOk.of_looked {env : Env} {st st' : State} {r : State × Except Rv Found}
    (h : Looked env st st') (hr : FoundOk env st' r) : FoundOk env st r :=
  ⟨h.trans hr.looked, hr.valid, h.xhp ▸ hr.installed, hr.ttype⟩

/-- A lookup that ends with an error. -/
theorem FoundOk.error {env : Env} {st st' : State} (h : Looked env st st') (rv : Rv) :
    FoundOk env st (st', .error rv) :=
  ⟨h, fun _ hf => (by cases hf), fun _ hf => (by cases hf), fun _ hf => by cases hf⟩

theorem FoundOk.found {env : Env} {st : State} {r : State × Option PkgRef} (h : FindsOk env st r)
    {p : Option PkgDict} (hp : InPkgdb st.xhp p) {ttype : TransType}
    (ht : p = none → ttype = .install) {ref : PkgRef} (hr : r.2 = some ref) :
    FoundOk env st (r.1, .ok ⟨p, ttype, ref⟩) := by
  refine ⟨h.1, ?_, ?_, ?_⟩
  · rintro found hf
    obtain rfl := Except.ok.inj hf
    exact h.2 ref hr
  · rintro found hf
    obtain rfl := Except.ok.inj hf
    exact hp
  · rintro found hf
    obtain rfl := Except.ok.inj hf
    exact ht

theorem transLookupRepo_spec (env : Env) (st : State) {p : Option PkgDict}
    (hp : InPkgdb st.xhp p) (pkg : Str) (force : Bool) :
    FoundOk env st (transLookupRepo env st p pkg force) := by
  cases p with
  | none =>
    rw [transLookupRepo]
    have h := st.rpoolGetAny_spec env pkg
    split
    · next st' hr =>
      rw [hr] at h
      exact FoundOk.error h.1 _
    · next st' ref hr =>
      rw [hr] at h
      exact FoundOk.found h hp (fun _ => rfl) rfl
  | some q =>
    rw [transLookupRepo]
    simp only
    -- both lookups end in the same way
    have hend : ∀ r : State × Option PkgRef, FindsOk env st r →
        FoundOk env st (match ((r.1, .ok r.2) : State × Except Rv (Option PkgRef)) with
          | (st, ref) =>
            match ref with
            | .error rv => (st, .error rv)
            | .ok none => (st, .error (.err .enoent))
            | .ok (some ref) =>
              (st, .ok ⟨some q, if force then TransType.reinstall else .update, ref⟩)) := by
      rintro ⟨st', ref⟩ h
      cases ref with
      | none => exact FoundOk.error h.1 _
      | some ref => exact FoundOk.found h hp (fun hn => by cases hn) rfl
    by_cases hl : q.repolock.isSome
    · rw [if_pos hl]
      cases hrepo : q.repository with
      | none => exact FoundOk.error (Looked.refl env st) _
      | some url => exact hend _ (st.repoGetPkg_spec env url pkg)
    · rw [if_neg hl]
      exact hend _ (st.rpoolGetPkg_spec env pkg)

theorem transLookup_spec (env : Env) (st : State) (pkg : Str) (force : Bool) :
    FoundOk env st (transLookup env st pkg force) := by
  rw [transLookup]
  obtain ⟨h, hp, hv⟩ := transLookupPkgdb_spec env st pkg
  generalize transLookupPkgdb st pkg = r at h hp hv
  obtain ⟨st', p, v⟩ := r
  simp only at h hp hv ⊢
  have hp' : InPkgdb st'.xhp (if st'.xhp.flags.downloadOnly then none else p) := by
    rw [h.xhp]
    split
    · exact fun q hq => by cases hq
    · exact hp
  cases v with
  | none => exact (transLookupRepo_spec env st' hp' pkg force).of_looked h
  | some q =>
    simp only
    have hr := st'.rpoolGetPkg_spec env pkg
    split
    · next st'' ref hq =>
      rw [hq] at hr
      exact (transLookupRepo_spec env st'' (hr.1.xhp.symm ▸ hp') pkg force).of_looked (h.trans hr.1)
    · next st'' hq =>
      rw [hq] at hr
      split
      · exact FoundOk.error (h.trans hr.1) _
      · have hq' : InPkgdb st''.xhp (some q) := by
          rw [hr.1.xhp, h.xhp]
          exact hv
        exact (transLookupRepo_spec env st'' hq' _ force).of_looked (h.trans hr.1)

/-- What `trans_find_pkg` does once it has found the dictionary `d`: it changes `d`, and
may put a copy into the transaction. -/
structure FindEffect (st st₁ : State) (found : Found) (d : PkgDict) (force : Bool)
    (st' : State) : Prop where
  xhp : st'.xhp = st.xhp
  missingDeps : st'.missingDeps = st.missingDeps
  edits : st'.edits = st.edits
  pool : ∃ d', Evolves (respect found.pkgPkgdb d) d' ∧
    st'.pool.queue = (st₁.pool.modify found.pkgRepod fun _ => d').queue
  packages : ∀ e ∈ st'.packages, e ∈ st.packages ∨
    ∃ ttype state pkgname, transCompare found d = some ttype ∧ d.pkgname = some pkgname ∧
      transState st.xhp pkgname = .ok state ∧
      e = storedCopy (queuedDict (respect found.pkgPkgdb d) ttype state force) pkgname
        (queuedAuto st.xhp (queuedDict (respect found.pkgPkgdb d) ttype state force))

theorem respect_pkgname (p : Option PkgDict) (d : PkgDict) : (respect p d).pkgname = d.pkgname := by
  cases p with
  | none => rfl
  | some p => rfl

theorem respect_pkgver (p : Option PkgDict) (d : PkgDict) : (respect p d).pkgver = d.pkgver := by
  cases p with
  | none => rfl
  | some p => rfl

/-- A dictionary that a store has not changed, or only in its `replaces`. -/
theorem State.store_spec (st : State) (ref : PkgRef) (d : PkgDict) (autoinst : Bool) :
    (st.store ref d autoinst).1.xhp = st.xhp ∧
      (st.store ref d autoinst).1.missingDeps = st.missingDeps ∧
      (st.store ref d autoinst).1.edits = st.edits ∧
      (∃ d', Evolves d d' ∧
        (st.store ref d autoinst).1.pool.queue = (st.pool.modify ref fun _ => d').queue) ∧
      ∀ e ∈ (st.store ref d autoinst).1.packages, e ∈ st.packages ∨
        ∃ pkgname, d.pkgname = some pkgname ∧ e = storedCopy d pkgname autoinst := by
  rw [State.store]
  cases h : transactionStore st.packages d autoinst with
  | none => exact ⟨rfl, rfl, rfl, ⟨d, Evolves.refl d, rfl⟩, fun e he => Or.inl he⟩
  | some r =>
    obtain ⟨packages, d'⟩ := r
    have hl := st.findPkg_looked { repoOpen := fun _ => none } (d.pkgname.getD []) .unknown
    refine ⟨hl.xhp, hl.missingDeps, hl.edits, ⟨d', ?_, ?_⟩, fun e he => mem_transactionStore h he⟩
    · rw [transactionStore_original h]
      exact Evolves.of_core rfl (List.Subset.refl _)
    · simp only [State.setRepod, Rpool.modify, State.findPkg, State.missed_queue]

theorem transQueue_spec {env : Env} {st st₁ : State} (hl : Looked env st st₁) (found : Found)
    (d : PkgDict) (force : Bool) :
    Looked env st (transQueue st₁ found d force).1 ∨
      FindEffect st st₁ found d force (transQueue st₁ found d force).1 := by
  rw [transQueue]
  cases hc : transCompare found d with
  | none => exact Or.inl hl
  | some ttype =>
    right
    simp only
    -- the state after the search for a queued update
    generalize hq : (if ttype = .update then
        (st₁.setRepod found.pkgRepod (respect found.pkgPkgdb d)).findPkg
          (respect found.pkgPkgdb d).pkgver .unknown
      else (st₁.setRepod found.pkgRepod (respect found.pkgPkgdb d), none)) = r
    obtain ⟨st₂, queued⟩ := r
    have hl₂ : Looked env (st₁.setRepod found.pkgRepod (respect found.pkgPkgdb d)) st₂ ∧
        st₂.pool.queue = (st₁.pool.modify found.pkgRepod fun _ => respect found.pkgPkgdb d).queue := by
      split at hq
      · obtain rfl : _ = st₂ := congrArg Prod.fst hq
        exact ⟨State.findPkg_looked env _ _ _, State.missed_queue _ _⟩
      · obtain rfl : _ = st₂ := congrArg Prod.fst hq
        exact ⟨Looked.refl env _, rfl⟩
    obtain ⟨hl₂, hpool₂⟩ := hl₂
    have hstay : FindEffect st st₁ found d force st₂ :=
      ⟨hl₂.xhp.trans hl.xhp, hl₂.missingDeps.trans hl.missingDeps, hl₂.edits.trans hl.edits,
        ⟨respect found.pkgPkgdb d, Evolves.refl _, hpool₂⟩,
        fun e he => Or.inl (hl.packages ▸ hl₂.packages ▸ he)⟩
    simp only
    split
    · exact hstay
    · rw [respect_pkgname]
      cases hn : d.pkgname with
      | none => exact hstay
      | some pkgname =>
        simp only
        cases hs : transState st₂.xhp pkgname with
        | error e => exact hstay
        | ok state =>
          simp only
          have hl₃ := st₂.pkgdbGetPkg_looked env pkgname
          have hq₃ : (st₂.pkgdbGetPkg pkgname).1.pool.queue = st₂.pool.queue :=
            st₂.missed_queue _
          obtain ⟨h1, h2, h3, ⟨d', hd', h4⟩, h5⟩ := (st₂.pkgdbGetPkg pkgname).1.store_spec
            found.pkgRepod (queuedDict (respect found.pkgPkgdb d) ttype state force)
            (queuedAuto (st₂.pkgdbGetPkg pkgname).1.xhp
              (queuedDict (respect found.pkgPkgdb d) ttype state force))
          have hxhp : (st₂.pkgdbGetPkg pkgname).1.xhp = st.xhp := hl₃.xhp.trans hstay.xhp
          have hevolves : Evolves (respect found.pkgPkgdb d)
              (queuedDict (respect found.pkgPkgdb d) ttype state force) :=
            Evolves.of_core rfl (List.Subset.refl _)
          refine ⟨h1.trans hxhp, h2.trans (hl₃.missingDeps.trans hstay.missingDeps),
            h3.trans (hl₃.edits.trans hstay.edits),
            ⟨d', hevolves.trans hd', ?_⟩, fun e he => ?_⟩
          · rw [h4]
            simp only [Rpool.modify, hq₃, hpool₂]
            -- the earlier change of the dictionary is overwritten
            rw [List.modify_modify_eq]
            congr 1
            funext repo
            simp only [Function.comp, Dict.modify_modify]
            rfl
          · rcases h5 e he with he | ⟨n, hn', rfl⟩
            · rw [hl₃.packages] at he
              exact hstay.packages e he
            · right
              have hnn : n = pkgname := by
                have : some n = some pkgname := hn'.symm.trans ((respect_pkgname _ d).trans hn)
                exact Option.some.inj this
              subst hnn
              refine ⟨ttype, state, n, hc, hn, ?_, ?_⟩
              · rw [← hstay.xhp]
                exact hs
              · rw [hxhp]

/-- What a call of `trans_find_pkg` does. -/
theorem transFindPkg_spec (env : Env) (st : State) (pkg : Str) (force : Bool) :
    Looked env st (transFindPkg env st pkg force).1 ∨
      ∃ st₁ found d, transLookup env st pkg force = (st₁, .ok found) ∧
        st₁.pool.get found.pkgRepod = some d ∧
        FindEffect st st₁ found d force (transFindPkg env st pkg force).1 := by
  have hl := transLookup_spec env st pkg force
  rw [transFindPkg]
  cases h : transLookup env st pkg force with
  | mk st₁ r =>
    rw [h] at hl
    cases r with
    | error rv => exact Or.inl hl.looked
    | ok found =>
      simp only
      cases hd : st₁.pool.get found.pkgRepod with
      | none => exact Or.inl hl.looked
      | some d =>
        rcases transQueue_spec hl.looked found d force with hq | hq
        · exact Or.inl hq
        · exact Or.inr ⟨st₁, found, d, rfl, hd, hq⟩

/-! ### Invariants of sessions -/

/-- What has to be shown for `I` to hold in every state of a session.  `ok` is what is
known of the calls of `trans_find_pkg`, and `forced` says whether some are forced. -/
structure SessionRule (env : Env) (forced : Bool) (ok : FindCall → Prop) (I : State → Prop) :
    Prop where
  looked : ∀ {st st' : State}, Looked env st st' → I st → I st'
  flags : ∀ {st : State}, I st → I { st with xhp.flags.forceRemoveRevdeps := true }
  removal : ∀ {st : State} {pkgd : PkgDict}, pkgd ∈ st.xhp.pkgdb.values → I st →
    I (st.storePkgdb pkgd .remove false).1
  find : ∀ {st : State} {pkg : Str} {force : Bool}, (force = true → forced = true) →
    ok ⟨st, pkg, force⟩ → I st → I (transFindPkg env st pkg force).1

/-- The session `s'` comes after `s`, and `I` gets there if the calls are as they should be. -/
structure Session.Leads (ok : FindCall → Prop) (I : State → Prop) (s s' : Session) : Prop where
  calls : s.calls ⊆ s'.calls
  inv : (∀ c ∈ s'.calls, ok c) → I s.st → I s'.st

theorem Session.Leads.trans {ok : FindCall → Prop} {I : State → Prop} {a b c : Session}
    (h : Session.Leads ok I a b) (h' : Session.Leads ok I b c) : Session.Leads ok I a c :=
  ⟨fun _ hx => h'.calls (h.calls hx),
    fun hok ha => h'.inv hok (h.inv (fun x hx => hok x (h'.calls hx)) ha)⟩

/-- A change of the state alone. -/
theorem Session.Leads.of_st {ok : FindCall → Prop} {I : State → Prop} {s : Session} {st : State}
    (h : I s.st → I st) : Session.Leads ok I s { s with st } :=
  ⟨fun _ hx => hx, fun _ => h⟩

namespace SessionRule

variable {env : Env} {forced : Bool} {ok : FindCall → Prop} {I : State → Prop}

theorem lookedLeads (rule : SessionRule env forced ok I) {s : Session} {st : State}
    (h : Looked env s.st st) : Session.Leads ok I s { s with st } :=
  Session.Leads.of_st (rule.looked h)

theorem findLeads (rule : SessionRule env forced ok I) (s : Session) (pkg : Str) (force : Bool)
    (hf : force = true → forced = true) : Session.Leads ok I s (s.find env pkg force).1 :=
  ⟨fun _ hx => List.mem_append_left _ hx,
    fun hok hI => rule.find hf (hok _ (List.mem_append_right _ List.mem_cons_self)) hI⟩

theorem findRevdepsLeads (rule : SessionRule env forced ok I) :
    ∀ (rdeps : List Str) (s : Session), Session.Leads ok I s (s.findRevdeps env rdeps).1 := by
  intro rdeps
  induction rdeps with
  | nil => exact fun s => Session.Leads.of_st id
  | cons pkgver rdeps ih =>
    intro s
    rw [Session.findRevdeps]
    cases pkgName pkgver with
    | none => exact Session.Leads.of_st id
    | some pkgname =>
      have h := rule.findLeads s pkgname false (by simp)
      simp only
      split
      · exact h.trans (ih _)
      · exact h

theorem autoupdateLeads (rule : SessionRule env forced ok I) (s : Session) :
    Session.Leads ok I s (autoupdate env s).1 := by
  -- the reverse dependencies are queued behind the package itself
  have hrev : ∀ s : Session, Session.Leads ok I s (autoupdateRevdeps env s).1 := by
    intro s
    have hl := s.st.pkgdbGetPkgRevdeps_looked env flappyName
    rw [autoupdateRevdeps]
    split
    · next st h =>
      rw [h] at hl
      exact rule.lookedLeads hl
    · next st rdeps h =>
      rw [h] at hl
      have hf := (rule.lookedLeads hl).trans (rule.findRevdepsLeads rdeps { s with st })
      split
      · next s' hs =>
        rw [hs] at hf
        exact hf.trans (Session.Leads.of_st rule.flags)
      · next s' e hs =>
        rw [hs] at hf
        exact hf
      · next s' hs =>
        rw [hs] at hf
        exact hf
  have hl := s.st.pkgdbGetAny_looked env flappyName
  rw [autoupdate]
  split
  · next st h =>
    rw [h] at hl
    exact rule.lookedLeads hl
  · next st pkgd h =>
    rw [h] at hl
    split
    · exact rule.lookedLeads hl
    · next pkgname hn =>
      have hf := (rule.lookedLeads hl).trans
        (rule.findLeads { s with st } pkgname false (by simp))
      split
      · next s' hs =>
        rw [hs] at hf
        split
        · exact hf
        · exact hf.trans (hrev s')
      · next s' hs =>
        rw [hs] at hf
        exact hf
      · next s' e hs =>
        rw [hs] at hf
        exact hf

theorem requestPkgLeads (rule : SessionRule env forced ok I) (s : Session) (pkg : Str)
    {force : Bool} (hf : force = true → forced = true) :
    Session.Leads ok I s (requestPkg env s pkg force).1 := by
  have ha := rule.autoupdateLeads s
  rw [requestPkg]
  split
  · next s' h => rwa [h] at ha
  · next s' h => rwa [h] at ha
  · next s' h => rwa [h] at ha
  · next s' h =>
    rw [h] at ha
    have hl := s'.st.pkgdbGetPkgRevdeps_looked env pkg
    split
    · next st hr =>
      rw [hr] at hl
      exact ha.trans (rule.lookedLeads hl)
    · next st rdeps hr =>
      rw [hr] at hl
      have hd := (ha.trans (rule.lookedLeads hl)).trans (rule.findRevdepsLeads
        (if st.xhp.flags.downloadOnly then [] else rdeps) { s' with st })
      split
      · next s'' hs =>
        rw [hs] at hd
        exact hd.trans (rule.findLeads s'' pkg force hf)
      · next s'' rv _ hs =>
        rw [hs] at hd
        exact hd

theorem updateEachLeads (rule : SessionRule env forced ok I) :
    ∀ (pkgs : List PkgDict) (s : Session) (newpkgFound : Bool) (rv : Rv),
      Session.Leads ok I s (updateEach env pkgs s newpkgFound rv).1 := by
  intro pkgs
  induction pkgs with
  | nil => exact fun s _ _ => Session.Leads.of_st id
  | cons pkgd pkgs ih =>
    intro s newpkgFound rv
    rw [updateEach]
    cases pkgName pkgd.pkgver with
    | none => exact Session.Leads.of_st id
    | some pkgname =>
      have hf := rule.findLeads s pkgname false (by simp)
      simp only
      split
      · next s' h => rwa [h] at hf
      · next s' rv' _ h =>
        rw [h] at hf
        exact hf.trans (ih _ _ _)

theorem updatePackagesLeads (rule : SessionRule env forced ok I) (s : Session) :
    Session.Leads ok I s (transactionUpdatePackages env s).1 := by
  have ha := rule.autoupdateLeads s
  rw [transactionUpdatePackages]
  split
  · next s' h => rwa [h] at ha
  · next s' h => rwa [h] at ha
  · next s' h => rwa [h] at ha
  · next s' h =>
    rw [h] at ha
    have hu := ha.trans (rule.updateEachLeads s'.st.xhp.pkgdb.values s' false .ok)
    split
    · next s'' newpkgFound hs => rwa [hs] at hu
    · next s'' newpkgFound rv _ hs => rwa [hs] at hu

theorem storeRemovals (rule : SessionRule env forced ok I) :
    ∀ (keys : List Str) (st : State), I st → I (st.storeRemovals keys).1 := by
  intro keys
  induction keys with
  | nil => exact fun st h => h
  | cons key keys ih =>
    intro st h
    rw [State.storeRemovals]
    cases hk : st.xhp.pkgdb.get key with
    | none => exact ih st h
    | some pkgd =>
      have hr := rule.removal (Dict.mem_values_of_get hk) h
      simp only
      split
      · next st' hs =>
        rw [hs] at hr
        exact ih st' hr
      · next st' rv _ hs => rwa [hs] at hr

theorem removePkg (rule : SessionRule env forced ok I)
    (orphansOf : Handle → Str → Option (List Str)) (st : State) (pkgname : Str)
    (recursive : Bool) (h : I st) : I (transactionRemovePkg orphansOf st pkgname recursive).1 := by
  have hl := st.pkgdbGetPkg_looked env pkgname
  rw [transactionRemovePkg]
  split
  · next st' hs =>
    rw [hs] at hl
    exact rule.looked hl h
  · next st' pkgd hs =>
    have hmem : pkgd ∈ st.xhp.pkgdb.values := findPkgInDict_mem (congrArg Prod.snd hs)
    rw [hs] at hl
    have h' := rule.looked hl h
    split
    · exact rule.removal (hl.xhp ▸ hmem) h'
    · split
      · exact h'
      · exact rule.storeRemovals _ st' h'

theorem autoremovePkgs (rule : SessionRule env forced ok I) (st : State) (h : I st) :
    I (transactionAutoremovePkgs st).1 := by
  rw [transactionAutoremovePkgs]
  split
  · exact h
  · exact rule.storeRemovals _ st h

theorem requestLeads (rule : SessionRule env forced ok I)
    (orphansOf : Handle → Str → Option (List Str)) (s : Session) (r : Req)
    (hf : r.unforced = false → forced = true) :
    Session.Leads ok I s (s.request env orphansOf r).1 := by
  cases r with
  | update pkg force => exact rule.requestPkgLeads s pkg fun h => hf (by simp [Req.unforced, h])
  | install pkg force => exact rule.requestPkgLeads s pkg fun h => hf (by simp [Req.unforced, h])
  | updateAll => exact rule.updatePackagesLeads s
  | remove pkgname recursive =>
    exact Session.Leads.of_st (rule.removePkg orphansOf s.st pkgname recursive)
  | autoremove => exact Session.Leads.of_st (rule.autoremovePkgs s.st)

/-- An invariant holds after any requests. -/
theorem requestsLeads (rule : SessionRule env forced ok I)
    (orphansOf : Handle → Str → Option (List Str)) :
    ∀ (reqs : List Req) (s : Session), (∀ r ∈ reqs, r.unforced = false → forced = true) →
      Session.Leads ok I s (s.requests env orphansOf reqs) := by
  intro reqs
  induction reqs with
  | nil => exact fun s _ => Session.Leads.of_st id
  | cons r reqs ih =>
    intro s hf
    exact (rule.requestLeads orphansOf s r (hf r List.mem_cons_self)).trans
      (ih _ fun r' hr' => hf r' (List.mem_cons_of_mem r hr'))

end SessionRule

end Flappy
