/-
The repository pool (`lib/rpool.c`, the package lookups of `lib/repo.c`).

Repositories are opened when a lookup first gets to them and stay in a queue of
the process; those that cannot be opened are dropped from the configured list.
A lookup hands out a reference into the index of a repository, and callers set
properties of the dictionary behind it, so the indexes are part of the state
and a lookup returns a place (`PkgRef`) in it.

`errno` belongs to the state too: some lookups take "not found" for an error if
an earlier call has left something else than `ENOENT` there.

* `PoolExt` — a pool is a later state of another: it has the same packages up to
  bookkeeping, and packages of repositories that were opened since;
* `rpoolGetPkg_spec`, `rpoolGetVirtualpkg_spec`, `repoGetPkg_spec` — a lookup
  leads to a later state, and what it finds is there.
-/
import Flappy.Pkgdb

open CStr

namespace Flappy

/-- What the pool depends on besides its own state. -/
structure Env where
  /-- `flappy_repo_open`: the index of a repository, if it can be opened. -/
  repoOpen : Str → Option (Dict Str PkgDict)
  /-- What `errno` is after an attempt to open a repository. -/
  openErrno : Str → Option Errno → Option Errno := fun _ e => e
  /-- What the buffer `vpkgver` of `flappy_find_virtualpkg_in_conf`, which is
  read but never written, happens to hold. -/
  vpkgver : Str := []

/-- `struct flappy_repo`, an open repository. -/
structure Repo where
  uri : Str
  idx : Dict Str PkgDict

/-- The configured repositories, the open ones, and `errno`. -/
structure Rpool where
  repositories : List Str := []
  queue : List Repo := []
  errno : Option Errno := none

/-- A package dictionary of an open repository. -/
structure PkgRef where
  repo : Nat
  key : Str
deriving DecidableEq, Repr

/-- The dictionary a reference stands for. -/
def Rpool.get (pool : Rpool) (ref : PkgRef) : Option PkgDict :=
  pool.queue[ref.repo]?.bind fun repo => repo.idx.get ref.key

/-- Change the dictionary a reference stands for. -/
def Rpool.modify (pool : Rpool) (ref : PkgRef) (f : PkgDict → PkgDict) : Rpool :=
  { pool with queue := pool.queue.modify ref.repo fun repo =>
      { repo with idx := repo.idx.modify ref.key f } }

/-! ### Lookups in one repository -/

/-- The key under which `flappy_find_pkg_in_dict` looks. -/
def requestKey (pkg : Str) : Option Str :=
  match request pkg with
  | .pattern => (pkgpatternName pkg).or (pkgName pkg)
  | .pkgver => pkgName pkg
  | .pkgname => some pkg

theorem matchPkgByPkgver_key {d : Dict Str PkgDict} {pkg : Str} {pkgd : PkgDict}
    (h : matchPkgByPkgver d pkg = some pkgd) :
    ∃ key, pkgName pkg = some key ∧ d.get key = some pkgd := by
  rw [matchPkgByPkgver] at h
  cases hn : pkgName pkg with
  | none => simp [hn] at h
  | some key =>
    simp only [hn, Option.filter_eq_some_iff] at h
    exact ⟨key, rfl, h.1⟩

/-- A package that is found is under its key. -/
theorem findPkgInDict_key {d : Dict Str PkgDict} {pkg : Str} {pkgd : PkgDict}
    (h : findPkgInDict d pkg = some pkgd) :
    ∃ key, requestKey pkg = some key ∧ d.get key = some pkgd := by
  rw [findPkgInDict] at h
  rw [requestKey]
  cases hr : request pkg with
  | pattern =>
    simp only [hr, matchPkgByPattern] at h
    cases hn : pkgpatternName pkg with
    | none =>
      simp only [hn] at h
      split at h
      · simpa [hn] using matchPkgByPkgver_key h
      · cases h
    | some key =>
      simp only [hn, Option.filter_eq_some_iff] at h
      exact ⟨key, by simp, h.1⟩
  | pkgver =>
    simp only [hr] at h
    exact matchPkgByPkgver_key h
  | pkgname =>
    simp only [hr] at h
    exact ⟨pkg, rfl, h⟩

/-- `flappy_find_pkg_in_dict`, with the key of the package it returns. -/
def findKeyInDict (d : Dict Str PkgDict) (pkg : Str) : Option Str :=
  if (findPkgInDict d pkg).isSome then requestKey pkg else none

theorem findKeyInDict_eq_some {d : Dict Str PkgDict} {pkg key : Str}
    (h : findKeyInDict d pkg = some key) :
    ∃ pkgd, findPkgInDict d pkg = some pkgd ∧ d.get key = some pkgd := by
  rw [findKeyInDict] at h
  split at h
  · next hfind =>
    obtain ⟨pkgd, hpkgd⟩ := Option.isSome_iff_exists.mp hfind
    obtain ⟨key', hkey', hget⟩ := findPkgInDict_key hpkgd
    obtain rfl := Option.some.inj (h.symm.trans hkey')
    exact ⟨pkgd, hpkgd, hget⟩
  · cases h

theorem findKeyInDict_get {d : Dict Str PkgDict} {pkg key : Str}
    (h : findKeyInDict d pkg = some key) : (d.get key).isSome := by
  obtain ⟨pkgd, -, hget⟩ := findKeyInDict_eq_some h
  rw [hget]
  rfl

theorem findKeyInDict_isSome {d : Dict Str PkgDict} {pkg : Str} :
    (findKeyInDict d pkg).isSome = (findPkgInDict d pkg).isSome := by
  rw [findKeyInDict]
  cases hf : findPkgInDict d pkg with
  | none => rfl
  | some pkgd =>
    obtain ⟨key, hkey, -⟩ := findPkgInDict_key hf
    rw [Option.isSome_some, if_pos rfl, hkey]
    rfl

/-- The entry under the key is what the lookup finds. -/
theorem findKeyInDict_bind_get (d : Dict Str PkgDict) (pkg : Str) :
    (findKeyInDict d pkg).bind d.get = findPkgInDict d pkg := by
  rw [findKeyInDict]
  cases hf : findPkgInDict d pkg with
  | none => rfl
  | some pkgd =>
    obtain ⟨key, hkey, hget⟩ := findPkgInDict_key hf
    rw [Option.isSome_some, if_pos rfl, hkey, Option.bind_some, hget]

/-- `errno` after `flappy_find_pkg_in_dict`. -/
def findErrno (d : Dict Str PkgDict) (pkg : Str) (errno : Option Errno) : Option Errno :=
  if (findPkgInDict d pkg).isSome then errno
  else
    match request pkg with
    | .pattern | .pkgver => if (requestKey pkg).isSome then some .enoent else some .einval
    | .pkgname => errno

/-- `flappy_find_virtualpkg_in_dict`, with the key of the package it returns. -/
def findVirtualKeyInDict (xhp : Handle) (d : Dict Str PkgDict) (pkg : Str) : Option Str :=
  ((vpkgUserConf xhp pkg).bind (findKeyInDict d)).or
    ((d.entries.find? fun e => matchVirtualPkgInDict e.2 pkg).map Prod.fst)

/-- `errno` after `flappy_find_virtualpkg_in_dict`. -/
def findVirtualErrno (xhp : Handle) (d : Dict Str PkgDict) (pkg : Str) (errno : Option Errno) :
    Option Errno :=
  match vpkgUserConf xhp pkg with
  | none => errno
  | some vpkg => findErrno d vpkg errno

/-- The test of `flappy_find_virtualpkg_in_conf` on one configured virtual package. -/
def virtualpkgConfMatches (env : Env) (pkg vpkgConf : Str) : Bool :=
  match request pkg with
  | .pattern =>
    if (pkgVersion vpkgConf).isSome then pkgpatternMatch vpkgConf pkg
    else pkgpatternMatch env.vpkgver pkg
  -- the buffer that holds the name of `vpkg_conf` is overwritten before it is compared
  | .pkgver => (pkgVersion vpkgConf).isSome || pkgName pkg = some vpkgConf
  | .pkgname => (if (pkgVersion vpkgConf).isSome then pkgName vpkgConf else some vpkgConf) = some pkg

/-- The provider that `flappy_find_virtualpkg_in_conf` looks up. -/
def virtualpkgInConf (env : Env) (xhp : Handle) (pkg : Str) : Option Str :=
  (xhp.vpkgdConf.get pkg).bind fun providers =>
    (providers.entries.find? fun e => virtualpkgConfMatches env pkg e.1).map Prod.snd

/-- Find the package for a request in an index, a configured virtual package first. -/
def repoFindKey (env : Env) (xhp : Handle) (d : Dict Str PkgDict) (pkg : Str) : Option Str :=
  ((virtualpkgInConf env xhp pkg).bind (findKeyInDict d)).or (findKeyInDict d pkg)

/-- `errno` after that. -/
def repoFindErrno (env : Env) (xhp : Handle) (d : Dict Str PkgDict) (pkg : Str)
    (errno : Option Errno) : Option Errno :=
  match virtualpkgInConf env xhp pkg with
  | none => findErrno d pkg errno
  | some cur =>
    if (findPkgInDict d cur).isSome then errno else findErrno d pkg (findErrno d cur errno)

/-- Set the properties that a package of a repository must have. -/
def describe (uri : Str) (d : PkgDict) : PkgDict :=
  if d.repository.isSome ∧ d.pkgname.isSome then d
  else
    match pkgName d.pkgver with
    | none => { d with repository := some uri }
    | some pkgname => { d with repository := some uri, pkgname := some pkgname }

/-- Can these properties be set? -/
def isDescribable (d : PkgDict) : Bool :=
  (d.repository.isSome && d.pkgname.isSome) || (pkgName d.pkgver).isSome

/-- The end of `flappy_repo_get_pkg` and `flappy_repo_get_virtualpkg`: describe the
package that was found in the repository at `i`. -/
def Rpool.describe (pool : Rpool) (i : Nat) (key : Option Str) : Rpool × Option PkgRef :=
  match key, pool.queue[i]? with
  | some key, some repo =>
    let ref : PkgRef := ⟨i, key⟩
    let found := if ((repo.idx.get key).map isDescribable).getD false then some ref else none
    (pool.modify ref (Flappy.describe repo.uri), found)
  | _, _ => (pool, none)

/-- `flappy_repo_get_pkg` on the repository at `i`. -/
def repoGetPkg (env : Env) (xhp : Handle) (pool : Rpool) (i : Nat) (pkg : Str) :
    Rpool × Option PkgRef :=
  match pool.queue[i]? with
  | none => (pool, none)
  | some repo =>
    { pool with errno := repoFindErrno env xhp repo.idx pkg pool.errno }.describe i
      (repoFindKey env xhp repo.idx pkg)

/-- `flappy_repo_get_virtualpkg` on the repository at `i`. -/
def repoGetVirtualpkg (xhp : Handle) (pool : Rpool) (i : Nat) (pkg : Str) :
    Rpool × Option PkgRef :=
  match pool.queue[i]? with
  | none => (pool, none)
  | some repo =>
    { pool with errno := findVirtualErrno xhp repo.idx pkg pool.errno }.describe i
      (findVirtualKeyInDict xhp repo.idx pkg)

/-! ### Lookups in the pool -/

/-- What a callback of `flappy_rpool_foreach` does: `rpf->pkgd`, its return value
and `done`. -/
structure CbResult where
  pool : Rpool
  pkgd : Option PkgRef
  rv : Option Errno := none
  done : Bool := false

/-- The place of a repository in the queue (`flappy_rpool_get_repo`). -/
def rpoolGetRepo (pool : Rpool) (url : Str) : Option Nat :=
  pool.queue.findIdx? fun repo => repo.uri = url

/-- Open a repository; one that cannot be opened is dropped from the list. -/
def Rpool.open (env : Env) (pool : Rpool) (uri : Str) : Rpool × Option Nat :=
  let pool := { pool with errno := env.openErrno uri pool.errno }
  match env.repoOpen uri with
  | none => ({ pool with repositories := removeStringFromArray pool.repositories uri }, none)
  | some idx => ({ pool with queue := pool.queue ++ [⟨uri, idx⟩] }, some pool.queue.length)

/-- `flappy_rpool_foreach` over the repositories that are left, with `rpf->pkgd`
and `foundrepo`. -/
def rpoolForeach (env : Env) (fn : Rpool → Nat → Option PkgRef → CbResult) :
    List Str → Rpool → Option PkgRef → Bool → Rpool × Option PkgRef × Option Errno
  | [], pool, pkgd, foundrepo => (pool, pkgd, if foundrepo then none else some .enotsup)
  | repouri :: uris, pool, pkgd, foundrepo =>
    let (pool, i) :=
      match rpoolGetRepo pool repouri with
      | some i => (pool, some i)
      | none => pool.open env repouri
    match i with
    | none => rpoolForeach env fn uris pool pkgd foundrepo
    | some i =>
      let r := fn pool i pkgd
      if r.rv.isSome ∨ r.done = true then (r.pool, r.pkgd, r.rv)
      else rpoolForeach env fn uris r.pool r.pkgd true

/-- `find_pkg_cb`. -/
def findPkgCb (env : Env) (xhp : Handle) (pattern : Str) (pool : Rpool) (i : Nat)
    (_ : Option PkgRef) : CbResult :=
  let (pool, pkgd) := repoGetPkg env xhp pool i pattern
  { pool, pkgd, done := pkgd.isSome }

/-- `find_virtualpkg_cb`. -/
def findVirtualpkgCb (xhp : Handle) (pattern : Str) (pool : Rpool) (i : Nat)
    (_ : Option PkgRef) : CbResult :=
  let (pool, pkgd) := repoGetVirtualpkg xhp pool i pattern
  { pool, pkgd, done := pkgd.isSome }

/-- The pkgver behind a reference. -/
def Rpool.pkgver (pool : Rpool) (ref : PkgRef) : Str :=
  ((pool.get ref).map PkgDict.pkgver).getD []

/-- `find_best_pkg_cb`. -/
def findBestPkgCb (env : Env) (xhp : Handle) (pattern : Str) (pool : Rpool) (i : Nat)
    (best : Option PkgRef) : CbResult :=
  let (pool, pkgd) := repoGetPkg env xhp pool i pattern
  match pkgd, best with
  | none, _ =>
    -- whatever an earlier call has left in `errno` ends the search
    { pool, pkgd := best
      rv := if pool.errno = none ∨ pool.errno = some .enoent then none else pool.errno }
  | some ref, none => { pool, pkgd := some ref }
  | some ref, some b =>
    { pool, pkgd := if cmpver (pool.pkgver ref) (pool.pkgver b) = 1 then some ref else some b }

/-- `repo_find_pkg`, for a callback. -/
def repoFindPkg (env : Env) (fn : Rpool → Nat → Option PkgRef → CbResult) (pool : Rpool) :
    Rpool × Option PkgRef :=
  match rpoolForeach env fn pool.repositories pool none false with
  | (pool, _, some e) => ({ pool with errno := some e }, none)
  | (pool, none, none) => ({ pool with errno := some .enoent }, none)
  | (pool, some ref, none) => (pool, some ref)

/-- `flappy_rpool_get_pkg`. -/
def rpoolGetPkg (env : Env) (xhp : Handle) (pool : Rpool) (pkg : Str) : Rpool × Option PkgRef :=
  if xhp.flags.bestmatch then repoFindPkg env (findBestPkgCb env xhp pkg) pool
  else repoFindPkg env (findPkgCb env xhp pkg) pool

/-- `flappy_rpool_get_virtualpkg`. -/
def rpoolGetVirtualpkg (env : Env) (xhp : Handle) (pool : Rpool) (pkg : Str) :
    Rpool × Option PkgRef :=
  repoFindPkg env (findVirtualpkgCb xhp pkg) pool

/-- The loop of `flappy_regget_repo` that fills an empty queue; `none` if it gives up. -/
def reggetOpen (env : Env) (url : Str) : List Str → Rpool → Rpool × Bool
  | [], pool => (pool, true)
  | repouri :: uris, pool =>
    if repouri ≠ url then reggetOpen env url uris pool
    else
      let pool := { pool with errno := env.openErrno repouri pool.errno }
      match env.repoOpen repouri with
      | none => (pool, false)
      | some idx => reggetOpen env url uris { pool with queue := pool.queue ++ [⟨repouri, idx⟩] }

/-- `flappy_regget_repo`: repositories are opened only while the queue is empty. -/
def reggetRepo (env : Env) (pool : Rpool) (url : Str) : Rpool × Option Nat :=
  if pool.queue = [] then
    match reggetOpen env url pool.repositories pool with
    | (pool, false) => (pool, none)
    | (pool, true) => (pool, rpoolGetRepo pool url)
  else (pool, rpoolGetRepo pool url)

/-! ### Later states of a pool -/

/-- The dictionary is one of a repository as it is opened. -/
def Env.Fresh (env : Env) (d : PkgDict) : Prop :=
  ∃ uri idx, env.repoOpen uri = some idx ∧ d ∈ idx.values

/-- `pool'` is a later state of `pool`. -/
structure PoolExt (env : Env) (pool pool' : Rpool) : Prop where
  kept : ∀ ref d, pool.get ref = some d → ∃ d', pool'.get ref = some d' ∧ Evolves d d'
  origin : ∀ ref d', pool'.get ref = some d' →
    (∃ d, pool.get ref = some d ∧ Evolves d d') ∨ ∃ d, env.Fresh d ∧ Evolves d d'

theorem PoolExt.refl (env : Env) (pool : Rpool) : PoolExt env pool pool :=
  ⟨fun _ d h => ⟨d, h, Evolves.refl d⟩, fun _ d h => Or.inl ⟨d, h, Evolves.refl d⟩⟩

theorem PoolExt.trans {env : Env} {p q r : Rpool} (h : PoolExt env p q) (h' : PoolExt env q r) :
    PoolExt env p r := by
  refine ⟨fun ref d hd => ?_, fun ref d hd => ?_⟩
  · obtain ⟨d', hd', hc⟩ := h.kept ref d hd
    obtain ⟨d'', hd'', hc'⟩ := h'.kept ref d' hd'
    exact ⟨d'', hd'', hc.trans hc'⟩
  · rcases h'.origin ref d hd with ⟨d', hd', hc⟩ | hf
    · rcases h.origin ref d' hd' with ⟨d'', hd'', hc'⟩ | ⟨d'', hf, hc'⟩
      · exact Or.inl ⟨d'', hd'', hc'.trans hc⟩
      · exact Or.inr ⟨d'', hf, hc'.trans hc⟩
    · exact Or.inr hf

/-- A pool with the same queue. -/
theorem PoolExt.of_queue_eq {env : Env} {pool pool' : Rpool} (h : pool'.queue = pool.queue) :
    PoolExt env pool pool' := by
  have hget : ∀ ref, pool'.get ref = pool.get ref := fun ref => by rw [Rpool.get, Rpool.get, h]
  exact ⟨fun ref d hd => ⟨d, (hget ref).trans hd, Evolves.refl d⟩,
    fun ref d hd => Or.inl ⟨d, (hget ref).symm.trans hd, Evolves.refl d⟩⟩

theorem Rpool.get_modify_self (pool : Rpool) (ref : PkgRef) (f : PkgDict → PkgDict) :
    (pool.modify ref f).get ref = (pool.get ref).map f := by
  rw [Rpool.get, Rpool.get, Rpool.modify, List.getElem?_modify]
  cases h : pool.queue[ref.repo]? with
  | none => rfl
  | some repo => simp [Dict.get_modify_self]

theorem Rpool.get_modify_ne (pool : Rpool) {ref ref' : PkgRef} (f : PkgDict → PkgDict)
    (h : ref' ≠ ref) : (pool.modify ref f).get ref' = pool.get ref' := by
  rw [Rpool.get, Rpool.get, Rpool.modify, List.getElem?_modify]
  by_cases hr : ref.repo = ref'.repo
  · have hk : ref'.key ≠ ref.key := by
      intro hk
      apply h
      cases ref
      cases ref'
      simp_all
    cases hq : pool.queue[ref'.repo]? with
    | none => rfl
    | some repo => simp [hr, Dict.get_modify_ne _ _ hk]
  · simp [hr]

/-- Bookkeeping on one dictionary. -/
theorem PoolExt.modify {env : Env} (pool : Rpool) (ref : PkgRef) {f : PkgDict → PkgDict}
    (hf : ∀ d, pool.get ref = some d → Evolves d (f d)) :
    PoolExt env pool (pool.modify ref f) := by
  refine ⟨fun ref' d hd => ?_, fun ref' d' hd' => ?_⟩
  · by_cases h : ref' = ref
    · subst h
      exact ⟨f d, by rw [Rpool.get_modify_self, hd, Option.map_some], hf d hd⟩
    · exact ⟨d, by rw [Rpool.get_modify_ne pool f h, hd], Evolves.refl d⟩
  · by_cases h : ref' = ref
    · subst h
      rw [Rpool.get_modify_self] at hd'
      obtain ⟨d, hd, rfl⟩ := Option.map_eq_some_iff.mp hd'
      exact Or.inl ⟨d, hd, hf d hd⟩
    · rw [Rpool.get_modify_ne pool f h] at hd'
      exact Or.inl ⟨d', hd', Evolves.refl d'⟩

/-- Opening a repository. -/
theorem PoolExt.append {env : Env} {pool pool' : Rpool} {uri : Str} {idx : Dict Str PkgDict}
    (h : env.repoOpen uri = some idx) (hq : pool'.queue = pool.queue ++ [⟨uri, idx⟩]) :
    PoolExt env pool pool' := by
  refine ⟨fun ref d hd => ⟨d, ?_, Evolves.refl d⟩, fun ref d' hd' => ?_⟩
  · obtain ⟨repo, hrepo, hget⟩ := Option.bind_eq_some_iff.mp hd
    have hlt := (List.getElem?_eq_some_iff.mp hrepo).1
    rw [Rpool.get, hq, List.getElem?_append_left hlt, hrepo, Option.bind_some, hget]
  · obtain ⟨repo, hrepo, hget⟩ := Option.bind_eq_some_iff.mp hd'
    rw [hq] at hrepo
    by_cases hlt : ref.repo < pool.queue.length
    · rw [List.getElem?_append_left hlt] at hrepo
      exact Or.inl ⟨d', by rw [Rpool.get, hrepo, Option.bind_some, hget], Evolves.refl d'⟩
    · -- the new repository
      rw [List.getElem?_append_right (by omega), List.getElem?_singleton] at hrepo
      split at hrepo
      · obtain rfl := Option.some.inj hrepo
        exact Or.inr ⟨d', ⟨uri, idx, h, Dict.mem_values_of_get hget⟩, Evolves.refl d'⟩
      · cases hrepo

/-- The reference stands for a dictionary. -/
def Rpool.Valid (pool : Rpool) (ref : PkgRef) : Prop := (pool.get ref).isSome

theorem PoolExt.valid {env : Env} {pool pool' : Rpool} (h : PoolExt env pool pool')
    {ref : PkgRef} (hv : pool.Valid ref) : pool'.Valid ref := by
  obtain ⟨d, hd⟩ := Option.isSome_iff_exists.mp hv
  obtain ⟨d', hd', -⟩ := h.kept ref d hd
  exact Option.isSome_iff_exists.mpr ⟨d', hd'⟩

theorem evolves_describe (uri : Str) (d : PkgDict) : Evolves d (describe uri d) := by
  rw [describe]
  split
  · exact Evolves.refl d
  · split
    · exact Evolves.of_core rfl (List.Subset.refl _)
    · next pkgname hn => exact ⟨rfl, Or.inr hn.symm, List.Subset.refl _⟩

/-- What a lookup does to the pool: it leads to a later state, and what it finds is there. -/
def LookupOk (env : Env) (pool : Rpool) (r : Rpool × Option PkgRef) : Prop :=
  PoolExt env pool r.1 ∧ ∀ ref, r.2 = some ref → r.1.Valid ref

theorem Rpool.describe_spec (env : Env) (pool : Rpool) (i : Nat) (key : Option Str) :
    LookupOk env pool (pool.describe i key) := by
  unfold Rpool.describe
  split
  · next key repo hrepo =>
    refine ⟨PoolExt.modify pool ⟨i, key⟩ fun d _ => evolves_describe repo.uri d, fun ref h => ?_⟩
    simp only at h
    split at h
    · next hd =>
      obtain rfl := Option.some.inj h
      rw [Rpool.Valid, Rpool.get_modify_self, Option.isSome_map, Rpool.get, hrepo, Option.bind_some]
      cases hk : repo.idx.get key with
      | none => simp [hk] at hd
      | some d => rfl
    · cases h
  · exact ⟨PoolExt.refl env pool, fun ref h => by cases h⟩

theorem LookupOk.of_queue_eq {env : Env} {pool pool' : Rpool} {r : Rpool × Option PkgRef}
    (h : LookupOk env pool' r) (hq : pool'.queue = pool.queue) : LookupOk env pool r :=
  ⟨(PoolExt.of_queue_eq hq).trans h.1, h.2⟩

theorem repoGetPkg_spec (env : Env) (xhp : Handle) (pool : Rpool) (i : Nat) (pkg : Str) :
    LookupOk env pool (repoGetPkg env xhp pool i pkg) := by
  rw [repoGetPkg]
  split
  · exact ⟨PoolExt.refl env pool, fun ref h => by cases h⟩
  · exact (Rpool.describe_spec env _ i _).of_queue_eq rfl

theorem repoGetVirtualpkg_spec (env : Env) (xhp : Handle) (pool : Rpool) (i : Nat) (pkg : Str) :
    LookupOk env pool (repoGetVirtualpkg xhp pool i pkg) := by
  rw [repoGetVirtualpkg]
  split
  · exact ⟨PoolExt.refl env pool, fun ref h => by cases h⟩
  · exact (Rpool.describe_spec env _ i _).of_queue_eq rfl

/-- What a callback has to do. -/
def CbOk (env : Env) (fn : Rpool → Nat → Option PkgRef → CbResult) : Prop :=
  ∀ pool i best, (∀ ref, best = some ref → pool.Valid ref) →
    LookupOk env pool ((fn pool i best).pool, (fn pool i best).pkgd)

theorem findPkgCb_ok (env : Env) (xhp : Handle) (pattern : Str) :
    CbOk env (findPkgCb env xhp pattern) :=
  fun pool i _ _ => repoGetPkg_spec env xhp pool i pattern

theorem findVirtualpkgCb_ok (env : Env) (xhp : Handle) (pattern : Str) :
    CbOk env (findVirtualpkgCb xhp pattern) :=
  fun pool i _ _ => repoGetVirtualpkg_spec env xhp pool i pattern

theorem findBestPkgCb_ok (env : Env) (xhp : Handle) (pattern : Str) :
    CbOk env (findBestPkgCb env xhp pattern) := by
  intro pool i best hbest
  obtain ⟨hext, hvalid⟩ := repoGetPkg_spec env xhp pool i pattern
  rw [findBestPkgCb]
  cases hr : repoGetPkg env xhp pool i pattern with
  | mk pool' pkgd =>
    rw [hr] at hext hvalid
    cases pkgd with
    | none => exact ⟨hext, fun ref h => hext.valid (hbest ref h)⟩
    | some ref =>
      cases best with
      | none => exact ⟨hext, hvalid⟩
      | some b =>
        refine ⟨hext, fun ref' h => ?_⟩
        simp only at h
        split at h
        · exact hvalid ref' h
        · exact hext.valid (hbest ref' h)

theorem Rpool.open_spec (env : Env) (pool : Rpool) (uri : Str) :
    PoolExt env pool (pool.open env uri).1 := by
  rw [Rpool.open]
  split
  · exact PoolExt.of_queue_eq rfl
  · next idx h =>
    exact PoolExt.append h rfl

/-- What opening a repository and the callback keep holds after a walk over the repositories;
`K` is what is known of the codes the callback returns. -/
theorem rpoolForeach_rule {env : Env} {fn : Rpool → Nat → Option PkgRef → CbResult}
    {J : Rpool → Option PkgRef → Prop} {K : Option Errno → Prop}
    (hopen : ∀ pool pkgd uri, J pool pkgd → J (pool.open env uri).1 pkgd)
    (hfn : ∀ pool i pkgd, J pool pkgd →
      J (fn pool i pkgd).pool (fn pool i pkgd).pkgd ∧ K (fn pool i pkgd).rv)
    (hnone : K none) (hsup : K (some .enotsup)) :
    ∀ (uris : List Str) (pool : Rpool) (pkgd : Option PkgRef) (foundrepo : Bool), J pool pkgd →
      J (rpoolForeach env fn uris pool pkgd foundrepo).1
          (rpoolForeach env fn uris pool pkgd foundrepo).2.1 ∧
        K (rpoolForeach env fn uris pool pkgd foundrepo).2.2 := by
  intro uris
  induction uris with
  | nil =>
    intro pool pkgd foundrepo h
    refine ⟨h, ?_⟩
    cases foundrepo with
    | true => exact hnone
    | false => exact hsup
  | cons uri uris ih =>
    intro pool pkgd foundrepo h
    rw [rpoolForeach]
    -- the repository, opened if it has to be
    generalize hopen' : (match rpoolGetRepo pool uri with
      | some i => (pool, some i)
      | none => pool.open env uri) = o
    obtain ⟨pool₁, i⟩ := o
    have h₁ : J pool₁ pkgd := by
      split at hopen'
      · rw [Prod.mk.injEq] at hopen'
        exact hopen'.1 ▸ h
      · have := hopen pool pkgd uri h
        rwa [hopen'] at this
    cases i with
    | none => exact ih pool₁ pkgd foundrepo h₁
    | some i =>
      obtain ⟨hJ, hK⟩ := hfn pool₁ i pkgd h₁
      simp only
      split
      · exact ⟨hJ, hK⟩
      · exact ih (fn pool₁ i pkgd).pool (fn pool₁ i pkgd).pkgd true hJ

theorem rpoolForeach_spec {env : Env} {fn : Rpool → Nat → Option PkgRef → CbResult}
    (hfn : CbOk env fn) (uris : List Str) (pool : Rpool) (pkgd : Option PkgRef) (foundrepo : Bool)
    (h : ∀ ref, pkgd = some ref → pool.Valid ref) :
    LookupOk env pool ((rpoolForeach env fn uris pool pkgd foundrepo).1,
      (rpoolForeach env fn uris pool pkgd foundrepo).2.1) := by
  have hrule := @rpoolForeach_rule env fn (fun pool' pkgd' => LookupOk env pool (pool', pkgd'))
    (fun _ => True) ?_ ?_ trivial trivial uris pool pkgd foundrepo ⟨PoolExt.refl env pool, h⟩
  · exact hrule.1
  · intro pool' pkgd' uri h'
    have hext := Rpool.open_spec env pool' uri
    exact ⟨h'.1.trans hext, fun ref hr => hext.valid (h'.2 ref hr)⟩
  · intro pool' i pkgd' h'
    obtain ⟨hext, hv⟩ := hfn pool' i pkgd' h'.2
    exact ⟨⟨h'.1.trans hext, hv⟩, trivial⟩

theorem repoFindPkg_spec {env : Env} {fn : Rpool → Nat → Option PkgRef → CbResult}
    (hfn : CbOk env fn) (pool : Rpool) : LookupOk env pool (repoFindPkg env fn pool) := by
  obtain ⟨hext, hv⟩ := rpoolForeach_spec hfn pool.repositories pool none false
    fun ref h => by cases h
  rw [repoFindPkg]
  split
  · next pool' ref e h =>
    rw [h] at hext
    exact ⟨hext.trans (PoolExt.of_queue_eq rfl), fun ref h => by cases h⟩
  · next pool' h =>
    rw [h] at hext
    exact ⟨hext.trans (PoolExt.of_queue_eq rfl), fun ref h => by cases h⟩
  · next pool' ref h =>
    rw [h] at hext hv
    exact ⟨hext, hv⟩

theorem rpoolGetPkg_spec (env : Env) (xhp : Handle) (pool : Rpool) (pkg : Str) :
    LookupOk env pool (rpoolGetPkg env xhp pool pkg) := by
  rw [rpoolGetPkg]
  split
  · exact repoFindPkg_spec (findBestPkgCb_ok env xhp pkg) pool
  · exact repoFindPkg_spec (findPkgCb_ok env xhp pkg) pool

theorem rpoolGetVirtualpkg_spec (env : Env) (xhp : Handle) (pool : Rpool) (pkg : Str) :
    LookupOk env pool (rpoolGetVirtualpkg env xhp pool pkg) :=
  repoFindPkg_spec (findVirtualpkgCb_ok env xhp pkg) pool

theorem reggetOpen_spec (env : Env) (url : Str) :
    ∀ (uris : List Str) (pool : Rpool), PoolExt env pool (reggetOpen env url uris pool).1 := by
  intro uris
  induction uris with
  | nil => exact fun pool => PoolExt.refl env pool
  | cons uri uris ih =>
    intro pool
    rw [reggetOpen]
    split
    · exact ih pool
    · simp only
      split
      · exact PoolExt.of_queue_eq rfl
      · next idx h =>
        exact (PoolExt.append h rfl).trans (ih _)

theorem reggetRepo_spec (env : Env) (pool : Rpool) (url : Str) :
    PoolExt env pool (reggetRepo env pool url).1 := by
  rw [reggetRepo]
  split
  · have h := reggetOpen_spec env url pool.repositories pool
    split
    · next pool' hr => rwa [hr] at h
    · next pool' hr => rwa [hr] at h
  · exact PoolExt.refl env pool

end Flappy
