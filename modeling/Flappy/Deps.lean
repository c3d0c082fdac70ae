/-
The dependency resolver (`lib/transaction_pkg_deps.c`).

`repo_deps` walks the `run_depends` of a package.  A dependency that is neither
queued, in the transaction nor installed is looked up in the repositories, its
own dependencies are resolved first, and then it is put into the transaction.
The recursion is cut after `MAX_DEPTH` calls, which is the measure on which the
model recurs.

Two things of the source are easy to overlook and are kept: a package that is
found to depend on itself has the dependency removed from the array held in the
variable `pkg_rdeps`, which after a recursive call is the array of another
package; and the iterator over an array ends as soon as the array changes.

* `depInstalled` — the passes before the repositories are asked;
* `depLookup` — the lookup in the repositories;
* `repoDeps` — the recursion; the places it comes along are recorded;
* `ResolverRule.repoDepsLeads` — what one place has to preserve for an invariant to
  hold after a call.
-/
import Flappy.Ops

open CStr

namespace Flappy

/-- `MAX_DEPTH`. -/
def maxDepth : Nat := 512

/-! ### Missing dependencies -/

/-- How the scan of `add_missing_reqdep` ends. -/
inductive MissingScan where
  /-- The list stays as it is. -/
  | keep
  /-- `EEXIST`. -/
  | known
  /-- The entry at this index goes, the dependency is added. -/
  | replace (idx : Nat)
  | add
deriving DecidableEq, Repr

/-- The loop of `add_missing_reqdep`. -/
def missingScan (reqpkg : Str) : List Str → Nat → MissingScan
  | [], _ => .add
  | curdep :: mdeps, idx =>
    match pkgpatternVersion curdep, pkgpatternVersion reqpkg with
    | some curver, some pkgver =>
      match pkgpatternName curdep, pkgpatternName reqpkg with
      | some curpkgnamedep, some pkgnamedep =>
        if pkgnamedep = curpkgnamedep then
          if curver = pkgver then .known
          else if cmpver curver pkgver ≤ 0 then .known
          else .replace idx
        else missingScan reqpkg mdeps (idx + 1)
      | _, _ => .keep
    | _, _ => .keep

/-- The text under which a missing dependency is recorded. -/
def missingText (reqpkg : Str) : Str := "MISSING: ".toList ++ reqpkg

/-- `add_missing_reqdep`.  Its callers treat `EEXIST` like 0, so only the list is left. -/
def addMissingReqdep (mdeps : Option (List Str)) (reqpkg : Str) : Option (List Str) :=
  mdeps.map fun mdeps =>
    match missingScan reqpkg mdeps 0 with
    | .keep | .known => mdeps
    | .replace idx => mdeps.eraseIdx idx ++ [missingText reqpkg]
    | .add => mdeps ++ [missingText reqpkg]

/-! ### One dependency -/

/-- What is to be done about a dependency. -/
inductive DepAction where
  /-- Leave the loop with an error. -/
  | fail (rv : Rv)
  | skip
  /-- Record it as missing. -/
  | missing
  /-- Only configure the installed package. -/
  | configure (curpkgd : PkgDict)
  /-- Look for it in the repositories. -/
  | resolve (curpkgd : Option PkgDict) (ttype : TransType) (autoinst : Bool)
deriving DecidableEq, Repr

/-- Does the entry of the transaction make the dependency superfluous? -/
def isQueuedEntry (curpkgd : Option PkgDict) : Bool :=
  match curpkgd with
  | none => false
  | some d => d.transaction ≠ .remove ∧ d.transaction ≠ .hold

/-- Find a package or a provider in an array. -/
def findAnyInArray (xhp : Handle) (array : List PkgDict) (reqpkg : Str) : Option PkgDict :=
  (findPkgInArray array reqpkg .unknown).or (findVirtualpkgInArray xhp array reqpkg .unknown)

/-- The decision about a dependency whose package (or a provider of its name, if
`foundvpkg`) is installed. -/
def depSatisfied (curpkgd : PkgDict) (foundvpkg : Bool) (pkgname reqpkg : Str) : DepAction :=
  match curpkgd.state with
  | none => .fail (.err .einval)
  | some state =>
    if foundvpkg = true ∧ matchVirtualPkgInDict curpkgd reqpkg = true then .skip
    else if pkgpatternMatch curpkgd.pkgver reqpkg = false then
      -- the version requirement is not satisfied
      match pkgName curpkgd.pkgver with
      | none => .fail .abort
      | some curpkgname =>
        if curpkgd.hold.isSome then .missing
        else if pkgname = curpkgname then
          .resolve (some curpkgd) .update (curpkgd.automaticInstall.getD false)
        else .resolve (some curpkgd) .install true
    else
      match state with
      | .unpacked => .configure curpkgd
      | .installed => .skip
      | _ => .resolve (some curpkgd) .unknown true

/-- Pass 4: what is installed under the name of the dependency. -/
def depPkgdb (st : State) (pkgname : Str) : State × Option PkgDict × Bool :=
  let (st, curpkgd, foundvpkg) : State × Option PkgDict × Bool :=
    match st.pkgdbGetPkg pkgname with
    | (st, some p) => (st, some p, false)
    | (st, none) =>
      let (st, v) := st.pkgdbGetVirtualpkg pkgname
      (st, v, v.isSome)
  (st, if st.xhp.flags.downloadOnly then none else curpkgd, foundvpkg)

/-- `errno` holds an error other than `ENOENT`. -/
def State.failed (st : State) : Option Errno :=
  if st.pool.errno = some .enoent then none else st.pool.errno

/-- The passes of `repo_deps` before the repositories are asked. -/
def depInstalled (st : State) (queued : List PkgDict) (pkgRepod : PkgDict) (reqpkg : Str) :
    State × DepAction :=
  match depName reqpkg with
  | none => (st, .fail (.err .enxio))
  | some pkgname =>
    if pkgIsIgnored st.xhp pkgname then (st, .skip)
    else if matchVirtualPkgInDict pkgRepod reqpkg then (st, .skip)
    else if (findAnyInArray st.xhp queued reqpkg).isSome then (st, .skip)
    else if isQueuedEntry (findAnyInArray st.xhp st.packages reqpkg) then (st, .skip)
    else
      -- the searches so far have left this behind
      let st := { st with pool.errno := some .enoent }
      match depPkgdb st pkgname with
      | (st, some curpkgd, foundvpkg) => (st, depSatisfied curpkgd foundvpkg pkgname reqpkg)
      | (st, none, _) =>
        match st.failed with
        | some e => (st, .fail (.err e))
        | none => (st, .resolve none .install true)

/-- Pass 5: find the dependency in the repositories. -/
def depLookup (env : Env) (st : State) (curpkgd : Option PkgDict) (reqpkg : Str) :
    State × Option PkgRef :=
  if (curpkgd.bind PkgDict.repolock).isSome then
    match curpkgd.bind PkgDict.repository with
    | none => (st, none)
    | some repourl => st.repoGetPkg env repourl reqpkg
  else st.rpoolGetAny env reqpkg

/-! ### Removing a dependency -/

/-- A removal from a `run_depends` array, as one dictionary sees it. -/
def dropRunDepend (id : Nat) (dep : Str) (d : PkgDict) : PkgDict :=
  if d.runDependsId = id then
    { d with runDepends := d.runDepends.map fun deps => removeStringFromArray deps dep }
  else d

/-- Change every package dictionary. -/
def State.mapDicts (st : State) (f : PkgDict → PkgDict) : State :=
  { st with
    xhp.pkgdb := st.xhp.pkgdb.mapValues f
    pool.queue := st.pool.queue.map fun repo => { repo with idx := repo.idx.mapValues f }
    packages := st.packages.map f }

/-- All package dictionaries. -/
def State.dicts (st : State) : List PkgDict :=
  st.xhp.pkgdb.values ++ st.pool.queue.flatMap (fun repo => repo.idx.values) ++ st.packages

/-- `flappy_remove_string_from_array` on a `run_depends` array. -/
def State.removeRunDepend (st : State) (id : Nat) (dep : Str) : State :=
  if st.dicts.any fun d => d.runDependsId = id ∧ (d.runDepends.getD []).contains dep = true then
    { st.mapDicts (dropRunDepend id dep) with edits := id :: st.edits }
  else st

/-! ### The recursion -/

/-- A place the resolver comes along: it looks at a dependency of a package, with
these packages queued, `depth` calls deep. -/
structure Look where
  st : State
  queued : List PkgDict
  depth : Nat
  pkgRepod : PkgDict
  reqpkg : Str

/-- The resolver: the state, the queued packages, and the places so far. -/
structure Resolver where
  st : State
  queued : List PkgDict := []
  looks : List Look := []

/-- The `run_depends` array of a dictionary. -/
def PkgDict.rdeps (d : PkgDict) : Option Nat := d.runDepends.map fun _ => d.runDependsId

/-- The type of the entry for a resolved dependency. -/
def depType (xhp : Handle) (curpkgd : Option PkgDict) (ttype : TransType) : TransType :=
  if xhp.flags.downloadOnly then .download
  else if (curpkgd.bind PkgDict.hold).isSome then .hold
  else ttype

/-- The end of the loop body: the dependency's own dependencies were processed. -/
def depStore (r : Resolver) (ref : PkgRef) (curpkgd : Option PkgDict) (ttype : TransType)
    (autoinst : Bool) : Resolver × Rv :=
  let ttype := depType r.st.xhp curpkgd ttype
  let r := { r with queued := r.queued.dropLast }
  match r.st.pool.get ref with
  | none => (r, .err .einval)
  | some d =>
    if ttype = .unknown then (r, .err .einval)
    else
      let (st, rv) := r.st.store ref { d with transaction := ttype } autoinst
      ({ r with st }, rv)

/-- Pass 5 and what follows, with the variable `pkg_rdeps`; `call` is the recursive call. -/
def depResolve (env : Env) (call : Resolver → PkgDict → Resolver × Rv) (r : Resolver)
    (pkgRepod : PkgDict) (rdeps : Option Nat) (reqpkg : Str) (curpkgd : Option PkgDict)
    (ttype : TransType) (autoinst : Bool) : Resolver × Option Nat × Rv :=
  match depLookup env r.st curpkgd reqpkg with
  | (st, none) =>
    match st.failed with
    | some e => ({ r with st }, rdeps, .err e)
    | none =>
      ({ r with st := { st with missingDeps := addMissingReqdep st.missingDeps reqpkg } },
        rdeps, .ok)
  | (st, some ref) =>
    match st.pool.get ref with
    | none => ({ r with st }, rdeps, .err .einval)
    | some d =>
      match pkgName d.pkgver, pkgName pkgRepod.pkgver with
      | some reqpkgname, some pkgname =>
        if pkgname = reqpkgname then
          -- depends on itself; `remove_obj_from_array` asserts that there is an array
          match rdeps with
          | none => ({ r with st }, rdeps, .abort)
          | some id => ({ r with st := st.removeRunDepend id reqpkg }, rdeps, .ok)
        else
          let (st, updating) :=
            if ttype = .update ∧ pkgpatternMatch d.pkgver reqpkg = true then
              st.findPkg reqpkgname .update
            else (st, none)
          if updating.isSome then ({ r with st }, rdeps, .err .enodev)
          else
            let r := { r with st, queued := r.queued ++ [d] }
            let (r, rv) := if (d.runDepends.getD []) = [] then (r, .ok) else call r d
            match rv with
            | .ok =>
              let (r, rv) := depStore r ref curpkgd ttype autoinst
              (r, d.rdeps, rv)
            | rv => (r, d.rdeps, rv)
      | _, _ => ({ r with st }, rdeps, .err .einval)

/-- The loop body of `repo_deps`. -/
def depStep (env : Env) (call : Resolver → PkgDict → Resolver × Rv) (r : Resolver)
    (pkgRepod : PkgDict) (rdeps : Option Nat) (reqpkg : Str) : Resolver × Option Nat × Rv :=
  match depInstalled r.st r.queued pkgRepod reqpkg with
  | (st, .fail rv) => ({ r with st }, rdeps, rv)
  | (st, .skip) => ({ r with st }, rdeps, .ok)
  | (st, .missing) =>
    ({ r with st := { st with missingDeps := addMissingReqdep st.missingDeps reqpkg } },
      rdeps, .ok)
  | (st, .configure curpkgd) =>
    let (st, rv) := st.storePkgdb curpkgd .configure (curpkgd.automaticInstall.getD false)
    ({ r with st }, rdeps, rv)
  | (st, .resolve curpkgd ttype autoinst) =>
    depResolve env call { r with st } pkgRepod rdeps reqpkg curpkgd ttype autoinst

/-- The loop of `repo_deps` over the rest of the dependencies.  `edits` counts the
changes of the array when the loop began. -/
def depLoop (env : Env) (call : Resolver → PkgDict → Resolver × Rv) (depth : Nat)
    (pkgRepod : PkgDict) (edits : Nat) : List Str → Option Nat → Resolver → Resolver × Rv
  | [], _, r => (r, .ok)
  | reqpkg :: deps, rdeps, r =>
    -- the iterator ends once the array has changed
    if r.st.edits.count pkgRepod.runDependsId ≠ edits then (r, .ok)
    else
      let r := { r with looks := r.looks ++ [⟨r.st, r.queued, depth, pkgRepod, reqpkg⟩] }
      match depStep env call r pkgRepod rdeps reqpkg with
      | (r, rdeps, .ok) => depLoop env call depth pkgRepod edits deps rdeps r
      | (r, _, rv) => (r, rv)

/-- `repo_deps`, with the number of calls that may still be nested. -/
def repoDeps (env : Env) : Nat → Resolver → PkgDict → Resolver × Rv
  | 0, r, _ => (r, .err .eloop)
  | n + 1, r, pkgRepod =>
    depLoop env (repoDeps env n) (maxDepth - (n + 1)) pkgRepod
      (r.st.edits.count pkgRepod.runDependsId) (pkgRepod.runDepends.getD []) pkgRepod.rdeps r

/-- `flappy_transaction_pkg_deps`, with the places the resolver came along. -/
def transactionPkgDeps (env : Env) (st : State) (pkgRepod : PkgDict) : State × List Look × Rv :=
  let (r, rv) := repoDeps env maxDepth { st } pkgRepod
  (r.st, r.looks, rv)

/-! ### Later states -/

/-- `st'` is a later state of the resolver. -/
structure Later (env : Env) (st st' : State) : Prop where
  pool : PoolExt env st.pool st'.pool
  db : SameDb st.xhp st'.xhp

theorem Later.refl (env : Env) (st : State) : Later env st st :=
  ⟨PoolExt.refl env st.pool, SameDb.refl st.xhp⟩

theorem Later.trans {env : Env} {a b c : State} (h : Later env a b) (h' : Later env b c) :
    Later env a c :=
  ⟨h.pool.trans h'.pool, h.db.trans h'.db⟩

theorem Looked.later {env : Env} {st st' : State} (h : Looked env st st') : Later env st st' :=
  ⟨h.pool, h.xhp ▸ SameDb.refl st.xhp⟩

theorem core_dropRunDepend (id : Nat) (dep : Str) (d : PkgDict) :
    (dropRunDepend id dep d).core = d.core := by
  rw [dropRunDepend]
  split
  · rfl
  · rfl

theorem runDepends_dropRunDepend (id : Nat) (dep : Str) (d : PkgDict) :
    (dropRunDepend id dep d).runDepends.getD [] ⊆ d.runDepends.getD [] := by
  rw [dropRunDepend]
  split
  · cases d.runDepends with
    | none => exact List.Subset.refl _
    | some deps => exact List.eraseP_sublist.subset
  · exact List.Subset.refl _

theorem evolves_dropRunDepend (id : Nat) (dep : Str) (d : PkgDict) :
    Evolves d (dropRunDepend id dep d) :=
  .of_core (core_dropRunDepend id dep d) (runDepends_dropRunDepend id dep d)

theorem State.mapDicts_later (env : Env) (st : State) {f : PkgDict → PkgDict}
    (hcore : ∀ d, (f d).core = d.core) (hf : ∀ d, Evolves d (f d)) :
    Later env st (st.mapDicts f) := by
  have hget : ∀ ref, (st.mapDicts f).pool.get ref = (st.pool.get ref).map f := by
    intro ref
    rw [Rpool.get, Rpool.get, State.mapDicts, List.getElem?_map]
    cases st.pool.queue[ref.repo]? with
    | none => rfl
    | some repo => exact Dict.get_mapValues repo.idx f ref.key
  refine ⟨⟨fun ref d hd => ⟨f d, ?_, hf d⟩, fun ref d' hd' => Or.inl ?_⟩,
    SameDb.mapValues st.xhp hcore⟩
  · rw [hget, hd, Option.map_some]
  · rw [hget] at hd'
    obtain ⟨d, hd, rfl⟩ := Option.map_eq_some_iff.mp hd'
    exact ⟨d, hd, hf d⟩

theorem State.removeRunDepend_later (env : Env) (st : State) (id : Nat) (dep : Str) :
    Later env st (st.removeRunDepend id dep) := by
  rw [State.removeRunDepend]
  split
  · have h := st.mapDicts_later env (core_dropRunDepend id dep) (evolves_dropRunDepend id dep)
    exact ⟨h.pool, h.db⟩
  · exact Later.refl env st

theorem State.store_later {env : Env} (st : State) (ref : PkgRef) {d : PkgDict} (autoinst : Bool)
    (hd : ∀ d₀, st.pool.get ref = some d₀ → Evolves d₀ d) :
    Later env st (st.store ref d autoinst).1 := by
  obtain ⟨hx, -, -, ⟨d', hd', hq⟩, -⟩ := st.store_spec ref d autoinst
  refine ⟨?_, hx ▸ SameDb.refl st.xhp⟩
  refine (PoolExt.modify st.pool ref fun d₀ h => ?_).trans (PoolExt.of_queue_eq hq)
  exact (hd d₀ h).trans hd'

theorem State.storePkgdb_later (env : Env) (st : State) (pkgd : PkgDict) (ttype : TransType)
    (autoinst : Bool) : Later env st (st.storePkgdb pkgd ttype autoinst).1 := by
  obtain ⟨hdb, hq, -⟩ := st.storePkgdb_spec pkgd ttype autoinst
  exact ⟨PoolExt.of_queue_eq hq, hdb⟩

theorem State.storePkgdb_edits (st : State) (pkgd : PkgDict) (ttype : TransType)
    (autoinst : Bool) : (st.storePkgdb pkgd ttype autoinst).1.edits = st.edits := by
  rw [State.storePkgdb]
  simp only
  split
  · rfl
  · exact (st.findPkg_looked { repoOpen := fun _ => none } _ .unknown).edits

/-! ### Invariants of the resolver -/

theorem depPkgdb_spec (env : Env) (st : State) (pkgname : Str) :
    Looked env st (depPkgdb st pkgname).1 ∧ InPkgdb st.xhp (depPkgdb st pkgname).2.1 := by
  have h := st.pkgdbGetPkg_looked env pkgname
  -- before the test of the flag
  generalize hr : (match st.pkgdbGetPkg pkgname with
    | (st, some p) => (st, some p, false)
    | (st, none) =>
      ((st.pkgdbGetVirtualpkg pkgname).1, (st.pkgdbGetVirtualpkg pkgname).2,
        (st.pkgdbGetVirtualpkg pkgname).2.isSome) : State × Option PkgDict × Bool) = r
  have hspec : Looked env st r.1 ∧ InPkgdb st.xhp r.2.1 := by
    split at hr
    · next st' p hp =>
      rw [← hr]
      have hp' : pkgdbGetPkg st.xhp pkgname = some p := congrArg Prod.snd hp
      rw [hp] at h
      refine ⟨h, fun q hq => ?_⟩
      obtain rfl := Option.some.inj hq
      exact findPkgInDict_mem hp'
    · next st' hp =>
      rw [← hr]
      rw [hp] at h
      refine ⟨h.trans (st'.pkgdbGetVirtualpkg_looked env pkgname), fun q hq => ?_⟩
      rw [← h.xhp]
      exact findVirtualpkgInDict_mem hq
  have hdef : depPkgdb st pkgname =
      (r.1, (if r.1.xhp.flags.downloadOnly then none else r.2.1), r.2.2) := by
    rw [← hr]
    rfl
  rw [hdef]
  refine ⟨hspec.1, fun q hq => ?_⟩
  simp only at hq
  split at hq
  · cases hq
  · exact hspec.2 q hq

/-- The installed package of an action is one of the database. -/
def DepAction.InDb (xhp : Handle) : DepAction → Prop
  | .fail _ | .skip | .missing => True
  | .configure curpkgd => InPkgdb xhp (some curpkgd)
  | .resolve curpkgd _ _ => InPkgdb xhp curpkgd

theorem depSatisfied_inDb {xhp : Handle} {curpkgd : PkgDict} (h : InPkgdb xhp (some curpkgd))
    (foundvpkg : Bool) (pkgname reqpkg : Str) :
    (depSatisfied curpkgd foundvpkg pkgname reqpkg).InDb xhp := by
  rw [depSatisfied]
  split
  · trivial
  · split
    · trivial
    · split
      · split
        · trivial
        · split
          · trivial
          · split
            · exact h
            · exact h
      · split
        · exact h
        · trivial
        · exact h

theorem depInstalled_spec (env : Env) (st : State) (queued : List PkgDict) (pkgRepod : PkgDict)
    (reqpkg : Str) :
    Looked env st (depInstalled st queued pkgRepod reqpkg).1 ∧
      (depInstalled st queued pkgRepod reqpkg).2.InDb st.xhp := by
  have hrefl := Looked.refl env st
  rw [depInstalled]
  split
  · exact ⟨hrefl, trivial⟩
  · next pkgname hn =>
    split
    · exact ⟨hrefl, trivial⟩
    · split
      · exact ⟨hrefl, trivial⟩
      · split
        · exact ⟨hrefl, trivial⟩
        · split
          · exact ⟨hrefl, trivial⟩
          · -- the packages were looked up in the database
            have he := Looked.errno env st (some .enoent)
            obtain ⟨hl, hin⟩ := depPkgdb_spec env { st with pool.errno := some .enoent } pkgname
            simp only
            split
            · next st' curpkgd foundvpkg h =>
              rw [h] at hl hin
              exact ⟨he.trans hl, depSatisfied_inDb hin foundvpkg pkgname reqpkg⟩
            · next st' foundvpkg h =>
              rw [h] at hl hin
              split
              · exact ⟨he.trans hl, trivial⟩
              · exact ⟨he.trans hl, fun q hq => by cases hq⟩

theorem depLookup_spec (env : Env) (st : State) (curpkgd : Option PkgDict) (reqpkg : Str) :
    FindsOk env st (depLookup env st curpkgd reqpkg) := by
  rw [depLookup]
  split
  · split
    · exact ⟨Looked.refl env st, fun ref h => by cases h⟩
    · exact st.repoGetPkg_spec env _ reqpkg
  · exact st.rpoolGetAny_spec env reqpkg

/-- The search for a queued update of a package that was found. -/
def updateLookup (st : State) (d : PkgDict) (ttype : TransType) (reqpkgname reqpkg : Str) :
    State × Option PkgDict :=
  if ttype = .update ∧ pkgpatternMatch d.pkgver reqpkg = true then
    st.findPkg reqpkgname .update
  else (st, none)

theorem updateLookup_looked (env : Env) {st st' : State} {d : PkgDict} {ttype : TransType}
    {reqpkgname reqpkg : Str} {u : Option PkgDict}
    (h : updateLookup st d ttype reqpkgname reqpkg = (st', u)) :
    Looked env st st' ∧ ∀ ref, st'.pool.get ref = st.pool.get ref := by
  rw [updateLookup] at h
  split at h
  · have hst : st' = (st.findPkg reqpkgname .update).1 := (congrArg Prod.fst h).symm
    rw [hst]
    refine ⟨st.findPkg_looked env _ _, fun ref => ?_⟩
    rw [State.findPkg, Rpool.get, State.missed_queue]
    rfl
  · cases h
    exact ⟨Looked.refl env st, fun _ => rfl⟩

/-- The dependencies of a package that was found are resolved, if it has any. -/
def depBelow (call : Resolver → PkgDict → Resolver × Rv) (r : Resolver) (d : PkgDict) :
    Resolver × Rv :=
  if d.runDepends.getD [] = [] then (r, .ok) else call r d

section Cases

variable (env : Env) (call : Resolver → PkgDict → Resolver × Rv) (r : Resolver)
  (pkgRepod : PkgDict) (rdeps : Option Nat) (reqpkg : Str) (curpkgd : Option PkgDict)
  (ttype : TransType) (autoinst : Bool)

/-- The ways through `depResolve`. -/
inductive Resolves : Resolver × Option Nat × Rv → Prop where
  | failed {st : State} {e : Errno} : depLookup env r.st curpkgd reqpkg = (st, none) →
      st.failed = some e → Resolves ({ r with st }, rdeps, .err e)
  | missing {st : State} : depLookup env r.st curpkgd reqpkg = (st, none) →
      Resolves ({ r with st := { st with
        missingDeps := addMissingReqdep st.missingDeps reqpkg } }, rdeps, .ok)
  | unnamed {st : State} {ref : PkgRef} : depLookup env r.st curpkgd reqpkg = (st, some ref) →
      (∀ d, st.pool.get ref = some d →
        pkgName d.pkgver = none ∨ pkgName pkgRepod.pkgver = none) →
      Resolves ({ r with st }, rdeps, .err .einval)
  | nullDeps {st : State} {ref : PkgRef} {d : PkgDict} {pkgname : Str} :
      depLookup env r.st curpkgd reqpkg = (st, some ref) → st.pool.get ref = some d →
      pkgName d.pkgver = some pkgname → pkgName pkgRepod.pkgver = some pkgname → rdeps = none →
      Resolves ({ r with st }, rdeps, .abort)
  | itself {st : State} {ref : PkgRef} {d : PkgDict} {pkgname : Str} {id : Nat} :
      depLookup env r.st curpkgd reqpkg = (st, some ref) → st.pool.get ref = some d →
      pkgName d.pkgver = some pkgname → pkgName pkgRepod.pkgver = some pkgname →
      rdeps = some id → Resolves ({ r with st := st.removeRunDepend id reqpkg }, rdeps, .ok)
  | updating {st st' : State} {ref : PkgRef} {d u : PkgDict} {reqpkgname pkgname : Str} :
      depLookup env r.st curpkgd reqpkg = (st, some ref) → st.pool.get ref = some d →
      pkgName d.pkgver = some reqpkgname → pkgName pkgRepod.pkgver = some pkgname →
      pkgname ≠ reqpkgname → updateLookup st d ttype reqpkgname reqpkg = (st', some u) →
      Resolves ({ r with st := st' }, rdeps, .err .enodev)
  | stored {st st' : State} {ref : PkgRef} {d : PkgDict} {reqpkgname pkgname : Str}
      {r₁ : Resolver} :
      depLookup env r.st curpkgd reqpkg = (st, some ref) → st.pool.get ref = some d →
      pkgName d.pkgver = some reqpkgname → pkgName pkgRepod.pkgver = some pkgname →
      pkgname ≠ reqpkgname → updateLookup st d ttype reqpkgname reqpkg = (st', none) →
      depBelow call { r with st := st', queued := r.queued ++ [d] } d = (r₁, .ok) →
      Resolves ((depStore r₁ ref curpkgd ttype autoinst).1, d.rdeps,
        (depStore r₁ ref curpkgd ttype autoinst).2)
  | below {st st' : State} {ref : PkgRef} {d : PkgDict} {reqpkgname pkgname : Str}
      {r₁ : Resolver} {rv : Rv} :
      depLookup env r.st curpkgd reqpkg = (st, some ref) → st.pool.get ref = some d →
      pkgName d.pkgver = some reqpkgname → pkgName pkgRepod.pkgver = some pkgname →
      pkgname ≠ reqpkgname → updateLookup st d ttype reqpkgname reqpkg = (st', none) →
      depBelow call { r with st := st', queued := r.queued ++ [d] } d = (r₁, rv) → rv ≠ .ok →
      Resolves (r₁, d.rdeps, rv)

/-- **The cases of pass 5.** -/
theorem depResolve_cases :
    Resolves env call r pkgRepod rdeps reqpkg curpkgd ttype autoinst
      (depResolve env call r pkgRepod rdeps reqpkg curpkgd ttype autoinst) := by
  rw [depResolve]
  cases hlook : depLookup env r.st curpkgd reqpkg with
  | mk st found =>
  cases found with
  | none =>
    simp only
    cases hfailed : st.failed with
    | some e => exact .failed hlook hfailed
    | none => exact .missing hlook
  | some ref =>
  simp only
  cases hd : st.pool.get ref with
  | none => exact .unnamed hlook fun d h => by simp [hd] at h
  | some d =>
  simp only
  cases hname : pkgName d.pkgver with
  | none =>
    refine .unnamed hlook fun d' h => Or.inl ?_
    rw [hd] at h
    cases h
    exact hname
  | some reqpkgname =>
  cases hname' : pkgName pkgRepod.pkgver with
  | none => exact .unnamed hlook fun _ _ => Or.inr hname'
  | some pkgname =>
  simp only
  -- the package is itself what satisfies the dependency
  by_cases hself : pkgname = reqpkgname
  · rw [if_pos hself]
    cases rdeps with
    | none => exact .nullDeps hlook hd hname (hself ▸ hname') rfl
    | some id => exact .itself hlook hd hname (hself ▸ hname') rfl
  rw [if_neg hself]
  -- for an update, the entry that is queued for the package is looked for first
  cases hup : updateLookup st d ttype reqpkgname reqpkg with
  | mk st' updating =>
  rw [updateLookup] at hup
  rw [hup]
  cases updating with
  | some u => exact .updating hlook hd hname hname' hself hup
  | none =>
  simp only [Option.isSome_none, Bool.false_eq_true, if_false]
  cases hbelow : depBelow call { r with st := st', queued := r.queued ++ [d] } d with
  | mk r₁ rv =>
  have hbelow' := hbelow
  rw [depBelow] at hbelow'
  rw [hbelow']
  cases rv with
  | ok => exact .stored hlook hd hname hname' hself hup hbelow
  | err e => exact .below hlook hd hname hname' hself hup hbelow (by simp)
  | abort => exact .below hlook hd hname hname' hself hup hbelow (by simp)

end Cases

/-- Does the resolver find a package with the name of the one that has the dependency? -/
def Look.itself (env : Env) (l : Look) : Bool :=
  match depInstalled l.st l.queued l.pkgRepod l.reqpkg with
  | (st, .resolve curpkgd _ _) =>
    match depLookup env st curpkgd l.reqpkg with
    | (st, some ref) => (st.pool.get ref).any fun d =>
      (pkgName d.pkgver).isSome && pkgName d.pkgver = pkgName l.pkgRepod.pkgver
    | (_, none) => false
  | (_, .fail _) | (_, .skip) | (_, .missing) | (_, .configure _) => false

/-- What has to be shown for `I` to hold in every state of the resolver.  `ok` is what is
known of the places it comes along. -/
structure ResolverRule (env : Env) (ok : Look → Prop) (I : State → Prop) : Prop where
  looked : ∀ {st st' : State}, Looked env st st' → I st → I st'
  missing : ∀ {st : State} {missingDeps : Option (List Str)}, I st → I { st with missingDeps }
  configure : ∀ {l : Look} {st : State} {curpkgd : PkgDict}, ok l →
    depInstalled l.st l.queued l.pkgRepod l.reqpkg = (st, .configure curpkgd) →
    curpkgd ∈ st.xhp.pkgdb.values → I st →
    I (st.storePkgdb curpkgd .configure (curpkgd.automaticInstall.getD false)).1
  remove : ∀ {l : Look} {st : State} {id : Nat}, ok l → l.itself env = true → I st →
    I (st.removeRunDepend id l.reqpkg)
  store : ∀ {l : Look} {st₁ st₂ st₃ : State} {curpkgd : Option PkgDict} {ttype : TransType}
    {autoinst : Bool} {ref : PkgRef} {d d₃ : PkgDict}, ok l →
    depInstalled l.st l.queued l.pkgRepod l.reqpkg = (st₁, .resolve curpkgd ttype autoinst) →
    depLookup env st₁ curpkgd l.reqpkg = (st₂, some ref) → st₂.pool.get ref = some d →
    Later env st₂ st₃ → st₃.pool.get ref = some d₃ → Evolves d d₃ → I st₃ →
    I (st₃.store ref { d₃ with transaction := depType st₃.xhp curpkgd ttype } autoinst).1

/-- The resolver gets from `r` to `r'`, and `I` gets there if the places are as they
should be. -/
structure Resolver.Leads (env : Env) (ok : Look → Prop) (I : State → Prop) (r r' : Resolver) :
    Prop where
  looks : r.looks ⊆ r'.looks
  later : Later env r.st r'.st
  inv : (∀ l ∈ r'.looks, ok l) → I r.st → I r'.st

theorem Resolver.Leads.trans {env : Env} {ok : Look → Prop} {I : State → Prop} {a b c : Resolver}
    (h : Resolver.Leads env ok I a b) (h' : Resolver.Leads env ok I b c) :
    Resolver.Leads env ok I a c :=
  ⟨fun _ hx => h'.looks (h.looks hx), h.later.trans h'.later,
    fun hok ha => h'.inv hok (h.inv (fun x hx => hok x (h'.looks hx)) ha)⟩

/-- A change of the state, and perhaps of the queue. -/
theorem Resolver.Leads.of_st {env : Env} {ok : Look → Prop} {I : State → Prop} {r r' : Resolver}
    (hl : r'.looks = r.looks) (hlater : Later env r.st r'.st) (h : I r.st → I r'.st) :
    Resolver.Leads env ok I r r' :=
  ⟨fun _ hx => hl ▸ hx, hlater, fun _ => h⟩

namespace ResolverRule

variable {env : Env} {ok : Look → Prop} {I : State → Prop}

theorem lookedLeads (rule : ResolverRule env ok I) {r r' : Resolver} (hl : r'.looks = r.looks)
    (h : Looked env r.st r'.st) : Resolver.Leads env ok I r r' :=
  Resolver.Leads.of_st hl h.later (rule.looked h)

/-- The end of the loop body, for the place `l`. -/
theorem depStoreLeads (rule : ResolverRule env ok I) {l : Look} {r : Resolver} {st₁ st₂ : State}
    {curpkgd : Option PkgDict} {ttype : TransType} {autoinst : Bool} {ref : PkgRef} {d : PkgDict}
    (hl : l ∈ r.looks)
    (h₁ : depInstalled l.st l.queued l.pkgRepod l.reqpkg = (st₁, .resolve curpkgd ttype autoinst))
    (h₂ : depLookup env st₁ curpkgd l.reqpkg = (st₂, some ref)) (hd : st₂.pool.get ref = some d)
    (hlater : Later env st₂ r.st) :
    Resolver.Leads env ok I r (depStore r ref curpkgd ttype autoinst).1 := by
  rw [depStore]
  obtain ⟨d₃, hd₃, hcore⟩ := hlater.pool.kept ref d hd
  simp only [hd₃]
  split
  · exact Resolver.Leads.of_st rfl (Later.refl env r.st) id
  · refine ⟨fun _ hx => hx, r.st.store_later ref _ fun d₀ h₀ => ?_, fun hok hI => ?_⟩
    · obtain rfl : d₀ = d₃ := Option.some.inj (h₀.symm.trans hd₃)
      exact Evolves.of_core rfl (List.Subset.refl _)
    · exact rule.store (hok l hl) h₁ h₂ hd hlater hd₃ hcore hI

/-- A dependency that is looked for in the repositories, for the place `l`. -/
theorem depResolveLeads (rule : ResolverRule env ok I) {call : Resolver → PkgDict → Resolver × Rv}
    (hcall : ∀ r d, Resolver.Leads env ok I r (call r d).1) {r : Resolver} (depth : Nat)
    (pkgRepod : PkgDict) (reqpkg : Str)
    (hl : (⟨r.st, r.queued, depth, pkgRepod, reqpkg⟩ : Look) ∈ r.looks) (rdeps : Option Nat)
    {st : State} {curpkgd : Option PkgDict} {ttype : TransType} {autoinst : Bool}
    (h : depInstalled r.st r.queued pkgRepod reqpkg = (st, .resolve curpkgd ttype autoinst)) :
    Resolver.Leads env ok I r
      (depResolve env call { r with st } pkgRepod rdeps reqpkg curpkgd ttype autoinst).1 := by
  have hi := (depInstalled_spec env r.st r.queued pkgRepod reqpkg).1
  rw [h] at hi
  have hk := depLookup_spec env st curpkgd reqpkg
  -- the calls for the dependencies of the package that was found
  have hbelow : ∀ {st₂ : State} {d : PkgDict} {r₁ : Resolver} {rv : Rv}, Looked env r.st st₂ →
      depBelow call { r with st := st₂, queued := r.queued ++ [d] } d = (r₁, rv) →
      Resolver.Leads env ok I r r₁ ∧ Later env st₂ r₁.st := by
    intro st₂ d r₁ rv hlook hb
    have hq : Resolver.Leads env ok I r { r with st := st₂, queued := r.queued ++ [d] } :=
      rule.lookedLeads rfl hlook
    have hc : Resolver.Leads env ok I { r with st := st₂, queued := r.queued ++ [d] } r₁ := by
      rw [depBelow] at hb
      split at hb
      · cases hb
        exact Resolver.Leads.of_st rfl (Later.refl env _) id
      · have hleads := hcall { r with st := st₂, queued := r.queued ++ [d] } d
        rwa [hb] at hleads
    exact ⟨hq.trans hc, hc.later⟩
  have hres := depResolve_cases env call { r with st } pkgRepod rdeps reqpkg curpkgd ttype autoinst
  generalize depResolve env call { r with st } pkgRepod rdeps reqpkg curpkgd ttype autoinst = res
    at hres
  cases hres with
  | failed h' _ =>
    rw [h'] at hk
    exact rule.lookedLeads rfl (hi.trans hk.1)
  | missing h' =>
    rw [h'] at hk
    have hlook := hi.trans hk.1
    exact Resolver.Leads.of_st rfl ⟨hlook.later.pool, hlook.later.db⟩
      fun hI => rule.missing (rule.looked hlook hI)
  | unnamed h' _ | nullDeps h' _ _ _ _ =>
    rw [h'] at hk
    exact rule.lookedLeads rfl (hi.trans hk.1)
  | @itself st' _ d pkgname id h' hd hn hn' _ =>
    rw [h'] at hk
    have hlook := hi.trans hk.1
    have hitself : (⟨r.st, r.queued, depth, pkgRepod, reqpkg⟩ : Look).itself env = true := by
      simp only at h'
      simp [Look.itself, h, h', hd, hn, hn']
    exact ⟨fun _ hx => hx, hlook.later.trans (st'.removeRunDepend_later env id reqpkg),
      fun hok hI => rule.remove (hok _ hl) hitself (rule.looked hlook hI)⟩
  | updating h' _ _ _ _ hu =>
    rw [h'] at hk
    exact rule.lookedLeads rfl ((hi.trans hk.1).trans (updateLookup_looked env hu).1)
  | stored h' hd _ _ _ hu hb =>
    rw [h'] at hk
    have hul := (updateLookup_looked env hu).1
    obtain ⟨hrc, hlater⟩ := hbelow ((hi.trans hk.1).trans hul) hb
    exact hrc.trans (rule.depStoreLeads (hrc.looks hl) h h' hd (hul.later.trans hlater))
  | below h' _ _ _ _ hu hb _ =>
    rw [h'] at hk
    exact (hbelow ((hi.trans hk.1).trans (updateLookup_looked env hu).1) hb).1

/-- The loop body, for the place `l`. -/
theorem depStepLeads (rule : ResolverRule env ok I) {call : Resolver → PkgDict → Resolver × Rv}
    (hcall : ∀ r d, Resolver.Leads env ok I r (call r d).1) {r : Resolver} (depth : Nat)
    (pkgRepod : PkgDict) (reqpkg : Str)
    (hl : (⟨r.st, r.queued, depth, pkgRepod, reqpkg⟩ : Look) ∈ r.looks) (rdeps : Option Nat) :
    Resolver.Leads env ok I r (depStep env call r pkgRepod rdeps reqpkg).1 := by
  obtain ⟨hi, hin⟩ := depInstalled_spec env r.st r.queued pkgRepod reqpkg
  rw [depStep]
  split
  · next st rv h =>
    rw [h] at hi
    exact rule.lookedLeads rfl hi
  · next st h =>
    rw [h] at hi
    exact rule.lookedLeads rfl hi
  · next st h =>
    rw [h] at hi
    exact Resolver.Leads.of_st rfl ⟨hi.later.pool, hi.later.db⟩
      fun hI => rule.missing (rule.looked hi hI)
  · next st curpkgd h =>
    rw [h] at hi hin
    refine ⟨fun _ hx => hx, hi.later.trans (st.storePkgdb_later env curpkgd _ _), fun hok hI => ?_⟩
    exact rule.configure (hok _ hl) h (hi.xhp ▸ hin curpkgd rfl) (rule.looked hi hI)
  · next st curpkgd ttype autoinst h =>
    exact rule.depResolveLeads hcall depth pkgRepod reqpkg hl rdeps h

theorem depLoopLeads (rule : ResolverRule env ok I) {call : Resolver → PkgDict → Resolver × Rv}
    (hcall : ∀ r d, Resolver.Leads env ok I r (call r d).1) (depth : Nat) (pkgRepod : PkgDict)
    (edits : Nat) :
    ∀ (deps : List Str) (rdeps : Option Nat) (r : Resolver),
      Resolver.Leads env ok I r (depLoop env call depth pkgRepod edits deps rdeps r).1 := by
  intro deps
  induction deps with
  | nil => exact fun _ r => Resolver.Leads.of_st rfl (Later.refl env r.st) id
  | cons reqpkg deps ih =>
    intro rdeps r
    rw [depLoop]
    split
    · exact Resolver.Leads.of_st rfl (Later.refl env r.st) id
    · have hlook : Resolver.Leads env ok I r
          { r with looks := r.looks ++ [⟨r.st, r.queued, depth, pkgRepod, reqpkg⟩] } :=
        ⟨fun _ hx => List.mem_append_left _ hx, Later.refl env r.st, fun _ h => h⟩
      have hstep := hlook.trans (rule.depStepLeads hcall depth pkgRepod reqpkg
        (List.mem_append_right _ List.mem_cons_self) rdeps)
      simp only
      split
      · next r' rdeps' h =>
        rw [h] at hstep
        exact hstep.trans (ih rdeps' r')
      · next r' rdeps' rv _ h =>
        rw [h] at hstep
        exact hstep

/-- A call of `repo_deps`. -/
theorem repoDepsLeads (rule : ResolverRule env ok I) :
    ∀ (n : Nat) (r : Resolver) (pkgRepod : PkgDict),
      Resolver.Leads env ok I r (repoDeps env n r pkgRepod).1 := by
  intro n
  induction n with
  | zero => exact fun r _ => Resolver.Leads.of_st rfl (Later.refl env r.st) id
  | succ n ih =>
    intro r pkgRepod
    rw [repoDeps]
    exact rule.depLoopLeads ih _ pkgRepod _ _ _ r

end ResolverRule

end Flappy
