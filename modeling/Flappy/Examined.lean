/-
What a call of `repo_deps` examines, and what it edits.

The loop over the dependencies of a package ends as soon as their array changes, and
a self-dependency is removed from the array in the variable `pkg_rdeps`, which is
that of the last dependency that was resolved.

* `DepTurn`, `depTurns` — the turns of the loop, in a call and in the calls below it;
* `repoDeps_recorded` — the turns are all places the resolver comes
  along, and account for all changes of arrays;
* `repoDeps_sound` — every call examines all dependencies and edits its own array only,
  if self-dependencies come last and after no dependency that was resolved; for a call
  that returns 0, only then.
-/
import Flappy.Turns

open CStr

namespace Flappy

/-! ### Turns of the loop -/

/-- A turn of the loop of `repo_deps`: the resolver before it, how many calls may still be
nested, the package, what was resolved last for a dependency of it, the variable `pkg_rdeps`, the
dependency and those behind it, and the arrays that the calls around this one are not done
with. -/
structure DepTurn where
  r : Resolver
  left : Nat
  pkgRepod : PkgDict
  last : Option PkgDict
  rdeps : Option Nat
  reqpkg : Str
  rest : List Str
  pending : List Nat

/-- The place of a turn. -/
def DepTurn.look (t : DepTurn) : Look :=
  ⟨t.r.st, t.r.queued, maxDepth - (t.left + 1), t.pkgRepod, t.reqpkg⟩

/-- Is the dependency in this `run_depends` array? -/
def State.inRunDepends (st : State) (dep : Str) (id : Nat) : Bool :=
  st.dicts.any fun d => d.runDependsId = id ∧ (d.runDepends.getD []).contains dep = true

/-- What a turn finds in the repositories: the state and the package, and the type that the
package is to be stored with. -/
def DepTurn.found (env : Env) (t : DepTurn) : Option (State × PkgDict × TransType) :=
  match depInstalled t.r.st t.r.queued t.pkgRepod t.reqpkg with
  | (st, .resolve curpkgd ttype _) =>
    match depLookup env st curpkgd t.reqpkg with
    | (st, some ref) => (st.pool.get ref).map fun d => (st, d, ttype)
    | (_, none) => none
  | (_, .fail _) | (_, .skip) | (_, .missing) | (_, .configure _) => none

/-- A package is found to depend on itself: what the turn finds has the name of the package being
processed.  This is the state in which the dependency is to be dropped. -/
def DepTurn.itself (env : Env) (t : DepTurn) : Option State :=
  match t.found env with
  | none => none
  | some (st, d, _) =>
    match pkgName d.pkgver, pkgName t.pkgRepod.pkgver with
    | some reqpkgname, some pkgname => if pkgname = reqpkgname then some st else none
    | _, _ => none

/-- The array from which a turn removes its dependency. -/
def DepTurn.removes (env : Env) (t : DepTurn) : Option Nat :=
  (t.itself env).bind fun st => t.rdeps.filter (st.inRunDepends t.reqpkg)

/-- The package that a turn queues, to resolve the dependencies of it. -/
def DepTurn.queues (env : Env) (t : DepTurn) : Option (State × PkgDict) :=
  match t.found env with
  | none => none
  | some (st, d, ttype) =>
    match pkgName d.pkgver, pkgName t.pkgRepod.pkgver with
    | some reqpkgname, some pkgname =>
      if pkgname = reqpkgname then none
      else
        match updateLookup st d ttype reqpkgname t.reqpkg with
        | (_, some _) => none
        | (st, none) => some (st, d)
    | _, _ => none

/-- The call for the dependencies of that package. -/
def DepTurn.call (env : Env) (t : DepTurn) : Option (Resolver × PkgDict) :=
  match t.queues env with
  | none => none
  | some (st, d) =>
    if d.runDepends.getD [] = [] then none
    else some ({ t.r with st, queued := t.r.queued ++ [d] }, d)

/-- The package that was resolved last, after the turn. -/
def DepTurn.resolved (env : Env) (t : DepTurn) : Option PkgDict :=
  ((t.queues env).map Prod.snd).or t.last

/-- The turns of the loop, with those of the calls in it. -/
def loopTurns (env : Env) (call : Resolver → PkgDict → Resolver × Rv)
    (turns : Resolver → PkgDict → List Nat → List DepTurn) (left : Nat) (pkgRepod : PkgDict)
    (edits : Nat) (pending : List Nat) :
    List Str → Option PkgDict → Option Nat → Resolver → List DepTurn
  | [], _, _, _ => []
  | reqpkg :: deps, last, rdeps, r =>
    if r.st.edits.count pkgRepod.runDependsId ≠ edits then []
    else
      let r := { r with
        looks := r.looks ++ [⟨r.st, r.queued, maxDepth - (left + 1), pkgRepod, reqpkg⟩] }
      let t : DepTurn := ⟨r, left, pkgRepod, last, rdeps, reqpkg, deps, pending⟩
      t :: ((match t.call env with
        | none => []
        | some (r, d) => turns r d (if deps = [] then pending else pkgRepod.runDependsId :: pending))
        ++ match depStep env call r pkgRepod rdeps reqpkg with
          | (r, rdeps, .ok) =>
            loopTurns env call turns left pkgRepod edits pending deps (t.resolved env) rdeps r
          | _ => [])

/-- The turns of a call of `repo_deps`, within calls that are not done with these arrays. -/
def depTurns (env : Env) : Nat → Resolver → PkgDict → List Nat → List DepTurn
  | 0, _, _, _ => []
  | n + 1, r, pkgRepod, pending =>
    loopTurns env (repoDeps env n) (depTurns env n) n pkgRepod
      (r.st.edits.count pkgRepod.runDependsId) pending (pkgRepod.runDepends.getD []) none
      pkgRepod.rdeps r

/-! ### What a turn does -/

theorem State.removeRunDepend_edits (st : State) (id : Nat) (dep : Str) :
    (st.removeRunDepend id dep).edits =
      ((some id).filter (st.inRunDepends dep)).toList ++ st.edits := by
  rw [State.removeRunDepend.eq_def, Option.filter_some, State.inRunDepends]
  split
  · rfl
  · rfl

theorem depStore_spec (r : Resolver) (ref : PkgRef) (curpkgd : Option PkgDict)
    (ttype : TransType) (autoinst : Bool) :
    (depStore r ref curpkgd ttype autoinst).1.looks = r.looks ∧
      (depStore r ref curpkgd ttype autoinst).1.st.edits = r.st.edits := by
  rw [depStore]
  simp only
  split
  · exact ⟨rfl, rfl⟩
  · split
    · exact ⟨rfl, rfl⟩
    · exact ⟨rfl, (r.st.store_spec ref _ autoinst).2.2.1⟩

/-- What a turn leaves behind: it removes a dependency, or makes a call, or neither. -/
inductive DepTurn.Does (env : Env) (call : Resolver → PkgDict → Resolver × Rv) (t : DepTurn) :
    Resolver → Rv → Prop where
  | looks {r : Resolver} {rv : Rv} : t.removes env = none → t.call env = none →
      r.looks = t.r.looks → r.st.edits = t.r.st.edits → t.Does env call r rv
  | removes {r : Resolver} {a : Nat} : t.removes env = some a → t.call env = none →
      r.looks = t.r.looks → r.st.edits = a :: t.r.st.edits → t.Does env call r .ok
  | calls {r r₁ : Resolver} {rv : Rv} {d : PkgDict} : t.removes env = none →
      t.call env = some (r₁, d) → r₁.looks = t.r.looks → r₁.st.edits = t.r.st.edits →
      r.looks = (call r₁ d).1.looks → r.st.edits = (call r₁ d).1.st.edits →
      (rv = .ok → (call r₁ d).2 = .ok) → t.Does env call r rv

/-- A turn that queues nothing makes no call. -/
theorem DepTurn.call_of_queues {env : Env} {t : DepTurn} (h : t.queues env = none) :
    t.call env = none := by
  rw [DepTurn.call, h]

theorem DepTurn.removes_of_itself {env : Env} {t : DepTurn} (h : t.itself env = none) :
    t.removes env = none := by
  rw [DepTurn.removes, h]
  rfl

/-- A turn that finds nothing in the repositories. -/
theorem DepTurn.queues_of_none {env : Env} {t : DepTurn} (hfound : t.found env = none) :
    t.itself env = none ∧ t.queues env = none := by
  rw [DepTurn.itself, DepTurn.queues, hfound]
  exact ⟨rfl, rfl⟩

theorem DepTurn.does_of_none {env : Env} {call : Resolver → PkgDict → Resolver × Rv}
    {t : DepTurn} {r : Resolver} {rv : Rv} (hfound : t.found env = none)
    (hlooks : r.looks = t.r.looks) (hedits : r.st.edits = t.r.st.edits) :
    t.Does env call r rv :=
  .looks (removes_of_itself (queues_of_none hfound).1) (call_of_queues (queues_of_none hfound).2)
    hlooks hedits

/-- The search for a queued update, and what is left of the turn when it finds none. -/
theorem DepTurn.queues_of_found {env : Env} {t : DepTurn} {st st' : State} {d : PkgDict}
    {ttype : TransType} {reqpkgname pkgname : Str} {u : Option PkgDict}
    (hfound : t.found env = some (st, d, ttype)) (hname : pkgName d.pkgver = some reqpkgname)
    (hname' : pkgName t.pkgRepod.pkgver = some pkgname) (hself : pkgname ≠ reqpkgname)
    (hup : updateLookup st d ttype reqpkgname t.reqpkg = (st', u)) :
    t.itself env = none ∧ t.queues env = if u.isSome then none else some (st', d) := by
  rw [DepTurn.itself, DepTurn.queues, hfound]
  simp only
  rw [hname, hname']
  simp only
  rw [if_neg hself, if_neg hself, hup]
  cases u with
  | none => exact ⟨rfl, rfl⟩
  | some d => exact ⟨rfl, rfl⟩

/-- A turn for a package without a name, or that finds one. -/
theorem DepTurn.queues_of_unnamed {env : Env} {t : DepTurn} {st : State} {d : PkgDict}
    {ttype : TransType} (hfound : t.found env = some (st, d, ttype))
    (hnone : pkgName d.pkgver = none ∨ pkgName t.pkgRepod.pkgver = none) :
    t.itself env = none ∧ t.queues env = none := by
  rw [DepTurn.itself, DepTurn.queues, hfound]
  simp only
  obtain hnone | hnone := hnone
  · rw [hnone]
    exact ⟨rfl, rfl⟩
  · rw [hnone]
    cases pkgName d.pkgver with
    | none => exact ⟨rfl, rfl⟩
    | some reqpkgname => exact ⟨rfl, rfl⟩

/-- A turn for a package that depends on itself. -/
theorem DepTurn.queues_of_itself {env : Env} {t : DepTurn} {st : State} {d : PkgDict}
    {ttype : TransType} {pkgname : Str} (hfound : t.found env = some (st, d, ttype))
    (hname : pkgName d.pkgver = some pkgname) (hname' : pkgName t.pkgRepod.pkgver = some pkgname) :
    t.itself env = some st ∧ t.queues env = none := by
  rw [DepTurn.itself, DepTurn.queues, hfound]
  simp only
  rw [hname, hname']
  exact ⟨if_pos rfl, if_pos rfl⟩

/-- A turn that resolves the dependencies of what it has found: a package without dependencies
needs no call. -/
theorem DepTurn.does_below {env : Env} {call : Resolver → PkgDict → Resolver × Rv} {t : DepTurn}
    {st st' : State} {d : PkgDict} {ttype : TransType} {reqpkgname pkgname : Str}
    {r r₁ : Resolver} {rv rv' : Rv}
    (hfound : t.found env = some (st, d, ttype)) (hname : pkgName d.pkgver = some reqpkgname)
    (hname' : pkgName t.pkgRepod.pkgver = some pkgname) (hself : pkgname ≠ reqpkgname)
    (hup : updateLookup st d ttype reqpkgname t.reqpkg = (st', none))
    (hedits : st'.edits = t.r.st.edits)
    (hbelow : depBelow call { t.r with st := st', queued := t.r.queued ++ [d] } d = (r₁, rv))
    (hl : r.looks = r₁.looks) (he : r.st.edits = r₁.st.edits) (hrv : rv' = .ok → rv = .ok) :
    t.Does env call r rv' := by
  obtain ⟨hi, hq⟩ := DepTurn.queues_of_found hfound hname hname' hself hup
  have hr := removes_of_itself hi
  have hc : t.call env = if d.runDepends.getD [] = [] then none
      else some ({ t.r with st := st', queued := t.r.queued ++ [d] }, d) := by
    rw [DepTurn.call, hq]
    rfl
  rw [depBelow] at hbelow
  by_cases hdeps : d.runDepends.getD [] = []
  · rw [if_pos hdeps] at hbelow hc
    cases hbelow
    exact .looks hr hc hl (he.trans hedits)
  · rw [if_neg hdeps] at hbelow hc
    have hr₁ := congrArg Prod.fst hbelow
    exact .calls hr hc rfl hedits (hl.trans (congrArg Resolver.looks hr₁.symm))
      (he.trans (congrArg (·.st.edits) hr₁.symm)) fun h => (congrArg Prod.snd hbelow).trans (hrv h)

section Lookup

variable {env : Env} {t : DepTurn} {st st' : State} {curpkgd : Option PkgDict}
  {ttype : TransType} {autoinst : Bool}

theorem DepTurn.found_of_lookup
    (hinst : depInstalled t.r.st t.r.queued t.pkgRepod t.reqpkg =
      (st, .resolve curpkgd ttype autoinst)) {found : Option PkgRef}
    (hlook : depLookup env st curpkgd t.reqpkg = (st', found)) :
    t.found env = found.bind fun ref => (st'.pool.get ref).map fun d => (st', d, ttype) := by
  rw [DepTurn.found, hinst]
  simp only
  rw [hlook]
  cases found with
  | none => rfl
  | some ref => rfl

theorem DepTurn.found_of_get
    (hinst : depInstalled t.r.st t.r.queued t.pkgRepod t.reqpkg =
      (st, .resolve curpkgd ttype autoinst)) {ref : PkgRef} {d : PkgDict}
    (hlook : depLookup env st curpkgd t.reqpkg = (st', some ref))
    (hd : st'.pool.get ref = some d) : t.found env = some (st', d, ttype) := by
  rw [found_of_lookup hinst hlook, Option.bind_some, hd, Option.map_some]

end Lookup

/-- A turn for a package that is looked for in the repositories. -/
theorem DepTurn.does_resolve {env : Env} {call : Resolver → PkgDict → Resolver × Rv}
    {t : DepTurn} {st : State} {curpkgd : Option PkgDict} {ttype : TransType} {autoinst : Bool}
    (hinst : depInstalled t.r.st t.r.queued t.pkgRepod t.reqpkg =
      (st, .resolve curpkgd ttype autoinst)) (hedits : st.edits = t.r.st.edits) :
    t.Does env call
      (depResolve env call { t.r with st } t.pkgRepod t.rdeps t.reqpkg curpkgd ttype autoinst).1
      (depResolve env call { t.r with st } t.pkgRepod t.rdeps t.reqpkg curpkgd ttype
        autoinst).2.2 := by
  have hk := (depLookup_spec env st curpkgd t.reqpkg).1.edits
  have hres := depResolve_cases env call { t.r with st } t.pkgRepod t.rdeps t.reqpkg curpkgd ttype
    autoinst
  generalize depResolve env call { t.r with st } t.pkgRepod t.rdeps t.reqpkg curpkgd ttype
    autoinst = res at hres ⊢
  cases hres with
  | failed h _ | missing h =>
    rw [h] at hk
    exact does_of_none (found_of_lookup hinst h) rfl (hk.trans hedits)
  | @unnamed st' ref h hnone =>
    rw [h] at hk
    have hf := found_of_lookup hinst h
    rw [Option.bind_some] at hf
    cases hd : st'.pool.get ref with
    | none =>
      rw [hd, Option.map_none] at hf
      exact does_of_none hf rfl (hk.trans hedits)
    | some d =>
      rw [hd, Option.map_some] at hf
      obtain ⟨hi, hq⟩ := DepTurn.queues_of_unnamed hf (hnone d hd)
      exact .looks (removes_of_itself hi) (call_of_queues hq) rfl (hk.trans hedits)
  | nullDeps h hd hn hn' hrdeps =>
    rw [h] at hk
    obtain ⟨hi, hq⟩ := DepTurn.queues_of_itself (found_of_get hinst h hd) hn hn'
    refine .looks ?_ (call_of_queues hq) rfl (hk.trans hedits)
    rw [DepTurn.removes, hi, hrdeps]
    rfl
  | @itself st' _ d _ id h hd hn hn' hrdeps =>
    rw [h] at hk
    -- the turn removes the entry with which the package depends on itself
    obtain ⟨hi, hq⟩ := DepTurn.queues_of_itself (found_of_get hinst h hd) hn hn'
    have hc := call_of_queues hq
    have hr : t.removes env = (some id).filter (st'.inRunDepends t.reqpkg) := by
      rw [DepTurn.removes, hi, hrdeps]
      rfl
    have hrem := st'.removeRunDepend_edits id t.reqpkg
    rw [← hr, hk.trans hedits] at hrem
    cases ha : t.removes env with
    | none =>
      rw [ha] at hrem
      exact .looks ha hc rfl hrem
    | some a =>
      rw [ha] at hrem
      exact .removes ha hc rfl hrem
  | updating h hd hn hn' hself hu =>
    rw [h] at hk
    obtain ⟨hi, hq⟩ := DepTurn.queues_of_found (found_of_get hinst h hd) hn hn' hself hu
    exact .looks (removes_of_itself hi) (call_of_queues hq) rfl
      ((updateLookup_looked env hu).1.edits.trans (hk.trans hedits))
  | @stored _ _ ref _ _ _ r₁ h hd hn hn' hself hu hb =>
    rw [h] at hk
    have hedits₂ := (updateLookup_looked env hu).1.edits.trans (hk.trans hedits)
    obtain ⟨hl, he⟩ := depStore_spec r₁ ref curpkgd ttype autoinst
    exact does_below (found_of_get hinst h hd) hn hn' hself hu hedits₂ hb hl he fun _ => rfl
  | below h hd hn hn' hself hu hb _ =>
    rw [h] at hk
    have hedits₂ := (updateLookup_looked env hu).1.edits.trans (hk.trans hedits)
    exact does_below (found_of_get hinst h hd) hn hn' hself hu hedits₂ hb rfl rfl id

theorem DepTurn.does (env : Env) (call : Resolver → PkgDict → Resolver × Rv) (t : DepTurn) :
    t.Does env call (depStep env call t.r t.pkgRepod t.rdeps t.reqpkg).1
      (depStep env call t.r t.pkgRepod t.rdeps t.reqpkg).2.2 := by
  obtain ⟨hi, -⟩ := depInstalled_spec env t.r.st t.r.queued t.pkgRepod t.reqpkg
  have hf := DepTurn.found.eq_1 env t
  rw [depStep]
  generalize hinst : depInstalled t.r.st t.r.queued t.pkgRepod t.reqpkg = i at hi hf
  obtain ⟨st, action⟩ := i
  cases action with
  | fail rv => exact does_of_none hf rfl hi.edits
  | skip => exact does_of_none hf rfl hi.edits
  | missing => exact does_of_none hf rfl hi.edits
  | configure curpkgd =>
    exact does_of_none hf rfl ((st.storePkgdb_edits curpkgd _ _).trans hi.edits)
  | resolve curpkgd ttype autoinst => exact does_resolve hinst hi.edits

/-- The variable `pkg_rdeps` after a turn: it is that of the package that was queued. -/
theorem DepTurn.depStep_rdeps (env : Env) (call : Resolver → PkgDict → Resolver × Rv)
    (t : DepTurn) : (depStep env call t.r t.pkgRepod t.rdeps t.reqpkg).2.1 =
      ((t.queues env).map fun q => q.2.rdeps).getD t.rdeps := by
  have hf := DepTurn.found.eq_1 env t
  have hnone : t.found env = none → ((t.queues env).map fun q => q.2.rdeps).getD t.rdeps =
      t.rdeps := fun h => by rw [(queues_of_none h).2]; rfl
  rw [depStep]
  generalize hinst : depInstalled t.r.st t.r.queued t.pkgRepod t.reqpkg = i at hf
  obtain ⟨st, action⟩ := i
  cases action with
  | fail rv => exact (hnone hf).symm
  | skip => exact (hnone hf).symm
  | missing => exact (hnone hf).symm
  | configure curpkgd => exact (hnone hf).symm
  | resolve curpkgd ttype autoinst =>
    simp only
    have hres := depResolve_cases env call { t.r with st } t.pkgRepod t.rdeps t.reqpkg curpkgd
      ttype autoinst
    generalize depResolve env call { t.r with st } t.pkgRepod t.rdeps t.reqpkg curpkgd ttype
      autoinst = res at hres ⊢
    cases hres with
    | failed h _ | missing h => exact (hnone (found_of_lookup hinst h)).symm
    | @unnamed st' ref h hunnamed =>
      have hf' := found_of_lookup hinst h
      rw [Option.bind_some] at hf'
      -- what was found is no package, or has no name
      cases hd : st'.pool.get ref with
      | none =>
        rw [hd, Option.map_none] at hf'
        exact (hnone hf').symm
      | some d =>
        rw [hd, Option.map_some] at hf'
        rw [(queues_of_unnamed hf' (hunnamed d hd)).2]
        rfl
    | nullDeps h hd hn hn' _ | itself h hd hn hn' _ =>
      rw [(queues_of_itself (found_of_get hinst h hd) hn hn').2]
      rfl
    | updating h hd hn hn' hself hu =>
      rw [(queues_of_found (found_of_get hinst h hd) hn hn' hself hu).2]
      rfl
    | stored h hd hn hn' hself hu _ | below h hd hn hn' hself hu _ _ =>
      rw [(queues_of_found (found_of_get hinst h hd) hn hn' hself hu).2]
      rfl

/-- The turns `turns` are what happens between `r` and `r'`. -/
structure Recorded (env : Env) (r r' : Resolver) (turns : List DepTurn) : Prop where
  looks : r'.looks = r.looks ++ turns.map DepTurn.look
  edits : r'.st.edits = (turns.filterMap (DepTurn.removes env)).reverse ++ r.st.edits

theorem Recorded.nil (env : Env) (r : Resolver) : Recorded env r r [] :=
  ⟨(List.append_nil _).symm, rfl⟩

theorem Recorded.append {env : Env} {a b c : Resolver} {s t : List DepTurn}
    (h : Recorded env a b s) (h' : Recorded env b c t) : Recorded env a c (s ++ t) := by
  constructor
  · rw [h'.looks, h.looks, List.map_append, List.append_assoc]
  · rw [h'.edits, h.edits, List.filterMap_append, List.reverse_append, List.append_assoc]

/-- The calls of a turn. -/
def DepTurn.below (env : Env) (turns : Resolver → PkgDict → List Nat → List DepTurn)
    (t : DepTurn) : List DepTurn :=
  match t.call env with
  | none => []
  | some (r, d) =>
    turns r d (if t.rest = [] then t.pending else t.pkgRepod.runDependsId :: t.pending)

/-- The turn that the loop takes at this place. -/
structure DepTurn.At (left : Nat) (pkgRepod : PkgDict) (pending : List Nat) (reqpkg : Str)
    (deps : List Str) (last : Option PkgDict) (rdeps : Option Nat) (r : Resolver) (t : DepTurn) :
    Prop where
  st : t.r.st = r.st
  looks : t.r.looks = r.looks ++ [t.look]
  left : t.left = left
  pkgRepod : t.pkgRepod = pkgRepod
  reqpkg : t.reqpkg = reqpkg
  rest : t.rest = deps
  pending : t.pending = pending
  last : t.last = last
  rdeps : t.rdeps = rdeps

section Loop

variable {env : Env} {call : Resolver → PkgDict → Resolver × Rv}
  {turns : Resolver → PkgDict → List Nat → List DepTurn} {left : Nat} {pkgRepod : PkgDict}
  {edits : Nat} {pending : List Nat}

theorem loopTurns_cons {reqpkg : Str} {deps : List Str} {last : Option PkgDict}
    {rdeps : Option Nat} {r : Resolver} (h : r.st.edits.count pkgRepod.runDependsId = edits) :
    ∃ t : DepTurn, t.At left pkgRepod pending reqpkg deps last rdeps r ∧
      depLoop env call (maxDepth - (left + 1)) pkgRepod edits (reqpkg :: deps) rdeps r =
        (match depStep env call t.r t.pkgRepod t.rdeps t.reqpkg with
        | (r, rdeps, .ok) =>
          depLoop env call (maxDepth - (left + 1)) pkgRepod edits deps rdeps r
        | (r, _, rv) => (r, rv)) ∧
      loopTurns env call turns left pkgRepod edits pending (reqpkg :: deps) last rdeps r =
        t :: (t.below env turns ++
          match depStep env call t.r t.pkgRepod t.rdeps t.reqpkg with
          | (r, rdeps, .ok) =>
            loopTurns env call turns left pkgRepod edits pending deps (t.resolved env) rdeps r
          | _ => []) := by
  refine ⟨⟨{ r with
      looks := r.looks ++ [⟨r.st, r.queued, maxDepth - (left + 1), pkgRepod, reqpkg⟩] },
    left, pkgRepod, last, rdeps, reqpkg, deps, pending⟩,
    ⟨rfl, rfl, rfl, rfl, rfl, rfl, rfl, rfl, rfl⟩, ?_, ?_⟩
  · rw [depLoop]
    exact if_neg (not_not.mpr h)
  · rw [loopTurns]
    exact if_neg (not_not.mpr h)

/-- What holds of every turn of a loop: it has to hold of the first one and of those below it, and
what is known of the place has to be kept. -/
theorem loopTurns_rule {I : Option PkgDict → Option Nat → Resolver → Prop} {P : DepTurn → Prop}
    (hturn : ∀ {reqpkg deps last rdeps r t}, I last rdeps r →
      t.At left pkgRepod pending reqpkg deps last rdeps r →
        P t ∧ (∀ t₁ ∈ t.below env turns, P t₁) ∧ ∀ r' rdeps',
          depStep env call t.r t.pkgRepod t.rdeps t.reqpkg = (r', rdeps', .ok) →
            I (t.resolved env) rdeps' r') :
    ∀ {deps : List Str} {last : Option PkgDict} {rdeps : Option Nat} {r : Resolver},
      I last rdeps r →
      ∀ t ∈ loopTurns env call turns left pkgRepod edits pending deps last rdeps r, P t := by
  intro deps
  induction deps with
  | nil => exact fun _ t ht => by cases ht
  | cons reqpkg deps ih =>
    intro last rdeps r hI t' ht'
    by_cases h : r.st.edits.count pkgRepod.runDependsId = edits
    · obtain ⟨t, hat, -, heq⟩ :=
        @loopTurns_cons env call turns left pkgRepod edits pending reqpkg deps last rdeps r h
      obtain ⟨ht, hbelow, hnext⟩ := hturn hI hat
      rw [heq] at ht'
      rcases List.mem_cons.mp ht' with rfl | ht'
      · exact ht
      · rcases List.mem_append.mp ht' with ht' | ht'
        · exact hbelow t' ht'
        · split at ht'
          · next r' rdeps' hstep => exact ih (hnext r' rdeps' hstep) t' ht'
          · cases ht'
    · rw [loopTurns, if_pos h] at ht'
      cases ht'

/-- The turns below a turn are those of its call. -/
theorem DepTurn.mem_below {t t₁ : DepTurn} (h : t₁ ∈ t.below env turns) : ∃ r d,
    t.call env = some (r, d) ∧
      t₁ ∈ turns r d (if t.rest = [] then t.pending else t.pkgRepod.runDependsId :: t.pending) := by
  rw [DepTurn.below] at h
  split at h
  · cases h
  · next r d hc => exact ⟨r, d, hc, h⟩

end Loop

section Loop

variable {env : Env} {call : Resolver → PkgDict → Resolver × Rv}
  {turns : Resolver → PkgDict → List Nat → List DepTurn}

/-- The turns of one dependency. -/
theorem DepTurn.recorded
    (hcall : ∀ r d pending, Recorded env r (call r d).1 (turns r d pending)) {t : DepTurn}
    {r : Resolver} (hst : t.r.st = r.st) (hlooks : t.r.looks = r.looks ++ [t.look]) :
    Recorded env r (depStep env call t.r t.pkgRepod t.rdeps t.reqpkg).1
      (t :: t.below env turns) := by
  have hdoes := t.does env call
  generalize depStep env call t.r t.pkgRepod t.rdeps t.reqpkg = out at hdoes
  obtain ⟨r', rdeps', rv⟩ := out
  simp only at hdoes ⊢
  cases hdoes with
  | looks hr hc hl he =>
    rw [DepTurn.below, hc]
    constructor
    · rw [hl, hlooks]
      rfl
    · rw [he, hst, List.filterMap_cons_none hr]
      rfl
  | removes hr hc hl he =>
    rw [DepTurn.below, hc]
    constructor
    · rw [hl, hlooks]
      rfl
    · rw [he, hst, List.filterMap_cons_some hr]
      rfl
  | @calls r₁ _ d hr hc hl₁ he₁ hl he hrv =>
    rw [DepTurn.below, hc]
    have hrec := hcall r₁ d
      (if t.rest = [] then t.pending else t.pkgRepod.runDependsId :: t.pending)
    constructor
    · rw [hl, hrec.looks, hl₁, hlooks, List.append_assoc]
      rfl
    · rw [he, hrec.edits, he₁, hst, List.filterMap_cons_none hr]

theorem loopTurns_recorded
    (hcall : ∀ r d pending, Recorded env r (call r d).1 (turns r d pending)) (left : Nat)
    (pkgRepod : PkgDict) (edits : Nat) (pending : List Nat) :
    ∀ (deps : List Str) (last : Option PkgDict) (rdeps : Option Nat) (r : Resolver),
      Recorded env r
        (depLoop env call (maxDepth - (left + 1)) pkgRepod edits deps rdeps r).1
        (loopTurns env call turns left pkgRepod edits pending deps last rdeps r) := by
  intro deps
  induction deps with
  | nil => exact fun _ _ r => Recorded.nil env r
  | cons reqpkg deps ih =>
    intro last rdeps r
    by_cases h : r.st.edits.count pkgRepod.runDependsId = edits
    · obtain ⟨t, hat, hloop, hturns⟩ := loopTurns_cons h
      rw [hloop, hturns]
      have hrec := t.recorded hcall hat.st hat.looks
      generalize depStep env call t.r t.pkgRepod t.rdeps t.reqpkg = out at hrec
      obtain ⟨r', rdeps', rv⟩ := out
      cases rv with
      | ok => exact hrec.append (ih (t.resolved env) rdeps' r')
      | err e => exact hrec.append (Recorded.nil env r')
      | abort => exact hrec.append (Recorded.nil env r')
    · rw [depLoop, if_pos h, loopTurns, if_pos h]
      exact Recorded.nil env r

end Loop

/-- The turns are all that happens in a call. -/
theorem repoDeps_recorded (env : Env) :
    ∀ (n : Nat) (r : Resolver) (pkgRepod : PkgDict) (pending : List Nat),
      Recorded env r (repoDeps env n r pkgRepod).1 (depTurns env n r pkgRepod pending) := by
  intro n
  induction n with
  | zero => exact fun r _ _ => Recorded.nil env r
  | succ n ih =>
    intro r pkgRepod pending
    rw [repoDeps, depTurns]
    exact loopTurns_recorded ih n pkgRepod _ pending _ _ _ r

/-! ### What a call examines -/

/-- The dependencies that the turns of a call itself are about: those `depth` calls deep. -/
def ownDeps (depth : Nat) (looks : List Look) : List Str :=
  (looks.filter fun l => l.depth = depth).map Look.reqpkg

/-- A call with `n` calls left: if it returns 0, it has examined every entry of the
`run_depends` of its package. -/
def Examines (env : Env) (n : Nat) (r : Resolver) (pkgRepod : PkgDict) : Prop :=
  (repoDeps env n r pkgRepod).2 = .ok →
    ownDeps (maxDepth - n) ((repoDeps env n r pkgRepod).1.looks.drop r.looks.length) =
      pkgRepod.runDepends.getD []

/-- A turn removes a dependency from the array of its own package only, and its call examines
every dependency. -/
structure DepTurn.Sound (env : Env) (t : DepTurn) : Prop where
  own : ∀ id, t.removes env = some id → id = t.pkgRepod.runDependsId
  examines : ∀ r' d, t.call env = some (r', d) → Examines env t.left r' d

/-- The call and all calls below it examine every dependency, and what they remove they remove
from the array of the package they process. -/
structure DepsSound (env : Env) (n : Nat) (r : Resolver) (pkgRepod : PkgDict) : Prop where
  examines : Examines env n r pkgRepod
  turns : ∀ t ∈ depTurns env n r pkgRepod [], t.Sound env

/-- A turn removes a dependency only from the array of its own package, as the last entry, and
if no call around it has entries of that array left. -/
def DepTurn.Tidy (env : Env) (t : DepTurn) : Prop :=
  ∀ id, t.removes env = some id →
    id = t.pkgRepod.runDependsId ∧ t.rest = [] ∧ id ∉ t.pending

/-- When a package is found to depend on itself, no dependency of it was resolved before in the
loop, or the one resolved last does not have this entry in another array; and where the array is
that of the package, the entry is the last one, and no call around it has entries left. -/
structure DepTurn.Clean (env : Env) (t : DepTurn) : Prop where
  before : ∀ st, t.itself env = some st → ∀ d ∈ t.last, ∀ id, d.rdeps = some id →
    id ≠ t.pkgRepod.runDependsId → st.inRunDepends t.reqpkg id = false
  behind : ∀ st, t.itself env = some st →
    (t.last.getD t.pkgRepod).rdeps = some t.pkgRepod.runDependsId →
    st.inRunDepends t.reqpkg t.pkgRepod.runDependsId = true →
      t.rest = [] ∧ t.pkgRepod.runDependsId ∉ t.pending

/-- The variable `pkg_rdeps` is that of the package resolved last, and of the package itself
until then. -/
def DepTurn.OfLast (t : DepTurn) : Prop := t.rdeps = (t.last.getD t.pkgRepod).rdeps

theorem PkgDict.rdeps_eq_some {d : PkgDict} {id : Nat} (h : d.rdeps = some id) :
    id = d.runDependsId := by
  obtain ⟨-, -, h⟩ := Option.map_eq_some_iff.mp h
  exact h.symm

/-- What a turn removes, by the package that was resolved last. -/
theorem DepTurn.OfLast.clean_iff {env : Env} {t : DepTurn} (h : t.OfLast) :
    t.Clean env ↔ t.Tidy env := by
  have hremoves : ∀ {st}, t.itself env = some st →
      t.removes env = (t.last.getD t.pkgRepod).rdeps.filter (st.inRunDepends t.reqpkg) := by
    intro st hst
    rw [DepTurn.removes, hst, Option.bind_some, h]
  constructor
  · intro hclean id hid
    obtain ⟨st, hst, -⟩ := Option.bind_eq_some_iff.mp hid
    rw [hremoves hst] at hid
    obtain ⟨hrdeps, hin⟩ := Option.filter_eq_some_iff.mp hid
    -- the array is that of the package
    have hown : id = t.pkgRepod.runDependsId := by
      cases hlast : t.last with
      | none =>
        rw [hlast] at hrdeps
        exact PkgDict.rdeps_eq_some hrdeps
      | some d =>
        rw [hlast] at hrdeps
        by_contra hne
        rw [hclean.before st hst d hlast id hrdeps hne] at hin
        cases hin
    subst hown
    exact ⟨rfl, hclean.behind st hst hrdeps hin⟩
  · refine fun htidy => ⟨fun st hst d hd id hid hne => ?_, fun st hst hrdeps hin => ?_⟩
    · by_contra hin
      rw [Bool.not_eq_false] at hin
      refine hne (htidy id ?_).1
      rw [hremoves hst, hd, Option.getD_some, hid]
      exact Option.filter_some_pos hin
    · refine (htidy _ ?_).2
      rw [hremoves hst, hrdeps]
      exact Option.filter_some_pos hin

theorem loopTurns_depth {env : Env} {call : Resolver → PkgDict → Resolver × Rv}
    {turns : Resolver → PkgDict → List Nat → List DepTurn} {left : Nat} {pkgRepod : PkgDict}
    {edits : Nat} {pending : List Nat}
    (hturns : ∀ r d pending, ∀ t ∈ turns r d pending, t.left < left) {deps : List Str}
    {last : Option PkgDict} {rdeps : Option Nat} {r : Resolver} :
    ∀ t ∈ loopTurns env call turns left pkgRepod edits pending deps last rdeps r,
      t.left ≤ left := by
  refine loopTurns_rule (I := fun _ _ _ => True) (fun _ hat => ?_) trivial
  refine ⟨hat.left.le, fun t₁ ht₁ => ?_, fun _ _ _ => trivial⟩
  obtain ⟨r', d, -, hmem⟩ := DepTurn.mem_below ht₁
  exact (hturns r' d _ t₁ hmem).le

theorem depTurns_depth (env : Env) :
    ∀ (n : Nat) (r : Resolver) (pkgRepod : PkgDict) (pending : List Nat),
      ∀ t ∈ depTurns env n r pkgRepod pending, t.left < n := by
  intro n
  induction n with
  | zero => exact fun _ _ _ t ht => by cases ht
  | succ n ih =>
    intro r pkgRepod pending t ht
    rw [depTurns] at ht
    exact Nat.lt_succ_of_le (loopTurns_depth ih t ht)

theorem ownDeps_append (depth : Nat) (a b : List Look) :
    ownDeps depth (a ++ b) = ownDeps depth a ++ ownDeps depth b := by
  rw [ownDeps, List.filter_append, List.map_append]
  rfl

/-- What a call examines, by its turns. -/
theorem examines_iff (env : Env) (n : Nat) (r : Resolver) (pkgRepod : PkgDict)
    (pending : List Nat) :
    Examines env n r pkgRepod ↔ ((repoDeps env n r pkgRepod).2 = .ok →
      ownDeps (maxDepth - n) ((depTurns env n r pkgRepod pending).map DepTurn.look) =
        pkgRepod.runDepends.getD []) := by
  rw [Examines, (repoDeps_recorded env n r pkgRepod pending).looks, List.drop_left]

section Loop

variable {env : Env} {call : Resolver → PkgDict → Resolver × Rv}
  {turns : Resolver → PkgDict → List Nat → List DepTurn} {left : Nat} {pkgRepod : PkgDict}
  {edits : Nat} {pending : List Nat}

/-- Calls below a call are deeper. -/
theorem ownDeps_below (hleft : left + 1 ≤ maxDepth)
    (hturns : ∀ r d pending, ∀ t ∈ turns r d pending, t.left < left) (t : DepTurn) :
    ownDeps (maxDepth - (left + 1)) ((t.below env turns).map DepTurn.look) = [] := by
  rw [ownDeps, List.map_eq_nil_iff, List.filter_eq_nil_iff]
  intro l hl
  obtain ⟨t', ht', rfl⟩ := List.mem_map.mp hl
  rw [DepTurn.below] at ht'
  split at ht'
  · cases ht'
  · have hlt := hturns _ _ _ t' ht'
    rw [DepTurn.look]
    simp only [decide_eq_true_eq]
    omega

/-- The turns of a call itself go on with the rest if the array has not changed. -/
theorem ownDeps_loopTurns_cons (hleft : left + 1 ≤ maxDepth)
    (hturns : ∀ r d pending, ∀ t ∈ turns r d pending, t.left < left) {t : DepTurn}
    (htl : t.left = left) (rest : List DepTurn) :
    ownDeps (maxDepth - (left + 1)) ((t :: (t.below env turns ++ rest)).map DepTurn.look) =
      t.reqpkg :: ownDeps (maxDepth - (left + 1)) (rest.map DepTurn.look) := by
  have hone : ownDeps (maxDepth - (left + 1)) [t.look] = [t.reqpkg] := by
    rw [ownDeps, DepTurn.look, htl, List.filter_cons_of_pos (by simp)]
    rfl
  rw [List.map_cons, List.map_append, ← List.singleton_append, ownDeps_append, ownDeps_append,
    ownDeps_below hleft hturns, hone]
  rfl

/-- What a turn and the calls below it remove. -/
theorem DepTurn.edits_step
    (hcall : ∀ r d pending, Recorded env r (call r d).1 (turns r d pending)) {t : DepTurn}
    {r r' : Resolver} {rdeps : Option Nat} {rv : Rv} (hst : t.r.st = r.st)
    (hlooks : t.r.looks = r.looks ++ [t.look])
    (h : depStep env call t.r t.pkgRepod t.rdeps t.reqpkg = (r', rdeps, rv)) (id : Nat) :
    r'.st.edits.count id = ((t :: t.below env turns).filterMap (DepTurn.removes env)).count id +
      r.st.edits.count id := by
  have hrec := t.recorded hcall hst hlooks
  rw [h] at hrec
  rw [hrec.edits, List.count_append, List.count_reverse]

/-- A loop all of whose turns are tidy examines every dependency. -/
theorem loopTurns_examines (hleft : left + 1 ≤ maxDepth)
    (hturns : ∀ r d pending, ∀ t ∈ turns r d pending, t.left < left)
    (hpend : ∀ r d pending, ∀ t ∈ turns r d pending, pending ⊆ t.pending)
    (hcall : ∀ r d pending, Recorded env r (call r d).1 (turns r d pending)) :
    ∀ (deps : List Str) (last : Option PkgDict) (rdeps : Option Nat) (r : Resolver),
      (deps ≠ [] → r.st.edits.count pkgRepod.runDependsId = edits) →
      (∀ t ∈ loopTurns env call turns left pkgRepod edits pending deps last rdeps r, t.Tidy env) →
      (depLoop env call (maxDepth - (left + 1)) pkgRepod edits deps rdeps r).2 = .ok →
      ownDeps (maxDepth - (left + 1))
        ((loopTurns env call turns left pkgRepod edits pending deps last rdeps r).map DepTurn.look) =
          deps := by
  intro deps
  induction deps with
  | nil => exact fun _ _ _ _ _ _ => rfl
  | cons reqpkg deps ih =>
    intro last rdeps r hcount hclean hok
    have hedits := hcount (List.cons_ne_nil _ _)
    obtain ⟨t, ⟨hst, hlooks, htl, htp, htq, htr, htpend, -, -⟩, hloop, heq⟩ := loopTurns_cons hedits
    rw [hloop] at hok
    rw [heq] at hclean ⊢
    rw [ownDeps_loopTurns_cons hleft hturns htl]
    cases hstep : depStep env call t.r t.pkgRepod t.rdeps t.reqpkg with
    | mk r' out =>
      obtain ⟨rdeps', rv⟩ := out
      rw [hstep] at hok hclean
      have hnext := DepTurn.edits_step hcall hst hlooks hstep pkgRepod.runDependsId
      cases rv with
      | err e => cases hok
      | abort => cases hok
      | ok =>
        simp only at hok hclean ⊢
        rw [htq, ih (t.resolved env) rdeps' r' ?_ (fun t' ht' => hclean t' ?_) hok]
        · intro hne
          -- nothing is removed from the array while entries are left
          rw [hnext, hedits, List.count_eq_zero_of_not_mem, Nat.zero_add]
          intro hmem
          obtain ⟨t', ht', hrem⟩ := List.mem_filterMap.mp hmem
          rcases List.mem_cons.mp ht' with rfl | ht'
          · exact hne (htr ▸ (hclean t' List.mem_cons_self _ hrem).2.1)
          · have hout := (hclean t' (List.mem_cons_of_mem _ (List.mem_append_left _ ht')) _ hrem).2.2
            refine hout ?_
            rw [DepTurn.below] at ht'
            split at ht'
            · cases ht'
            · refine hpend _ _ _ t' ht' ?_
              rw [if_neg (htr ▸ hne), htp]
              exact List.mem_cons_self
        · exact List.mem_cons_of_mem _ (List.mem_append_right _ ht')

/-- The turns below a turn are tidy, if that is so for the calls it makes: what they remove is
pending for the turn itself, or is the array the turn is not done with. -/
theorem DepTurn.below_clean {t : DepTurn} (htl : t.left = left)
    (hbelow : ∀ r d pending, (call r d).2 = .ok → Examines env left r d →
      (∀ t ∈ turns r d pending, t.Sound env) → ∀ t ∈ turns r d pending,
        ∀ id, t.removes env = some id → t.rest = [] ∧ (id ∈ t.pending → id ∈ pending))
    (hok : (depStep env call t.r t.pkgRepod t.rdeps t.reqpkg).2.2 = .ok) (hsound : t.Sound env)
    (hsounds : ∀ t₁ ∈ t.below env turns, t₁.Sound env) :
    ∀ t₁ ∈ t.below env turns, ∀ id, t₁.removes env = some id →
      t₁.rest = [] ∧
        (id ∈ t₁.pending → id ∈ t.pending ∨ t.rest ≠ [] ∧ id = t.pkgRepod.runDependsId) := by
  intro t₁ ht₁ id hid
  have hdoes := t.does env call
  rw [hok] at hdoes
  cases hc : t.call env with
  | none =>
    rw [DepTurn.below, hc] at ht₁
    cases ht₁
  | some c =>
    obtain ⟨r₁, d⟩ := c
    have hb : t.below env turns = turns r₁ d
        (if t.rest = [] then t.pending else t.pkgRepod.runDependsId :: t.pending) := by
      rw [DepTurn.below, hc]
    -- the turn went well, so the call below it did
    have hok₁ : (call r₁ d).2 = .ok := by
      cases hdoes with
      | looks _ hn => rw [hc] at hn; cases hn
      | removes _ hn => rw [hc] at hn; cases hn
      | calls _ hn _ _ _ _ hrv =>
        obtain ⟨rfl, rfl⟩ := Prod.mk.inj (Option.some.inj (hc.symm.trans hn))
        exact hrv rfl
    rw [hb] at ht₁ hsounds
    obtain ⟨hlast, hpend⟩ :=
      hbelow r₁ d _ hok₁ (htl ▸ hsound.examines r₁ d hc) hsounds t₁ ht₁ id hid
    refine ⟨hlast, fun h => ?_⟩
    have hin := hpend h
    -- the pending list grew by this package if the turn is not its last
    by_cases hr : t.rest = []
    · rw [if_pos hr] at hin
      exact Or.inl hin
    · rw [if_neg hr] at hin
      rcases List.mem_cons.mp hin with rfl | hin
      · exact Or.inr ⟨hr, rfl⟩
      · exact Or.inl hin

/-- Where the loop has gone on to examine more entries, nothing was removed from its array. -/
theorem DepTurn.keeps_array
    (hcall : ∀ r d pending, Recorded env r (call r d).1 (turns r d pending)) {t : DepTurn}
    {deps : List Str} {r r' : Resolver} {last : Option PkgDict} {rdeps rdeps' : Option Nat} {rv : Rv}
    (hst : t.r.st = r.st) (hlooks : t.r.looks = r.looks ++ [t.look])
    (hstep : depStep env call t.r t.pkgRepod t.rdeps t.reqpkg = (r', rdeps', rv))
    (hedits : r.st.edits.count pkgRepod.runDependsId = edits)
    (hown : ownDeps (maxDepth - (left + 1))
      ((loopTurns env call turns left pkgRepod edits pending deps last rdeps r').map DepTurn.look) =
        deps) (hne : deps ≠ []) :
    ∀ t₁ ∈ t :: t.below env turns, t₁.removes env ≠ some pkgRepod.runDependsId := by
  have hcount : r'.st.edits.count pkgRepod.runDependsId = edits := by
    by_contra hcount
    obtain ⟨reqpkg', deps', rfl⟩ := List.exists_cons_of_ne_nil hne
    rw [loopTurns, if_pos hcount] at hown
    cases hown
  have hnext := DepTurn.edits_step hcall hst hlooks hstep pkgRepod.runDependsId
  rw [hcount, hedits] at hnext
  have hzero : ((t :: t.below env turns).filterMap (DepTurn.removes env)).count
      pkgRepod.runDependsId = 0 := by
    omega
  exact fun t₁ ht₁ h =>
    List.count_eq_zero.mp hzero (List.mem_filterMap.mpr ⟨t₁, ht₁, h⟩)

/-- A loop that examines every dependency: its turns are tidy as far as the calls around it do
not matter, if they are sound, and if that is so for the calls in it. -/
theorem loopTurns_clean (hleft : left + 1 ≤ maxDepth)
    (hturns : ∀ r d pending, ∀ t ∈ turns r d pending, t.left < left)
    (hcall : ∀ r d pending, Recorded env r (call r d).1 (turns r d pending))
    (hbelow : ∀ r d pending, (call r d).2 = .ok → Examines env left r d →
      (∀ t ∈ turns r d pending, t.Sound env) → ∀ t ∈ turns r d pending,
        ∀ id, t.removes env = some id → t.rest = [] ∧ (id ∈ t.pending → id ∈ pending)) :
    ∀ (deps : List Str) (last : Option PkgDict) (rdeps : Option Nat) (r : Resolver),
      (depLoop env call (maxDepth - (left + 1)) pkgRepod edits deps rdeps r).2 = .ok →
      ownDeps (maxDepth - (left + 1))
        ((loopTurns env call turns left pkgRepod edits pending deps last rdeps r).map DepTurn.look) =
          deps →
      (∀ t ∈ loopTurns env call turns left pkgRepod edits pending deps last rdeps r, t.Sound env) →
      ∀ t ∈ loopTurns env call turns left pkgRepod edits pending deps last rdeps r,
        ∀ id, t.removes env = some id → t.rest = [] ∧ (id ∈ t.pending → id ∈ pending) := by
  intro deps
  induction deps with
  | nil => exact fun _ _ _ _ _ _ t ht => by cases ht
  | cons reqpkg deps ih =>
    intro last rdeps r hok hown hsound t' ht' id hid
    by_cases hedits : r.st.edits.count pkgRepod.runDependsId = edits
    · obtain ⟨t, ⟨hst, hlooks, htl, htp, htq, htr, htpend, -, -⟩, hloop, heq⟩ := loopTurns_cons hedits
      rw [hloop] at hok
      rw [heq] at hown hsound ht'
      rw [ownDeps_loopTurns_cons hleft hturns htl] at hown
      cases hstep : depStep env call t.r t.pkgRepod t.rdeps t.reqpkg with
      | mk r' out =>
        obtain ⟨rdeps', rv⟩ := out
        rw [hstep] at hok hown hsound ht'
        cases rv with
        | err e => cases hok
        | abort => cases hok
        | ok =>
          simp only at hok hown hsound ht'
          have hrest := (List.cons.inj hown).2
          have hnot := DepTurn.keeps_array hcall hst hlooks hstep hedits hrest
          have hmem : ∀ t₁ ∈ t.below env turns, t₁ ∈ t :: (t.below env turns ++
              loopTurns env call turns left pkgRepod edits pending deps (t.resolved env)
                rdeps' r') :=
            fun t₁ h => List.mem_cons_of_mem _ (List.mem_append_left _ h)
          rcases List.mem_cons.mp ht' with rfl | ht'
          · -- the turn itself: an entry of its own array was the last one
            refine ⟨?_, fun h => htpend ▸ h⟩
            rw [htr]
            by_contra hne
            refine hnot hne t' List.mem_cons_self ?_
            rw [hid, (hsound t' List.mem_cons_self).own id hid, htp]
          rcases List.mem_append.mp ht' with ht' | ht'
          · obtain ⟨hlast, hpend⟩ := DepTurn.below_clean htl hbelow (by rw [hstep])
              (hsound t List.mem_cons_self) (fun t₁ h => hsound t₁ (hmem t₁ h)) t' ht' id hid
            refine ⟨hlast, fun h => ?_⟩
            -- the array of this call is not touched while it has entries left
            rcases hpend h with hin | ⟨hr, rfl⟩
            · exact htpend ▸ hin
            · rw [htp] at hid
              exact absurd hid (hnot (htr ▸ hr) t' (List.mem_cons_of_mem _ ht'))
          · exact ih (t.resolved env) rdeps' r' hok hrest
              (fun t₁ h => hsound t₁ (List.mem_cons_of_mem _ (List.mem_append_right _ h)))
              t' ht' id hid
    · rw [loopTurns, if_pos hedits] at hown
      cases hown

/-- The calls in a loop are known of the arrays that the calls around them are not done with. -/
theorem loopTurns_pending
    (hturns : ∀ r d pending, ∀ t ∈ turns r d pending, pending ⊆ t.pending) {deps : List Str}
    {last : Option PkgDict} {rdeps : Option Nat} {r : Resolver} :
    ∀ t ∈ loopTurns env call turns left pkgRepod edits pending deps last rdeps r,
      pending ⊆ t.pending := by
  refine loopTurns_rule (I := fun _ _ _ => True) (fun {_ _ _ _ _ t} _ hat => ?_) trivial
  refine ⟨hat.pending ▸ List.Subset.refl _, fun t₁ ht₁ => ?_, fun _ _ _ => trivial⟩
  obtain ⟨r', d, -, hmem⟩ := DepTurn.mem_below ht₁
  have hsub := hturns r' d _ t₁ hmem
  split at hsub
  · rwa [hat.pending] at hsub
  · rw [hat.pending] at hsub
    exact fun _ hx => hsub (List.mem_cons_of_mem _ hx)

/-- The calls in a loop examine every dependency if all turns are tidy. -/
theorem loopTurns_sound
    (hbelow : ∀ r d pending, (∀ t ∈ turns r d pending, t.Tidy env) →
      Examines env left r d ∧ ∀ t ∈ turns r d pending, t.Sound env) :
    ∀ {deps : List Str} {last : Option PkgDict} {rdeps : Option Nat} {r : Resolver},
      (∀ t ∈ loopTurns env call turns left pkgRepod edits pending deps last rdeps r, t.Tidy env) →
      ∀ t ∈ loopTurns env call turns left pkgRepod edits pending deps last rdeps r, t.Sound env := by
  intro deps
  induction deps with
  | nil => exact fun _ t ht => by cases ht
  | cons reqpkg deps ih =>
    intro last rdeps r hclean t' ht'
    by_cases h : r.st.edits.count pkgRepod.runDependsId = edits
    · obtain ⟨t, hat, -, heq⟩ := loopTurns_cons h
      rw [heq] at hclean ht'
      have hin : ∀ t₁ ∈ t.below env turns, t₁.Tidy env := fun t₁ h₁ =>
        hclean t₁ (List.mem_cons_of_mem _ (List.mem_append_left _ h₁))
      rcases List.mem_cons.mp ht' with rfl | ht'
      · refine ⟨fun id hid => (hclean t' List.mem_cons_self id hid).1, fun r' d hc => ?_⟩
        rw [DepTurn.below, hc] at hin
        exact hat.left ▸ (hbelow r' d _ hin).1
      · rcases List.mem_append.mp ht' with ht' | ht'
        · rw [DepTurn.below] at hin ht'
          split at ht'
          · cases ht'
          · next r' d hc =>
            rw [hc] at hin
            exact (hbelow r' d _ hin).2 t' ht'
        · split at ht'
          · next heq' =>
            rw [heq'] at hclean
            exact ih (fun t₁ h₁ => hclean t₁
              (List.mem_cons_of_mem _ (List.mem_append_right _ h₁))) t' ht'
          · cases ht'
    · rw [loopTurns, if_pos h] at ht'
      cases ht'

end Loop

theorem depTurns_pending (env : Env) :
    ∀ (n : Nat) (r : Resolver) (pkgRepod : PkgDict) (pending : List Nat),
      ∀ t ∈ depTurns env n r pkgRepod pending, pending ⊆ t.pending := by
  intro n
  induction n with
  | zero => exact fun _ _ _ t ht => by cases ht
  | succ n ih =>
    intro r pkgRepod pending t ht
    rw [depTurns] at ht
    exact loopTurns_pending ih t ht

/-- If all turns are tidy, every call examines all dependencies and edits its own array. -/
theorem depTurns_sound (env : Env) :
    ∀ (n : Nat), n ≤ maxDepth → ∀ (r : Resolver) (pkgRepod : PkgDict) (pending : List Nat),
      (∀ t ∈ depTurns env n r pkgRepod pending, t.Tidy env) →
        Examines env n r pkgRepod ∧ ∀ t ∈ depTurns env n r pkgRepod pending, t.Sound env := by
  intro n
  induction n with
  | zero => exact fun _ r pkgRepod pending _ => ⟨fun h => (by cases h), fun t ht => by cases ht⟩
  | succ n ih =>
    intro hn r pkgRepod pending hclean
    rw [examines_iff env (n + 1) r pkgRepod pending]
    rw [depTurns] at hclean ⊢
    refine ⟨fun hok => ?_, loopTurns_sound (ih (Nat.le_of_succ_le hn)) hclean⟩
    exact loopTurns_examines hn (depTurns_depth env n) (depTurns_pending env n)
      (repoDeps_recorded env n) _ _ _ r (fun _ => rfl) hclean hok

/-- In a call that returns 0, turns that are sound are tidy as far as the calls around it do not
matter. -/
theorem depTurns_clean (env : Env) :
    ∀ (n : Nat), n ≤ maxDepth → ∀ (r : Resolver) (pkgRepod : PkgDict) (pending : List Nat),
      (repoDeps env n r pkgRepod).2 = .ok → Examines env n r pkgRepod →
      (∀ t ∈ depTurns env n r pkgRepod pending, t.Sound env) →
      ∀ t ∈ depTurns env n r pkgRepod pending,
        ∀ id, t.removes env = some id → t.rest = [] ∧ (id ∈ t.pending → id ∈ pending) := by
  intro n
  induction n with
  | zero => exact fun _ r pkgRepod pending _ _ _ t ht => by cases ht
  | succ n ih =>
    intro hn r pkgRepod pending hok hex hsound
    have hown := (examines_iff env (n + 1) r pkgRepod pending).mp hex hok
    rw [depTurns] at hsound hown ⊢
    exact loopTurns_clean hn (depTurns_depth env n) (repoDeps_recorded env n)
      (ih (Nat.le_of_succ_le hn)) _ _ _ r hok hown hsound

section Loop

variable {env : Env} {call : Resolver → PkgDict → Resolver × Rv}
  {turns : Resolver → PkgDict → List Nat → List DepTurn} {left : Nat} {pkgRepod : PkgDict}
  {edits : Nat} {pending : List Nat}

/-- What the next turn starts with. -/
theorem DepTurn.OfLast.next {t : DepTurn} (h : t.OfLast) {r' : Resolver} {rdeps' : Option Nat}
    {rv : Rv} (hstep : depStep env call t.r t.pkgRepod t.rdeps t.reqpkg = (r', rdeps', rv)) :
    rdeps' = ((t.resolved env).getD t.pkgRepod).rdeps := by
  have hnext := t.depStep_rdeps env call
  rw [hstep] at hnext
  simp only at hnext
  rw [hnext, DepTurn.resolved]
  cases t.queues env with
  | none => rw [Option.map_none, Option.map_none, Option.none_or, Option.getD_none, h]
  | some q => rfl

theorem loopTurns_ofLast (hturns : ∀ r d pending, ∀ t ∈ turns r d pending, t.OfLast)
    {deps : List Str} {last : Option PkgDict} {rdeps : Option Nat} {r : Resolver}
    (hrdeps : rdeps = (last.getD pkgRepod).rdeps) :
    ∀ t ∈ loopTurns env call turns left pkgRepod edits pending deps last rdeps r, t.OfLast := by
  refine loopTurns_rule (I := fun last rdeps _ => rdeps = (last.getD pkgRepod).rdeps)
    (fun {_ _ _ _ _ t} hI hat => ?_) hrdeps
  have ht : t.OfLast := by rw [DepTurn.OfLast, hat.rdeps, hat.last, hat.pkgRepod, hI]
  refine ⟨ht, fun t₁ ht₁ => ?_, fun r' rdeps' hstep => ?_⟩
  · obtain ⟨r', d, -, hmem⟩ := DepTurn.mem_below ht₁
    exact hturns r' d _ t₁ hmem
  · rw [ht.next hstep, hat.pkgRepod]

end Loop

theorem depTurns_ofLast (env : Env) :
    ∀ (n : Nat) (r : Resolver) (pkgRepod : PkgDict) (pending : List Nat),
      ∀ t ∈ depTurns env n r pkgRepod pending, t.OfLast := by
  intro n
  induction n with
  | zero => exact fun _ _ _ t ht => by cases ht
  | succ n ih =>
    intro r pkgRepod pending t ht
    rw [depTurns] at ht
    exact loopTurns_ofLast ih rfl t ht

/-- A call of `repo_deps`, `depth` calls deep, and the calls below it examine every dependency
and edit the array of their own package only, if a self-dependency is only ever found as the last
entry, behind no dependency that was resolved and has the same entry in its own array, and if no
call around it has entries of that array left.  For a call that returns 0 there is no other
way. -/
theorem repoDeps_sound (env : Env) (depth : Nat) (r : Resolver) (pkgRepod : PkgDict) :
    ((∀ t ∈ depTurns env (maxDepth - depth) r pkgRepod [], t.Clean env) →
        DepsSound env (maxDepth - depth) r pkgRepod) ∧
      ((repoDeps env (maxDepth - depth) r pkgRepod).2 = .ok →
        DepsSound env (maxDepth - depth) r pkgRepod →
          ∀ t ∈ depTurns env (maxDepth - depth) r pkgRepod [], t.Clean env) := by
  have hn : maxDepth - depth ≤ maxDepth := Nat.sub_le _ _
  have hlast := depTurns_ofLast env (maxDepth - depth) r pkgRepod []
  constructor
  · intro hclean
    obtain ⟨hex, hsound⟩ := depTurns_sound env _ hn r pkgRepod [] fun t ht =>
      (hlast t ht).clean_iff.mp (hclean t ht)
    exact ⟨hex, hsound⟩
  · intro hok hsound t ht
    refine (hlast t ht).clean_iff.mpr fun id hid => ?_
    obtain ⟨hrest, hpend⟩ :=
      depTurns_clean env _ hn r pkgRepod [] hok hsound.examines hsound.turns t ht id hid
    exact ⟨(hsound.turns t ht).own id hid, hrest, fun h => by cases hpend h⟩

/-- The second repository has newer versions, which the packages of the first depend on. -/
def examinedRepos : List (Str × Dict Str PkgDict) :=
  [("r".toList, ⟨[turnsPkg "a" "a-1_1" ["a>=2", "d>=0"] 1, turnsPkg "b" "b-1_1" ["b>=9", "c>=2"] 2,
      turnsPkg "c" "c-1_1" ["b>=0", "c>=2"] 3, turnsPkg "d" "d-1_1" [] 4], by decide⟩),
    ("s".toList, ⟨[turnsPkg "a" "a-2_1" [] 5, turnsPkg "b" "b-9_1" [] 6,
      turnsPkg "c" "c-2_1" [] 7], by decide⟩)]

def examinedEnv : Env := { repoOpen := fun uri => examinedRepos.lookup uri }

/-- A request to install the package of this name, when nothing is installed. -/
def examinedStart (name : String) : Resolver :=
  { st := ((Session.start {} (examinedRepos.map Prod.fst)).requests examinedEnv (fun _ _ => none)
      [.install name.toList false]).st }

/-- The newer version of `a` has its name, so the dependency on it is dropped, and `d` is not
examined.  The call for `b` ends in the same way before it comes to `c`; then the call for `c`
drops that dependency from the array of `b`. -/
theorem repoDeps_not_sound :
    (∃ p ∈ (examinedStart "a").st.packages,
      (repoDeps examinedEnv maxDepth (examinedStart "a") p).2 = .ok ∧
        ¬Examines examinedEnv maxDepth (examinedStart "a") p) ∧
      ∃ p ∈ (examinedStart "c").st.packages,
        (repoDeps examinedEnv maxDepth (examinedStart "c") p).2 = .ok ∧
          ∃ t ∈ depTurns examinedEnv maxDepth (examinedStart "c") p [], ∃ id,
            t.removes examinedEnv = some id ∧ id ≠ t.pkgRepod.runDependsId := by
  have ha : ((examinedStart "a").st.packages.any fun p =>
      (repoDeps examinedEnv maxDepth (examinedStart "a") p).2 = .ok ∧
        ownDeps (maxDepth - maxDepth) ((repoDeps examinedEnv maxDepth
          (examinedStart "a") p).1.looks.drop (examinedStart "a").looks.length) ≠
            p.runDepends.getD []) = true := by decide +kernel
  have hc : ((examinedStart "c").st.packages.any fun p =>
      (repoDeps examinedEnv maxDepth (examinedStart "c") p).2 = .ok ∧
        (depTurns examinedEnv maxDepth (examinedStart "c") p []).any fun t =>
          t.removes examinedEnv = some 2 ∧ t.pkgRepod.runDependsId = 3) = true := by
    decide +kernel
  obtain ⟨p, hp, h⟩ := List.any_eq_true.mp ha
  obtain ⟨hok, hne⟩ := of_decide_eq_true h
  obtain ⟨q, hq, h'⟩ := List.any_eq_true.mp hc
  obtain ⟨hok', hany⟩ := of_decide_eq_true h'
  obtain ⟨t, ht, h''⟩ := List.any_eq_true.mp hany
  obtain ⟨hrem, hid⟩ := of_decide_eq_true h''
  exact ⟨⟨p, hp, hok, fun hex => hne (hex hok)⟩, q, hq, hok', t, ht, 2, hrem, by rw [hid]; decide⟩

end Flappy
