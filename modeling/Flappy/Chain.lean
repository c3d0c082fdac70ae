/-
The depth of the dependency resolver (`repo_deps`).

The recursion is written out with its counter and with a trace of the calls.  A package is
queued only if nothing queued answers to the dependency; what the repositories have for a
dependency answers to it by its pkgver, so no package is queued twice, and a cycle ends
where it closes.

* `depPasses` — the loop body up to the place where the package is queued;
* `descend` — `repo_deps`, with its depth;
* `depLookup_answers` — what is found answers to the dependency;
* `DepTurn.Fails` — why a dependency cannot be resolved;
* `repoDeps_ends` — how a call ends: with an error only for such a reason, or `ELOOP`;
* `transactionPkgDeps_chain` — the resolver ends; at every call the queue is the chain of
  the packages that are being resolved, and `ELOOP` means a chain of `MAX_DEPTH` packages.
-/
import Flappy.Examined
import Mathlib.Data.List.Chain
import Mathlib.Algebra.GroupWithZero.Nat

open CStr

namespace Flappy

/-! ### The loop body -/

/-- What the loop body comes to before a package is queued. -/
inductive DepPass where
  | done (st : State) (rv : Rv)
  | queue (st : State) (ref : PkgRef) (d : PkgDict) (curpkgd : Option PkgDict)
    (ttype : TransType) (autoinst : Bool)

/-- The loop body of `repo_deps`, up to there. -/
def depPasses (env : Env) (st : State) (queued : List PkgDict) (pkgRepod : PkgDict)
    (rdeps : Option Nat) (reqpkg : Str) : DepPass :=
  match depInstalled st queued pkgRepod reqpkg with
  | (st, .fail rv) => .done st rv
  | (st, .skip) => .done st .ok
  | (st, .missing) => .done { st with missingDeps := addMissingReqdep st.missingDeps reqpkg } .ok
  | (st, .configure curpkgd) =>
    .done (st.storePkgdb curpkgd .configure (curpkgd.automaticInstall.getD false)).1
      (st.storePkgdb curpkgd .configure (curpkgd.automaticInstall.getD false)).2
  | (st, .resolve curpkgd ttype autoinst) =>
    match depLookup env st curpkgd reqpkg with
    | (st, none) =>
      match st.failed with
      | some e => .done st (.err e)
      | none => .done { st with missingDeps := addMissingReqdep st.missingDeps reqpkg } .ok
    | (st, some ref) =>
      match st.pool.get ref with
      | none => .done st (.err .einval)
      | some d =>
        match pkgName d.pkgver, pkgName pkgRepod.pkgver with
        | some reqpkgname, some pkgname =>
          if pkgname = reqpkgname then
            -- depends on itself
            match rdeps with
            | none => .done st .abort
            | some id => .done (st.removeRunDepend id reqpkg) .ok
          else
            match updateLookup st d ttype reqpkgname reqpkg with
            | (st, some _) => .done st (.err .enodev)
            | (st, none) => .queue st ref d curpkgd ttype autoinst
        | _, _ => .done st (.err .einval)

/-- The loop body is this and what follows. -/
theorem depStep_eq (env : Env) (call : Resolver → PkgDict → Resolver × Rv) (r : Resolver)
    (pkgRepod : PkgDict) (rdeps : Option Nat) (reqpkg : Str) :
    depStep env call r pkgRepod rdeps reqpkg =
      match depPasses env r.st r.queued pkgRepod rdeps reqpkg with
      | .done st rv => ({ r with st }, rdeps, rv)
      | .queue st ref d curpkgd ttype autoinst =>
        match depBelow call { r with st, queued := r.queued ++ [d] } d with
        | (r, .ok) =>
          ((depStore r ref curpkgd ttype autoinst).1, d.rdeps,
            (depStore r ref curpkgd ttype autoinst).2)
        | (r, rv) => (r, d.rdeps, rv) := by
  rw [depStep, depPasses]
  rcases depInstalled r.st r.queued pkgRepod reqpkg with ⟨st, action⟩
  cases action with
  | fail rv => rfl
  | skip => rfl
  | missing => rfl
  | configure curpkgd => rfl
  -- both go through the same lookups
  | resolve curpkgd ttype autoinst =>
    simp only [depResolve]
    rcases depLookup env st curpkgd reqpkg with ⟨st₁, found⟩
    cases found with
    | none =>
      simp only
      cases st₁.failed <;> rfl
    | some ref =>
      simp only
      cases st₁.pool.get ref with
      | none => rfl
      | some d =>
        simp only
        cases pkgName d.pkgver with
        | none => rfl
        | some reqpkgname =>
          cases pkgName pkgRepod.pkgver with
          | none => rfl
          | some pkgname =>
            simp only
            by_cases hself : pkgname = reqpkgname
            · rw [if_pos hself, if_pos hself]
              cases rdeps <;> rfl
            · rw [if_neg hself, if_neg hself]
              cases hup : updateLookup st₁ d ttype reqpkgname reqpkg with
              | mk st₂ updating =>
              rw [updateLookup] at hup
              rw [hup]
              cases updating with
              | some u => rfl
              | none =>
                simp only [Option.isSome_none, Bool.false_eq_true, if_false]
                cases hb : depBelow call { r with st := st₂, queued := r.queued ++ [d] } d with
                | mk r₁ rv =>
                have hb' := hb
                rw [depBelow] at hb'
                rw [hb']
                cases rv <;> rfl

/-! ### The recursion -/

/-- `unsigned short`. -/
def unsignedShort (n : Nat) : Nat := n % 2 ^ 16

/-- A call of `repo_deps`: the arguments of the calls around it and its own, the queue and
the depth. -/
structure DepCall where
  callers : List PkgDict
  pkgRepod : PkgDict
  queued : List PkgDict
  depth : Nat

/-- The resolver with its depth, and the calls so far. -/
structure Descent where
  r : Resolver
  depth : Nat := 0
  calls : List DepCall := []

/-- The end of the loop body. -/
def Descent.store (x : Descent) (d : PkgDict) (ref : PkgRef) (curpkgd : Option PkgDict)
    (ttype : TransType) (autoinst : Bool) : Descent × Option Nat × Rv :=
  let (r, rv) := depStore x.r ref curpkgd ttype autoinst
  ({ x with r }, d.rdeps, rv)

/-- The loop body of `repo_deps`; `call` is the recursive call. -/
def descendStep (env : Env) (call : Descent → PkgDict → Option (Descent × Rv)) (x : Descent)
    (pkgRepod : PkgDict) (rdeps : Option Nat) (reqpkg : Str) :
    Option (Descent × Option Nat × Rv) :=
  match depPasses env x.r.st x.r.queued pkgRepod rdeps reqpkg with
  | .done st rv => some ({ x with r.st := st }, rdeps, rv)
  | .queue st ref d curpkgd ttype autoinst =>
    let x := { x with r.st := st, r.queued := x.r.queued ++ [d] }
    if d.runDepends.getD [] = [] then some (x.store d ref curpkgd ttype autoinst)
    else
      match call { x with depth := unsignedShort (x.depth + 1) } d with
      | none => none
      | some (x, .ok) => some (x.store d ref curpkgd ttype autoinst)
      | some (x, rv) => some (x, d.rdeps, rv)

/-- The loop of `repo_deps`. -/
def descendLoop (env : Env) (call : Descent → PkgDict → Option (Descent × Rv))
    (pkgRepod : PkgDict) (edits : Nat) :
    List Str → Option Nat → Descent → Option (Descent × Rv)
  | [], _, x => some (x, .ok)
  | reqpkg :: deps, rdeps, x =>
    if x.r.st.edits.count pkgRepod.runDependsId ≠ edits then some (x, .ok)
    else
      let x := { x with
        r.looks := x.r.looks ++ [⟨x.r.st, x.r.queued, x.depth, pkgRepod, reqpkg⟩] }
      match descendStep env call x pkgRepod rdeps reqpkg with
      | none => none
      | some (x, rdeps, .ok) => descendLoop env call pkgRepod edits deps rdeps x
      | some (x, _, rv) => some (x, rv)

/-- `repo_deps`, for so many nested calls at most; `none` if it takes more. -/
def descend (env : Env) : Nat → List PkgDict → Descent → PkgDict → Option (Descent × Rv)
  | 0, _, _, _ => none
  | n + 1, callers, x, pkgRepod =>
    let x := { x with calls := x.calls ++ [⟨callers, pkgRepod, x.r.queued, x.depth⟩] }
    if maxDepth ≤ x.depth then some (x, .err .eloop)
    else
      match descendLoop env (descend env n (callers ++ [pkgRepod])) pkgRepod
          (x.r.st.edits.count pkgRepod.runDependsId) (pkgRepod.runDepends.getD [])
          pkgRepod.rdeps x with
      | none => none
      | some (x, rv) => some ({ x with depth := unsignedShort (x.depth + (2 ^ 16 - 1)) }, rv)

/-! ### What the repositories have for a dependency -/

/-- Opening a repository does not leave `ELOOP` in `errno`. -/
def Env.NoLoop (env : Env) : Prop :=
  ∀ uri errno, errno ≠ some .eloop → env.openErrno uri errno ≠ some .eloop

/-- What was found answers to the dependency, and `errno` is not `ELOOP`. -/
structure RealFind (reqpkg : Str) (pool : Rpool) (pkgd : Option PkgRef) : Prop where
  answers : ∀ ref, pkgd = some ref →
    ∃ d, pool.get ref = some d ∧ matchesRequest reqpkg false d = true
  errno : pool.errno ≠ some .eloop

theorem findErrno_ne {errno : Option Errno} (h : errno ≠ some .eloop) (d : Dict Str PkgDict)
    (pkg : Str) : findErrno d pkg errno ≠ some .eloop := by
  rw [findErrno]
  split
  · exact h
  · split
    · split <;> simp
    · split <;> simp
    · exact h

theorem findVirtualErrno_ne {errno : Option Errno} (h : errno ≠ some .eloop) (xhp : Handle)
    (d : Dict Str PkgDict) (pkg : Str) : findVirtualErrno xhp d pkg errno ≠ some .eloop := by
  rw [findVirtualErrno]
  split
  · exact h
  · exact findErrno_ne h d _

theorem Rpool.describe_errno (pool : Rpool) (i : Nat) (key : Option Str) :
    (pool.describe i key).1.errno = pool.errno := by
  unfold Rpool.describe
  split <;> rfl

/-- The dictionary that is handed out is the one under the key. -/
theorem Rpool.describe_found {pool : Rpool} {i : Nat} {key : Option Str} {ref : PkgRef}
    (h : (pool.describe i key).2 = some ref) :
    ∃ repo k d, pool.queue[i]? = some repo ∧ key = some k ∧ repo.idx.get k = some d ∧
      (pool.describe i key).1.get ref = some (Flappy.describe repo.uri d) := by
  cases key with
  | none => cases h
  | some k =>
    cases hi : pool.queue[i]? with
    | none =>
      simp only [Rpool.describe, hi] at h
      cases h
    | some repo =>
      simp only [Rpool.describe, hi] at h ⊢
      split at h
      · next hd =>
        rw [Option.some.injEq] at h
        subst h
        cases hget : repo.idx.get k with
        | none =>
          rw [hget] at hd
          cases hd
        | some d =>
          refine ⟨repo, k, d, rfl, rfl, hget, ?_⟩
          rw [Rpool.get_modify_self, Rpool.get]
          simp only [hi, Option.bind_some, hget, Option.map_some]
      · cases h

theorem Rpool.open_errno (env : Env) (pool : Rpool) (uri : Str) :
    (pool.open env uri).1.errno = env.openErrno uri pool.errno := by
  rw [Rpool.open]
  split <;> rfl

section

variable {env : Env} {xhp : Handle} {reqpkg : Str} {pool pool' : Rpool} {pkgd : Option PkgRef}

theorem RealFind.miss (herrno : pool.errno ≠ some .eloop) : RealFind reqpkg pool none :=
  ⟨fun _ href => (by cases href), herrno⟩

theorem RealFind.ext (h : RealFind reqpkg pool pkgd) (hext : PoolExt env pool pool')
    (herrno : pool'.errno ≠ some .eloop) : RealFind reqpkg pool' pkgd := by
  refine ⟨fun ref hr => ?_, herrno⟩
  obtain ⟨d, hd, hm⟩ := h.answers ref hr
  obtain ⟨d', hd', hevolves⟩ := hext.kept ref d hd
  exact ⟨d', hd', (matchesRequest_congr hevolves.pkgver).trans hm⟩

theorem RealFind.open (hopen : env.NoLoop) (h : RealFind reqpkg pool pkgd) (uri : Str) :
    RealFind reqpkg (pool.open env uri).1 pkgd := by
  refine h.ext (Rpool.open_spec env pool uri) ?_
  rw [Rpool.open_errno]
  exact hopen uri _ h.errno

/-- A lookup in one repository, without configured virtual packages. -/
theorem repoGetPkg_real (hconf : ∀ v, xhp.vpkgdConf.get v = none)
    (hreq : request reqpkg ≠ .pkgname) (herrno : pool.errno ≠ some .eloop) (i : Nat) :
    RealFind reqpkg (repoGetPkg env xhp pool i reqpkg).1
      (repoGetPkg env xhp pool i reqpkg).2 := by
  have hnone : virtualpkgInConf env xhp reqpkg = none := by rw [virtualpkgInConf, hconf]; rfl
  rw [repoGetPkg]
  cases hi : pool.queue[i]? with
  | none => exact RealFind.miss herrno
  | some repo =>
    simp only [repoFindErrno, repoFindKey, hnone, Option.bind_none, Option.none_or]
    refine ⟨fun ref hr => ?_, ?_⟩
    · obtain ⟨repo', key, d, hi', hk, hget, href⟩ := Rpool.describe_found hr
      obtain rfl : repo' = repo := Option.some.inj (hi'.symm.trans hi)
      obtain ⟨d', hfind, hget'⟩ := findKeyInDict_eq_some hk
      obtain rfl : d' = d := Option.some.inj (hget'.symm.trans hget)
      refine ⟨_, href, ?_⟩
      rw [matchesRequest_congr (evolves_describe repo'.uri d').pkgver]
      exact findPkgInDict_matches hreq hfind
    · rw [Rpool.describe_errno]
      exact findErrno_ne herrno repo.idx reqpkg

theorem findPkgCb_real (hconf : ∀ v, xhp.vpkgdConf.get v = none)
    (hreq : request reqpkg ≠ .pkgname) (h : RealFind reqpkg pool pkgd) (i : Nat) :
    RealFind reqpkg (findPkgCb env xhp reqpkg pool i pkgd).pool
      (findPkgCb env xhp reqpkg pool i pkgd).pkgd :=
  repoGetPkg_real hconf hreq h.errno i

theorem findBestPkgCb_real (hconf : ∀ v, xhp.vpkgdConf.get v = none)
    (hreq : request reqpkg ≠ .pkgname) (h : RealFind reqpkg pool pkgd) (i : Nat) :
    RealFind reqpkg (findBestPkgCb env xhp reqpkg pool i pkgd).pool
        (findBestPkgCb env xhp reqpkg pool i pkgd).pkgd ∧
      (findBestPkgCb env xhp reqpkg pool i pkgd).rv ≠ some .eloop := by
  have hget := @repoGetPkg_real env _ _ _ hconf hreq h.errno i
  have hext := (repoGetPkg_spec env xhp pool i reqpkg).1
  rw [findBestPkgCb]
  cases hr : repoGetPkg env xhp pool i reqpkg with
  | mk pool' found =>
    rw [hr] at hget hext
    cases found with
    | none =>
      refine ⟨h.ext hext hget.errno, ?_⟩
      simp only
      split
      · simp
      · exact hget.errno
    | some ref =>
      cases pkgd with
      | none => exact ⟨hget, by simp⟩
      | some b =>
        simp only
        split
        · exact ⟨hget, by simp⟩
        · exact ⟨h.ext hext hget.errno, by simp⟩

/-- A search of the pool whose callback finds what answers to the dependency. -/
theorem repoFindPkg_real (hopen : env.NoLoop) {fn : Rpool → Nat → Option PkgRef → CbResult}
    (hfn : ∀ pool i pkgd, RealFind reqpkg pool pkgd →
      RealFind reqpkg (fn pool i pkgd).pool (fn pool i pkgd).pkgd ∧
        (fn pool i pkgd).rv ≠ some .eloop) (herrno : pool.errno ≠ some .eloop) :
    RealFind reqpkg (repoFindPkg env fn pool).1 (repoFindPkg env fn pool).2 := by
  obtain ⟨hreal, hrv⟩ := @rpoolForeach_rule env fn (RealFind reqpkg) (· ≠ some .eloop)
    (fun pool pkgd uri h => RealFind.open hopen h uri) hfn (by simp) (by simp)
    pool.repositories pool none false (RealFind.miss herrno)
  rw [repoFindPkg]
  split
  · next pool' ref e hr =>
    rw [hr] at hrv
    exact RealFind.miss hrv
  · exact RealFind.miss (by simp)
  · next pool' ref hr =>
    rw [hr] at hreal
    exact hreal

theorem rpoolGetPkg_real (hopen : env.NoLoop) (hconf : ∀ v, xhp.vpkgdConf.get v = none)
    (hreq : request reqpkg ≠ .pkgname) (herrno : pool.errno ≠ some .eloop) :
    RealFind reqpkg (rpoolGetPkg env xhp pool reqpkg).1 (rpoolGetPkg env xhp pool reqpkg).2 := by
  rw [rpoolGetPkg]
  split
  · exact repoFindPkg_real hopen (fun _ i _ h => findBestPkgCb_real hconf hreq h i) herrno
  · refine repoFindPkg_real hopen (fun pool i pkgd h => ⟨findPkgCb_real hconf hreq h i, ?_⟩) herrno
    exact fun h => by cases h

theorem rpoolGetVirtualpkg_errno (hopen : env.NoLoop) (herrno : pool.errno ≠ some .eloop) :
    (rpoolGetVirtualpkg env xhp pool reqpkg).1.errno ≠ some .eloop := by
  have hfn : ∀ (pool : Rpool) (i : Nat) (pkgd : Option PkgRef), pool.errno ≠ some .eloop →
      (findVirtualpkgCb xhp reqpkg pool i pkgd).pool.errno ≠ some .eloop ∧
        (findVirtualpkgCb xhp reqpkg pool i pkgd).rv ≠ some .eloop := by
    intro pool i pkgd h
    refine ⟨?_, fun h => by cases h⟩
    simp only [findVirtualpkgCb, repoGetVirtualpkg]
    split
    · exact h
    · rw [Rpool.describe_errno]
      exact findVirtualErrno_ne h xhp _ reqpkg
  have hopened : ∀ (pool : Rpool) (_ : Option PkgRef) (uri : Str), pool.errno ≠ some .eloop →
      (pool.open env uri).1.errno ≠ some .eloop := by
    intro pool _ uri h
    rw [Rpool.open_errno]
    exact hopen uri _ h
  obtain ⟨hend, hrv⟩ := @rpoolForeach_rule env (findVirtualpkgCb xhp reqpkg)
    (fun pool _ => pool.errno ≠ some .eloop) (· ≠ some .eloop) hopened hfn (by simp) (by simp)
    pool.repositories pool none false herrno
  rw [rpoolGetVirtualpkg, repoFindPkg]
  split
  · next pool' ref e hr =>
    rw [hr] at hrv
    exact hrv
  · simp
  · next pool' ref hr =>
    rw [hr] at hend
    exact hend

theorem reggetOpen_errno (hopen : env.NoLoop) (url : Str) :
    ∀ (uris : List Str) (pool : Rpool), pool.errno ≠ some .eloop →
      (reggetOpen env url uris pool).1.errno ≠ some .eloop := by
  intro uris
  induction uris with
  | nil => exact fun _ h => h
  | cons uri uris ih =>
    intro pool h
    rw [reggetOpen]
    split
    · exact ih pool h
    · simp only
      split
      · exact hopen uri _ h
      · exact ih _ (hopen uri _ h)

theorem reggetRepo_errno (hopen : env.NoLoop) (herrno : pool.errno ≠ some .eloop) (url : Str) :
    (reggetRepo env pool url).1.errno ≠ some .eloop := by
  have h := reggetOpen_errno hopen url pool.repositories pool herrno
  rw [reggetRepo]
  split
  · split
    · next pool' hr => rwa [hr] at h
    · next pool' hr => rwa [hr] at h
  · exact herrno

end

/-! ### The dependencies of a run -/

/-- A later state with the same configuration. -/
structure Onward (env : Env) (st st' : State) : Prop where
  later : Later env st st'
  conf : { st'.xhp with pkgdb := st.xhp.pkgdb } = st.xhp

theorem Onward.refl (env : Env) (st : State) : Onward env st st := ⟨Later.refl env st, rfl⟩

theorem Onward.trans {env : Env} {a b c : State} (h : Onward env a b) (h' : Onward env b c) :
    Onward env a c := by
  refine ⟨h.later.trans h'.later, ?_⟩
  rw [← h.conf, ← h'.conf]

theorem Onward.vpkgdConf {env : Env} {st st' : State} (h : Onward env st st') :
    st'.xhp.vpkgdConf = st.xhp.vpkgdConf := by
  have hconf := congrArg Handle.vpkgdConf h.conf
  exact hconf

theorem Onward.vpkgd {env : Env} {st st' : State} (h : Onward env st st') :
    st'.xhp.vpkgd = st.xhp.vpkgd := by
  have hvpkgd := congrArg Handle.vpkgd h.conf
  exact hvpkgd

theorem Looked.onward {env : Env} {st st' : State} (h : Looked env st st') : Onward env st st' :=
  ⟨h.later, by rw [h.xhp]⟩

/-- A dependency of the package `base`, or of a package of the repositories. -/
def IsDep (env : Env) (st : State) (base : PkgDict) (reqpkg : Str) : Prop :=
  reqpkg ∈ base.runDepends.getD [] ∨
    ∃ st' ref d, Onward env st st' ∧ st'.pool.get ref = some d ∧ reqpkg ∈ d.runDepends.getD []

/-- No virtual package is configured, and no dependency that the packages of the repositories
do not satisfy is satisfied by what one of them provides. -/
structure RealDeps (env : Env) (st : State) (base : PkgDict) : Prop where
  conf : ∀ v, st.xhp.vpkgdConf.get v = none
  real : ∀ reqpkg, IsDep env st base reqpkg → ∀ st', Onward env st st' →
    (st'.rpoolGetPkg env reqpkg).2 = none →
      (rpoolGetVirtualpkg env st'.xhp (st'.rpoolGetPkg env reqpkg).1.pool reqpkg).2 = none

section

variable {env : Env} {st₀ st : State} {base : PkgDict} {reqpkg : Str}

/-- **What pass 5 finds answers to the dependency.** -/
theorem depLookup_real (hopen : env.NoLoop) (hreal : RealDeps env st₀ base)
    (hon : Onward env st₀ st) (hdep : IsDep env st₀ base reqpkg)
    (hreq : request reqpkg ≠ .pkgname) (herrno : st.pool.errno ≠ some .eloop)
    (curpkgd : Option PkgDict) :
    RealFind reqpkg (depLookup env st curpkgd reqpkg).1.pool
      (depLookup env st curpkgd reqpkg).2 := by
  have hconf : ∀ v, st.xhp.vpkgdConf.get v = none := by
    rw [hon.vpkgdConf]
    exact hreal.conf
  rw [depLookup]
  split
  · split
    · exact RealFind.miss herrno
    · next repourl _ =>
      have herrno' := reggetRepo_errno hopen herrno repourl
      rw [State.repoGetPkg]
      split
      · next pool hr =>
        rw [hr] at herrno'
        exact RealFind.miss herrno'
      · next pool i hr =>
        rw [hr] at herrno'
        exact repoGetPkg_real hconf hreq herrno' i
  · have hget := rpoolGetPkg_real hopen hconf hreq herrno
    have hvirt := hreal.real reqpkg hdep st hon
    rw [State.rpoolGetAny]
    simp only [State.rpoolGetPkg] at hvirt ⊢
    split
    · next st' ref hr =>
      rw [Prod.mk.injEq] at hr
      rw [← hr.1, ← hr.2]
      exact hget
    · next st' hr =>
      rw [Prod.mk.injEq] at hr
      rw [← hr.1]
      simp only
      rw [hvirt hr.2]
      exact RealFind.miss (rpoolGetVirtualpkg_errno hopen hget.errno)

theorem State.failed_ne (herrno : st.pool.errno ≠ some .eloop) : st.failed ≠ some .eloop := by
  rw [State.failed]
  split
  · simp
  · exact herrno

theorem State.missed_errno {α : Type} (herrno : st.pool.errno ≠ some .eloop) (found : Option α) :
    (st.missed found).pool.errno ≠ some .eloop := by
  rw [State.missed]
  split
  · exact herrno
  · simp

theorem depPkgdb_errno (herrno : st.pool.errno ≠ some .eloop) (pkgname : Str) :
    (depPkgdb st pkgname).1.pool.errno ≠ some .eloop := by
  have hmissed := State.missed_errno herrno (Flappy.pkgdbGetPkg st.xhp pkgname)
  rw [depPkgdb]
  simp only [State.pkgdbGetPkg]
  generalize Flappy.pkgdbGetPkg st.xhp pkgname = found at hmissed ⊢
  cases found with
  | some p => exact hmissed
  | none => exact findVirtualErrno_ne hmissed _ _ pkgname

theorem depSatisfied_noLoop (curpkgd : PkgDict) (foundvpkg : Bool) (pkgname reqpkg : Str) :
    depSatisfied curpkgd foundvpkg pkgname reqpkg ≠ .fail (.err .eloop) := by
  rw [depSatisfied]
  split
  · simp
  · split
    · simp
    · split
      · split
        · simp
        · split
          · simp
          · split <;> simp
      · split <;> simp

/-- What is known when a dependency is looked for in the repositories: it has a name and nothing
queued answers to it. -/
theorem depInstalled_noLoop (st : State) (queued : List PkgDict) (pkgRepod : PkgDict)
    (reqpkg : Str) :
    (depInstalled st queued pkgRepod reqpkg).2 ≠ .fail (.err .eloop) ∧
      ∀ curpkgd ttype autoinst,
        (depInstalled st queued pkgRepod reqpkg).2 = .resolve curpkgd ttype autoinst →
          (depName reqpkg).isSome ∧ findAnyInArray st.xhp queued reqpkg = none ∧
            (depInstalled st queued pkgRepod reqpkg).1.pool.errno ≠ some .eloop := by
  have hstart : ({ st with pool.errno := some .enoent } : State).pool.errno ≠ some .eloop := by simp
  rw [depInstalled]
  split
  · simp
  · next pkgname hname =>
    split
    · simp
    · split
      · simp
      · split
        · simp
        · next hqueued =>
          rw [Option.not_isSome_iff_eq_none] at hqueued
          split
          · simp
          · have herrno := depPkgdb_errno hstart pkgname
            simp only
            split
            · next st' curpkgd foundvpkg hdb =>
              rw [hdb] at herrno
              exact ⟨depSatisfied_noLoop curpkgd foundvpkg pkgname reqpkg,
                fun _ _ _ _ => ⟨by rw [hname]; rfl, hqueued, herrno⟩⟩
            · next st' foundvpkg hdb =>
              rw [hdb] at herrno
              split
              · next e hfailed =>
                refine ⟨?_, fun _ _ _ h => by cases h⟩
                simp only [ne_eq, DepAction.fail.injEq, Rv.err.injEq]
                rintro rfl
                exact State.failed_ne herrno hfailed
              · exact ⟨fun h => (by cases h), fun _ _ _ _ => ⟨by rw [hname]; rfl, hqueued, herrno⟩⟩

/-- What a turn of the loop may come to. -/
def DepPass.Ok (env : Env) (st₀ : State) (queued : List PkgDict) (reqpkg : Str) : DepPass → Prop
  | .done st rv => Onward env st₀ st ∧ rv ≠ .err .eloop
  | .queue st ref d _ _ _ => Onward env st₀ st ∧ st.pool.get ref = some d ∧
      matchesRequest reqpkg false d = true ∧ ∀ q ∈ queued, q.pkgver ≠ d.pkgver

/-- A package that answers to the dependency is not queued. -/
theorem not_queued {xhp : Handle} {queued : List PkgDict} {d : PkgDict}
    (hqueued : findAnyInArray xhp queued reqpkg = none)
    (hd : matchesRequest reqpkg false d = true) : ∀ q ∈ queued, q.pkgver ≠ d.pkgver := by
  intro q hq hpkgver
  rw [findAnyInArray, Option.or_eq_none_iff] at hqueued
  have hnone : queued.find? (matchesRequest reqpkg false) = none := by
    have := hqueued.1
    rw [findPkgInArray, getPkgInArray] at this
    cases hf : queued.find? (matchesRequest reqpkg false) with
    | none => rfl
    | some e => simp [hf] at this
  exact List.find?_eq_none.mp hnone q hq ((matchesRequest_congr hpkgver).trans hd)

theorem State.missing_onward (env : Env) (st : State) (missingDeps : Option (List Str)) :
    Onward env st { st with missingDeps } :=
  ⟨⟨PoolExt.refl env st.pool, SameDb.refl st.xhp⟩, rfl⟩

theorem State.removeRunDepend_onward (env : Env) (st : State) (id : Nat) (dep : Str) :
    Onward env st (st.removeRunDepend id dep) := by
  refine ⟨st.removeRunDepend_later env id dep, ?_⟩
  rw [State.removeRunDepend.eq_def]
  split <;> rfl

theorem State.storePkgdb_onward (env : Env) (st : State) (pkgd : PkgDict) (ttype : TransType)
    (autoinst : Bool) : Onward env st (st.storePkgdb pkgd ttype autoinst).1 := by
  refine ⟨st.storePkgdb_later env pkgd ttype autoinst, ?_⟩
  rw [State.storePkgdb]
  simp only
  split
  · rfl
  · have hl := st.findPkg_looked env (pkgd.pkgname.getD []) .unknown
    simp only [hl.xhp]
    rfl

/-- **One turn of the loop.**  A package that is queued answers to the dependency, and no other
one with its pkgver is queued. -/
theorem depPasses_ok (hopen : env.NoLoop) (hreal : RealDeps env st₀ base) (hon : Onward env st₀ st)
    (hdep : IsDep env st₀ base reqpkg) (queued : List PkgDict) (pkgRepod : PkgDict)
    (rdeps : Option Nat) :
    (depPasses env st queued pkgRepod rdeps reqpkg).Ok env st₀ queued reqpkg := by
  obtain ⟨hlook, -⟩ := depInstalled_spec env st queued pkgRepod reqpkg
  obtain ⟨hfail, hresolve⟩ := depInstalled_noLoop st queued pkgRepod reqpkg
  rw [depPasses]
  cases hinst : depInstalled st queued pkgRepod reqpkg with
  | mk st₁ action =>
  rw [hinst] at hlook hfail hresolve
  have hon₁ := hon.trans hlook.onward
  cases action with
  | fail rv => exact ⟨hon₁, fun h => hfail (by rw [h])⟩
  | skip => exact ⟨hon₁, by simp⟩
  | missing => exact ⟨hon₁.trans (st₁.missing_onward env _), by simp⟩
  | configure curpkgd =>
    refine ⟨hon₁.trans (st₁.storePkgdb_onward env curpkgd _ _), ?_⟩
    rw [State.storePkgdb]
    simp only
    split <;> simp
  | resolve curpkgd ttype autoinst =>
    -- what is found answers to the dependency, and nothing queued does
    obtain ⟨hname, hqueued, herrno⟩ := hresolve _ _ _ rfl
    have hfound := depLookup_real hopen hreal hon₁ hdep (request_of_depName hname) herrno curpkgd
    obtain ⟨hlook₂, -⟩ := depLookup_spec env st₁ curpkgd reqpkg
    simp only
    cases hdl : depLookup env st₁ curpkgd reqpkg with
    | mk st₂ found =>
    rw [hdl] at hfound hlook₂
    have hon₂ := hon₁.trans hlook₂.onward
    cases found with
    | none =>
      simp only
      cases hfailed : st₂.failed with
      | none => exact ⟨hon₂.trans (st₂.missing_onward env _), by simp⟩
      | some e =>
        refine ⟨hon₂, ?_⟩
        simp only [ne_eq, Rv.err.injEq]
        rintro rfl
        exact State.failed_ne hfound.errno hfailed
    | some ref =>
      obtain ⟨d, hd, hmatch⟩ := hfound.answers ref rfl
      simp only at hd
      simp only [hd]
      cases pkgName d.pkgver with
      | none => exact ⟨hon₂, by simp⟩
      | some reqpkgname =>
        cases pkgName pkgRepod.pkgver with
        | none => exact ⟨hon₂, by simp⟩
        | some pkgname =>
          simp only
          split
          · cases rdeps with
            | none => exact ⟨hon₂, by simp⟩
            | some id => exact ⟨hon₂.trans (st₂.removeRunDepend_onward env id reqpkg), by simp⟩
          · cases hup : updateLookup st₂ d ttype reqpkgname reqpkg with
            | mk st₃ updating =>
            obtain ⟨hlook₃, hget⟩ := updateLookup_looked env hup
            have hon₃ := hon₂.trans hlook₃.onward
            cases updating with
            | some u => exact ⟨hon₃, by simp⟩
            | none => exact ⟨hon₃, (hget ref).trans hd, hmatch, not_queued hqueued hmatch⟩

end

/-! ### The chain -/

/-- A dependency of `p` asks for `q`. -/
def AsksFor (p q : PkgDict) : Prop :=
  ∃ reqpkg ∈ p.runDepends.getD [], matchesRequest reqpkg false q = true

/-- A call with a queue that is the chain of the packages being resolved, below the package
that was requested, and with the right depth. -/
structure DepCall.Chained (base : PkgDict) (c : DepCall) : Prop where
  chain : base :: c.queued = c.callers ++ [c.pkgRepod]
  depth : c.depth = c.callers.length
  nodup : (c.queued.map PkgDict.pkgver).Nodup
  linked : (base :: c.queued).IsChain AsksFor

/-- What holds however a call ends. -/
structure Descent.Left (env : Env) (st₀ : State) (base : PkgDict) (x : Descent) (rv : Rv) :
    Prop where
  onward : Onward env st₀ x.r.st
  calls : ∀ c ∈ x.calls, c.Chained base
  eloop : rv = .err .eloop → ∃ c ∈ x.calls, maxDepth ≤ c.depth

/-- In a call for `pkgRepod`. -/
structure Descent.Inside (env : Env) (st₀ : State) (base : PkgDict) (callers : List PkgDict)
    (pkgRepod : PkgDict) (x : Descent) : Prop where
  onward : Onward env st₀ x.r.st
  calls : ∀ c ∈ x.calls, c.Chained base
  here : (⟨callers, pkgRepod, x.r.queued, x.depth⟩ : DepCall).Chained base

/-- After a call for `pkgRepod`. -/
structure Descent.Returned (env : Env) (st₀ : State) (base : PkgDict) (callers : List PkgDict)
    (pkgRepod : PkgDict) (x : Descent) (rv : Rv) : Prop extends Descent.Left env st₀ base x rv where
  ok : rv = .ok → base :: x.r.queued = callers ++ [pkgRepod] ∧
    x.depth = unsignedShort (callers.length + (2 ^ 16 - 1))

theorem unsignedShort_succ {n : Nat} (h : n < maxDepth) : unsignedShort (n + 1) = n + 1 := by
  rw [unsignedShort]
  rw [maxDepth] at h
  omega

theorem unsignedShort_pred {n : Nat} (h : n < maxDepth) :
    unsignedShort (n + 1 + (2 ^ 16 - 1)) = n := by
  rw [unsignedShort]
  rw [maxDepth] at h
  omega

theorem State.store_rv (st : State) (ref : PkgRef) (d : PkgDict) (autoinst : Bool) :
    (st.store ref d autoinst).2 ≠ .err .eloop := by
  rw [State.store]
  split <;> simp

theorem depStore_onward (env : Env) (r : Resolver) (ref : PkgRef) (curpkgd : Option PkgDict)
    (ttype : TransType) (autoinst : Bool) :
    Onward env r.st (depStore r ref curpkgd ttype autoinst).1.st ∧
      (depStore r ref curpkgd ttype autoinst).1.queued = r.queued.dropLast ∧
      (depStore r ref curpkgd ttype autoinst).2 ≠ .err .eloop := by
  rw [depStore]
  cases hd : r.st.pool.get ref with
  | none => exact ⟨Onward.refl env r.st, rfl, by simp⟩
  | some d =>
    simp only
    split
    · exact ⟨Onward.refl env r.st, rfl, by simp⟩
    · refine ⟨⟨r.st.store_later ref _ fun d₀ h₀ => ?_, ?_⟩, rfl, r.st.store_rv _ _ _⟩
      · obtain rfl : d₀ = d := Option.some.inj (h₀.symm.trans hd)
        exact Evolves.of_core rfl (List.Subset.refl _)
      · rw [(r.st.store_spec ref _ autoinst).1]

section

variable {env : Env} {st₀ : State} {base : PkgDict} {callers : List PkgDict} {pkgRepod : PkgDict}
  {x : Descent}

/-- A package that answers to a dependency is queued, and its dependencies are resolved. -/
theorem Descent.Inside.enter (hin : x.Inside env st₀ base callers pkgRepod)
    (hdepth : callers.length < maxDepth) {reqpkg : Str}
    (hreq : reqpkg ∈ pkgRepod.runDepends.getD []) {st : State} (hon : Onward env st₀ st)
    {d : PkgDict} (hmatch : matchesRequest reqpkg false d = true)
    (hfresh : ∀ q ∈ x.r.queued, q.pkgver ≠ d.pkgver) :
    ({ x with r.st := st, r.queued := x.r.queued ++ [d],
              depth := unsignedShort (x.depth + 1) } : Descent).Inside
      env st₀ base (callers ++ [pkgRepod]) d := by
  obtain ⟨hchain, hdep, hnodup, hlinked⟩ := hin.here
  simp only at hchain hdep hnodup hlinked
  refine ⟨hon, hin.calls, ?_, ?_, ?_, ?_⟩
  · simp only
    rw [← hchain, List.cons_append]
  · simp only
    rw [hdep, unsignedShort_succ hdepth, List.length_append, List.length_singleton]
  · simp only
    rw [List.map_append, List.map_singleton, List.nodup_append]
    refine ⟨hnodup, List.nodup_singleton _, fun a ha b hb => ?_⟩
    obtain ⟨q, hq, rfl⟩ := List.mem_map.mp ha
    rw [List.mem_singleton.mp hb]
    exact hfresh q hq
  · simp only
    rw [← List.cons_append, List.isChain_append]
    refine ⟨hlinked, List.isChain_singleton d, fun p hp q hq => ?_⟩
    -- the last package of the chain is the one at work
    rw [hchain, List.getLast?_concat, Option.mem_some_iff] at hp
    rw [List.head?_cons, Option.mem_some_iff] at hq
    rw [← hp, ← hq]
    exact ⟨reqpkg, hreq, hmatch⟩

/-- The package is taken off the queue again. -/
theorem Descent.Inside.leave (hin : x.Inside env st₀ base callers pkgRepod)
    (hdepth : callers.length < maxDepth) {x' : Descent} {d : PkgDict} {rv : Rv}
    (hret : x'.Returned env st₀ base (callers ++ [pkgRepod]) d rv) (hrv : rv = .ok) :
    x'.r.queued = x.r.queued ++ [d] ∧ x'.depth = x.depth := by
  obtain ⟨hqueued, hdep⟩ := hret.ok hrv
  have hchain := hin.here.chain
  simp only at hchain
  rw [← hchain, List.cons_append, List.cons.injEq] at hqueued
  rw [List.length_append, List.length_singleton, unsignedShort_pred hdepth] at hdep
  exact ⟨hqueued.2, hdep.trans hin.here.depth.symm⟩

/-- The end of the loop body, for the package that was queued. -/
theorem Descent.Inside.store (hin : x.Inside env st₀ base callers pkgRepod) {x' : Descent}
    {d : PkgDict} (hon : Onward env st₀ x'.r.st) (hcalls : ∀ c ∈ x'.calls, c.Chained base)
    (hqueued : x'.r.queued = x.r.queued ++ [d]) (hdep : x'.depth = x.depth) (ref : PkgRef)
    (curpkgd : Option PkgDict) (ttype : TransType) (autoinst : Bool) :
    (x'.store d ref curpkgd ttype autoinst).1.Inside env st₀ base callers pkgRepod ∧
      (x'.store d ref curpkgd ttype autoinst).2.2 ≠ .err .eloop := by
  obtain ⟨honward, hdrop, hrv⟩ := depStore_onward env x'.r ref curpkgd ttype autoinst
  refine ⟨⟨hon.trans honward, hcalls, ?_⟩, hrv⟩
  have hdrop' : (x'.store d ref curpkgd ttype autoinst).1.r.queued = x.r.queued := by
    rw [Descent.store]
    simp only [hdrop, hqueued, List.dropLast_concat]
  have hdepth' : (x'.store d ref curpkgd ttype autoinst).1.depth = x.depth := hdep
  rw [hdrop', hdepth']
  exact hin.here

/-- What is known of the recursive call: it ends, as the one without a counter does. -/
def DescendOk (env : Env) (st₀ : State) (base : PkgDict) (callers : List PkgDict)
    (call : Descent → PkgDict → Option (Descent × Rv))
    (call' : Resolver → PkgDict → Resolver × Rv) : Prop :=
  ∀ x pkgRepod, x.Inside env st₀ base callers pkgRepod →
    (∀ dep ∈ pkgRepod.runDepends.getD [], IsDep env st₀ base dep) →
      ∃ x' rv, call x pkgRepod = some (x', rv) ∧ call' x.r pkgRepod = (x'.r, rv) ∧
        x'.Returned env st₀ base callers pkgRepod rv

variable {call : Descent → PkgDict → Option (Descent × Rv)}
  {call' : Resolver → PkgDict → Resolver × Rv}

/-- **The loop body** ends, and stays in the call unless it ends the loop. -/
theorem descendStep_spec (hopen : env.NoLoop) (hreal : RealDeps env st₀ base)
    (hcall : DescendOk env st₀ base (callers ++ [pkgRepod]) call call')
    (hdepth : callers.length < maxDepth) (hin : x.Inside env st₀ base callers pkgRepod)
    {reqpkg : Str} (hreq : reqpkg ∈ pkgRepod.runDepends.getD [])
    (hdep : IsDep env st₀ base reqpkg) (rdeps : Option Nat) :
    ∃ x' rdeps' rv, descendStep env call x pkgRepod rdeps reqpkg = some (x', rdeps', rv) ∧
      depStep env call' x.r pkgRepod rdeps reqpkg = (x'.r, rdeps', rv) ∧
        x'.Left env st₀ base rv ∧ (rv = .ok → x'.Inside env st₀ base callers pkgRepod) := by
  have hok := depPasses_ok hopen hreal hin.onward hdep x.r.queued pkgRepod rdeps
  rw [descendStep, depStep_eq]
  cases hpasses : depPasses env x.r.st x.r.queued pkgRepod rdeps reqpkg with
  | done st rv =>
    rw [hpasses] at hok
    obtain ⟨hon, hrv⟩ := hok
    exact ⟨_, _, _, rfl, rfl, ⟨hon, hin.calls, fun h => absurd h hrv⟩,
      fun _ => ⟨hon, hin.calls, hin.here⟩⟩
  | queue st ref d curpkgd ttype autoinst =>
    rw [hpasses] at hok
    obtain ⟨hon, hd, hmatch, hfresh⟩ := hok
    -- the package is stored once its dependencies are resolved
    have hstored : ∀ {x' : Descent}, Onward env st₀ x'.r.st → (∀ c ∈ x'.calls, c.Chained base) →
        x'.r.queued = x.r.queued ++ [d] → x'.depth = x.depth →
          ∃ x'' rdeps' rv, some (x'.store d ref curpkgd ttype autoinst) =
              some (x'', rdeps', rv) ∧
            ((depStore x'.r ref curpkgd ttype autoinst).1, d.rdeps,
              (depStore x'.r ref curpkgd ttype autoinst).2) = (x''.r, rdeps', rv) ∧
              x''.Left env st₀ base rv ∧ (rv = .ok → x''.Inside env st₀ base callers pkgRepod) := by
      intro x' hon' hcalls hqueued hdep'
      obtain ⟨hin', hrv⟩ := hin.store hon' hcalls hqueued hdep' ref curpkgd ttype autoinst
      exact ⟨_, _, _, rfl, rfl, ⟨hin'.onward, hin'.calls, fun h => absurd h hrv⟩, fun _ => hin'⟩
    simp only [depBelow]
    by_cases hnil : d.runDepends.getD [] = []
    · rw [if_pos hnil, if_pos hnil]
      exact hstored hon hin.calls rfl rfl
    · rw [if_neg hnil, if_neg hnil]
      have hdeps : ∀ dep ∈ d.runDepends.getD [], IsDep env st₀ base dep :=
        fun dep hdep => Or.inr ⟨st, ref, d, hon, hd, hdep⟩
      obtain ⟨x', rv, hx', hcall', hret⟩ :=
        hcall _ d (hin.enter hdepth hreq hon hmatch hfresh) hdeps
      simp only at hcall'
      rw [hx', hcall']
      cases rv with
      | ok =>
        obtain ⟨hqueued, hdep'⟩ := hin.leave hdepth hret rfl
        exact hstored hret.onward hret.calls hqueued hdep'
      | err e => exact ⟨x', d.rdeps, _, rfl, rfl, hret.toLeft, fun h => by cases h⟩
      | abort => exact ⟨x', d.rdeps, _, rfl, rfl, hret.toLeft, fun h => by cases h⟩

/-- **The loop** ends. -/
theorem descendLoop_spec (hopen : env.NoLoop) (hreal : RealDeps env st₀ base)
    (hcall : DescendOk env st₀ base (callers ++ [pkgRepod]) call call')
    (hdepth : callers.length < maxDepth)
    (hdeps : ∀ dep ∈ pkgRepod.runDepends.getD [], IsDep env st₀ base dep) (edits : Nat) :
    ∀ (deps : List Str) (rdeps : Option Nat) (x : Descent),
      deps ⊆ pkgRepod.runDepends.getD [] → x.Inside env st₀ base callers pkgRepod →
        ∃ x' rv, descendLoop env call pkgRepod edits deps rdeps x = some (x', rv) ∧
          depLoop env call' callers.length pkgRepod edits deps rdeps x.r = (x'.r, rv) ∧
            x'.Left env st₀ base rv ∧ (rv = .ok → x'.Inside env st₀ base callers pkgRepod) := by
  have hend : ∀ {x : Descent}, x.Inside env st₀ base callers pkgRepod →
      x.Left env st₀ base .ok ∧ (Rv.ok = .ok → x.Inside env st₀ base callers pkgRepod) :=
    fun hin => ⟨⟨hin.onward, hin.calls, fun h => by cases h⟩, fun _ => hin⟩
  intro deps
  induction deps with
  | nil => exact fun _ x _ hin => ⟨x, .ok, rfl, rfl, hend hin⟩
  | cons reqpkg deps ih =>
    intro rdeps x hsub hin
    rw [descendLoop, depLoop]
    by_cases hedits : x.r.st.edits.count pkgRepod.runDependsId = edits
    · rw [if_neg (not_not.mpr hedits), if_neg (not_not.mpr hedits)]
      have hreq := hsub List.mem_cons_self
      have hlook : ({ x with
          r.looks := x.r.looks ++ [⟨x.r.st, x.r.queued, x.depth, pkgRepod, reqpkg⟩] } :
          Descent).Inside env st₀ base callers pkgRepod := ⟨hin.onward, hin.calls, hin.here⟩
      obtain ⟨x', rdeps', rv, hx', hstep, hleft, hin'⟩ :=
        descendStep_spec hopen hreal hcall hdepth hlook hreq (hdeps reqpkg hreq) rdeps
      have hdep : x.depth = callers.length := hin.here.depth
      simp only [hdep] at hx' hstep ⊢
      rw [hx', hstep]
      cases rv with
      | ok =>
        exact ih rdeps' x' (fun dep h => hsub (List.mem_cons_of_mem _ h)) (hin' rfl)
      | err e => exact ⟨x', _, rfl, rfl, hleft, fun h => by cases h⟩
      | abort => exact ⟨x', _, rfl, rfl, hleft, fun h => by cases h⟩
    · rw [if_pos hedits, if_pos hedits]
      exact ⟨x, .ok, rfl, rfl, hend hin⟩

end

/-- **A call of `repo_deps`** ends, whatever the dependencies are, as the one without a
counter does. -/
theorem descend_spec {env : Env} {st₀ : State} {base : PkgDict} (hopen : env.NoLoop)
    (hreal : RealDeps env st₀ base) :
    ∀ (n : Nat) (callers : List PkgDict), callers.length + n = maxDepth →
      DescendOk env st₀ base callers (descend env (n + 1) callers) (repoDeps env n) := by
  intro n
  induction n with
  | zero =>
    intro callers hlen x pkgRepod hin _
    have hdep : x.depth = callers.length := hin.here.depth
    rw [descend]
    simp only
    rw [if_pos (by omega)]
    refine ⟨_, _, rfl, rfl, ⟨hin.onward, ?_, fun _ => ?_⟩, fun h => by cases h⟩
    · exact List.forall_mem_append.mpr ⟨hin.calls, List.forall_mem_singleton.mpr hin.here⟩
    · exact ⟨_, List.mem_append_right _ List.mem_cons_self, by simp only; omega⟩
  | succ n ih =>
    intro callers hlen x pkgRepod hin hdeps
    have hdep : x.depth = callers.length := hin.here.depth
    have hcall := ih (callers ++ [pkgRepod])
      (by rw [List.length_append, List.length_singleton]; omega)
    have hentered : ({ x with
        calls := x.calls ++ [⟨callers, pkgRepod, x.r.queued, x.depth⟩] } : Descent).Inside
        env st₀ base callers pkgRepod :=
      ⟨hin.onward, List.forall_mem_append.mpr
        ⟨hin.calls, List.forall_mem_singleton.mpr hin.here⟩, hin.here⟩
    obtain ⟨x', rv, hx', hloop, hleft, hin'⟩ := descendLoop_spec hopen hreal hcall (by omega) hdeps
      (x.r.st.edits.count pkgRepod.runDependsId) _ pkgRepod.rdeps _ (List.Subset.refl _) hentered
    rw [descend, repoDeps]
    simp only
    rw [if_neg (by omega), hx']
    refine ⟨_, rv, rfl, ?_, ⟨hleft.onward, hleft.calls, hleft.eloop⟩, fun hrv => ?_⟩
    · rw [← hloop]
      congr 1
      omega
    · exact ⟨(hin' hrv).here.chain, by rw [← (hin' hrv).here.depth]⟩

/-! ### Errors -/

/-- A package is found to depend on itself, and what was resolved last for it has no
`run_depends`: there is no array to drop the dependency from. -/
def DepTurn.NullDeps (env : Env) (t : DepTurn) : Prop :=
  (t.itself env).isSome ∧ (t.last.getD t.pkgRepod).runDepends = none

instance (env : Env) (t : DepTurn) : Decidable (t.NullDeps env) :=
  inferInstanceAs (Decidable (_ ∧ _))

/-- The reasons for which a dependency cannot be resolved.  What is queued does not matter for
any of them. -/
inductive DepTurn.Fails (env : Env) (t : DepTurn) : Errno → Prop where
  | noName : depName t.reqpkg = none → t.Fails env .enxio
  | noState {pkgname : Str} {st : State} {p : PkgDict} {foundvpkg : Bool} :
      depName t.reqpkg = some pkgname →
      depPkgdb { t.r.st with pool.errno := some .enoent } pkgname = (st, some p, foundvpkg) →
      p.state = none → t.Fails env .einval
  | pkgdb {pkgname : Str} {st : State} {foundvpkg : Bool} {e : Errno} :
      depName t.reqpkg = some pkgname →
      depPkgdb { t.r.st with pool.errno := some .enoent } pkgname = (st, none, foundvpkg) →
      st.failed = some e → t.Fails env e
  /-- The installed package that satisfies the dependency is neither unpacked nor installed. -/
  | halfThere {pkgname : Str} {st : State} {p : PkgDict} {foundvpkg : Bool} {state : PkgState} :
      depName t.reqpkg = some pkgname →
      depPkgdb { t.r.st with pool.errno := some .enoent } pkgname = (st, some p, foundvpkg) →
      p.state = some state → state ≠ .unpacked → state ≠ .installed → t.Fails env .einval
  | pool {st st' : State} {curpkgd : Option PkgDict} {ttype : TransType} {autoinst : Bool}
      {e : Errno} :
      depInstalled t.r.st t.r.queued t.pkgRepod t.reqpkg =
        (st, .resolve curpkgd ttype autoinst) →
      depLookup env st curpkgd t.reqpkg = (st', none) → st'.failed = some e → t.Fails env e
  | noPkgname {st : State} {d : PkgDict} {ttype : TransType} :
      t.found env = some (st, d, ttype) →
      pkgName d.pkgver = none ∨ pkgName t.pkgRepod.pkgver = none → t.Fails env .einval
  | updating {st st' : State} {d u : PkgDict} {ttype : TransType} {reqpkgname : Str} :
      t.found env = some (st, d, ttype) → pkgName d.pkgver = some reqpkgname →
      updateLookup st d ttype reqpkgname t.reqpkg = (st', some u) → t.Fails env .enodev
  /-- `flappy_transaction_store` refuses a dictionary without a name. -/
  | unnamed {d : PkgDict} :
      (∃ st, depInstalled t.r.st t.r.queued t.pkgRepod t.reqpkg = (st, .configure d)) ∨
        (∃ st ttype, t.found env = some (st, d, ttype)) →
      d.pkgname = none → t.Fails env .einval

/-- How calls and loops with these turns end. -/
structure Ends (env : Env) (rv : Rv) (turns : List DepTurn) : Prop where
  abort : rv = .abort ↔ ∃ t ∈ turns, t.NullDeps env
  err : ∀ e, rv = .err e → e = .eloop ∨ ∃ t ∈ turns, t.Fails env e

theorem Ends.nil (env : Env) : Ends env .ok [] where
  abort := by simp
  err e he := by cases he

theorem Ends.append {env : Env} {rv : Rv} {a b : List DepTurn} (h : Ends env .ok a)
    (h' : Ends env rv b) : Ends env rv (a ++ b) := by
  refine ⟨h'.abort.trans ⟨?_, ?_⟩, fun e he => ?_⟩
  · rintro ⟨t, ht, hnull⟩
    exact ⟨t, List.mem_append_right _ ht, hnull⟩
  · rintro ⟨t, ht, hnull⟩
    rcases List.mem_append.mp ht with ht | ht
    · cases h.abort.mpr ⟨t, ht, hnull⟩
    · exact ⟨t, ht, hnull⟩
  · refine (h'.err e he).imp_right ?_
    rintro ⟨t, ht, hfails⟩
    exact ⟨t, List.mem_append_right _ ht, hfails⟩

theorem depSatisfied_fail {curpkgd : PkgDict} {foundvpkg : Bool} {pkgname reqpkg : Str} {rv : Rv}
    (h : depSatisfied curpkgd foundvpkg pkgname reqpkg = .fail rv) :
    (curpkgd.state = none ∧ rv = .err .einval) ∨ pkgName curpkgd.pkgver = none := by
  rw [depSatisfied] at h
  cases hs : curpkgd.state with
  | none =>
    rw [hs] at h
    exact Or.inl ⟨rfl, (DepAction.fail.inj h).symm⟩
  | some state =>
    simp only [hs] at h
    split at h
    · cases h
    · split at h
      · split at h
        · next hn => exact Or.inr hn
        · split at h
          · cases h
          · split at h <;> cases h
      · split at h <;> cases h

theorem depSatisfied_unknown {curpkgd : PkgDict} {foundvpkg : Bool} {pkgname reqpkg : Str}
    {found : Option PkgDict} {autoinst : Bool}
    (h : depSatisfied curpkgd foundvpkg pkgname reqpkg = .resolve found .unknown autoinst) :
    ∃ state, curpkgd.state = some state ∧ state ≠ .unpacked ∧ state ≠ .installed := by
  rw [depSatisfied] at h
  cases hs : curpkgd.state with
  | none =>
    rw [hs] at h
    cases h
  | some state =>
    simp only [hs] at h
    split at h
    · cases h
    · split at h
      · split at h
        · cases h
        · split at h
          · cases h
          · split at h <;> cases h
      · split at h
        · cases h
        · cases h
        · next hu hi => exact ⟨state, rfl, hu, hi⟩

/-- How the passes before the repositories end: by the text of the dependency, by what is queued
or in the transaction, or by what is installed. -/
theorem depInstalled_ways (st : State) (queued : List PkgDict) (pkgRepod : PkgDict)
    (reqpkg : Str) :
    (depName reqpkg = none ∧ depInstalled st queued pkgRepod reqpkg = (st, .fail (.err .enxio))) ∨
      depInstalled st queued pkgRepod reqpkg = (st, .skip) ∨
      ∃ pkgname st₁ foundvpkg, depName reqpkg = some pkgname ∧
        ((∃ p, depPkgdb { st with pool.errno := some .enoent } pkgname = (st₁, some p, foundvpkg) ∧
            depInstalled st queued pkgRepod reqpkg =
              (st₁, depSatisfied p foundvpkg pkgname reqpkg)) ∨
          (depPkgdb { st with pool.errno := some .enoent } pkgname = (st₁, none, foundvpkg) ∧
            depInstalled st queued pkgRepod reqpkg = (st₁, match st₁.failed with
              | some e => .fail (.err e)
              | none => .resolve none .install true))) := by
  rw [depInstalled]
  cases hn : depName reqpkg with
  | none => exact Or.inl ⟨rfl, rfl⟩
  | some pkgname =>
    right
    simp only
    split
    · exact Or.inl rfl
    split
    · exact Or.inl rfl
    split
    · exact Or.inl rfl
    split
    · exact Or.inl rfl
    right
    cases hp : depPkgdb { st with pool.errno := some .enoent } pkgname with
    | mk st₁ found =>
      obtain ⟨p, foundvpkg⟩ := found
      refine ⟨pkgname, st₁, foundvpkg, rfl, ?_⟩
      cases p with
      | some p => exact Or.inl ⟨p, hp, rfl⟩
      | none =>
        refine Or.inr ⟨hp, ?_⟩
        simp only
        cases st₁.failed <;> rfl

/-- A turn for a package that does not depend on itself, after the calls below it. -/
theorem Ends.cons {env : Env} {rv : Rv} {t : DepTurn} {turns : List DepTurn}
    (hitself : t.itself env = none) (h : Ends env rv turns) : Ends env rv (t :: turns) := by
  refine ⟨h.abort.trans ⟨?_, ?_⟩, fun e he => ?_⟩
  · rintro ⟨t₁, ht₁, hnull⟩
    exact ⟨t₁, List.mem_cons_of_mem _ ht₁, hnull⟩
  · rintro ⟨t₁, ht₁, hnull⟩
    rcases List.mem_cons.mp ht₁ with rfl | ht₁
    · rw [DepTurn.NullDeps, hitself] at hnull
      cases hnull.1
    · exact ⟨t₁, ht₁, hnull⟩
  · refine (h.err e he).imp_right ?_
    rintro ⟨t₁, ht₁, hfails⟩
    exact ⟨t₁, List.mem_cons_of_mem _ ht₁, hfails⟩

/-- Such a turn may fail itself once the calls below it have returned 0. -/
theorem Ends.cons_ok {env : Env} {rv : Rv} {t : DepTurn} {turns : List DepTurn}
    (hitself : t.itself env = none) (h : Ends env .ok turns)
    (hrv : rv = .ok ∨ ∃ e, rv = .err e ∧ t.Fails env e) : Ends env rv (t :: turns) := by
  rcases hrv with rfl | ⟨e, rfl, hfails⟩
  · exact h.cons hitself
  · refine ⟨⟨fun habort => ?_, fun hnull => ?_⟩, fun e' he => ?_⟩
    · cases habort
    · cases (h.cons hitself).abort.mpr hnull
    · obtain rfl := Rv.err.inj he
      exact Or.inr ⟨t, List.mem_cons_self, hfails⟩

section

variable {env : Env} {t : DepTurn}

/-- A turn that is over before the repositories are asked. -/
theorem DepTurn.fails_of_installed
    (hdb : ∀ p ∈ t.r.st.xhp.pkgdb.values, (pkgName p.pkgver).isSome) {st : State} {rv : Rv}
    (h : depInstalled t.r.st t.r.queued t.pkgRepod t.reqpkg = (st, .fail rv)) :
    ∃ e, rv = .err e ∧ t.Fails env e := by
  rcases depInstalled_ways t.r.st t.r.queued t.pkgRepod t.reqpkg with
    ⟨hn, heq⟩ | heq | ⟨pkgname, st₁, foundvpkg, hn, ⟨p, hp, heq⟩ | ⟨hp, heq⟩⟩
  · rw [h, Prod.mk.injEq, DepAction.fail.injEq] at heq
    exact ⟨_, heq.2, .noName hn⟩
  · rw [h] at heq
    cases heq
  · rw [h, Prod.mk.injEq] at heq
    rcases depSatisfied_fail heq.2.symm with ⟨hs, rfl⟩ | hnone
    · exact ⟨_, rfl, .noState hn hp hs⟩
    · -- the packages of the database have names
      have hin := (depPkgdb_spec env { t.r.st with pool.errno := some .enoent } pkgname).2
      rw [hp] at hin
      have hname := hdb p (hin p rfl)
      rw [hnone] at hname
      cases hname
  · rw [h, Prod.mk.injEq] at heq
    obtain ⟨-, heq⟩ := heq
    cases hfailed : st₁.failed with
    | none =>
      rw [hfailed] at heq
      cases heq
    | some e =>
      rw [hfailed, DepAction.fail.injEq] at heq
      exact ⟨e, heq, .pkgdb hn hp hfailed⟩

/-- The type is unknown for an installed package that is neither unpacked nor installed. -/
theorem DepTurn.halfThere_of_unknown {st : State} {found : Option PkgDict} {autoinst : Bool}
    (h : depInstalled t.r.st t.r.queued t.pkgRepod t.reqpkg =
      (st, .resolve found .unknown autoinst)) : t.Fails env .einval := by
  rcases depInstalled_ways t.r.st t.r.queued t.pkgRepod t.reqpkg with
    ⟨-, heq⟩ | heq | ⟨pkgname, st₁, foundvpkg, hn, ⟨p, hp, heq⟩ | ⟨-, heq⟩⟩
  · rw [h] at heq
    cases heq
  · rw [h] at heq
    cases heq
  · rw [h, Prod.mk.injEq] at heq
    obtain ⟨state, hs, hu, hi⟩ := depSatisfied_unknown heq.2.symm
    exact .halfThere hn hp hs hu hi
  · rw [h, Prod.mk.injEq] at heq
    obtain ⟨-, heq⟩ := heq
    cases hfailed : st₁.failed with
    | none =>
      rw [hfailed] at heq
      cases heq
    | some e =>
      rw [hfailed] at heq
      cases heq

theorem transactionStore_fails {pkgs : List PkgDict} {pkgrd : PkgDict} {autoinst : Bool}
    (h : transactionStore pkgs pkgrd autoinst = none) : pkgrd.pkgname = none := by
  rw [transactionStore] at h
  cases hn : pkgrd.pkgname with
  | none => rfl
  | some pkgname =>
    simp only [hn] at h
    split at h
    · cases h
    · split at h <;> cases h

/-- Putting an installed package into the transaction fails for want of a name. -/
theorem storePkgdb_fails (st : State) (pkgd : PkgDict) (ttype : TransType) (autoinst : Bool) :
    (st.storePkgdb pkgd ttype autoinst).2 = .ok ∨
      (st.storePkgdb pkgd ttype autoinst).2 = .err .einval ∧ pkgd.pkgname = none := by
  rw [State.storePkgdb]
  simp only
  split
  · next h =>
    have hn := transactionStore_fails h
    exact Or.inr ⟨rfl, hn⟩
  · exact Or.inl rfl

/-- Storing what was found fails for want of a type or of a name. -/
theorem depStore_fails {r : Resolver} {ref : PkgRef} {curpkgd : Option PkgDict}
    {ttype : TransType} {autoinst : Bool} {d : PkgDict} (hd : r.st.pool.get ref = some d) :
    (depStore r ref curpkgd ttype autoinst).2 = .ok ∨
      (depStore r ref curpkgd ttype autoinst).2 = .err .einval ∧
        (ttype = .unknown ∨ d.pkgname = none) := by
  rw [depStore]
  simp only [hd]
  split
  · next h =>
    refine Or.inr ⟨rfl, Or.inl ?_⟩
    rw [depType] at h
    split at h
    · cases h
    · split at h
      · cases h
      · exact h
  · rw [State.store]
    split
    · next h =>
      have hn := transactionStore_fails h
      exact Or.inr ⟨rfl, Or.inr hn⟩
    · exact Or.inl rfl

/-- A turn at whose end what was found is stored. -/
theorem DepTurn.stored_fails {r : Resolver} {st st' : State} {ref : PkgRef} {d : PkgDict}
    {curpkgd : Option PkgDict} {ttype : TransType} {autoinst : Bool} {reqpkgname : Str}
    (hinst : depInstalled t.r.st t.r.queued t.pkgRepod t.reqpkg =
      (st, .resolve curpkgd ttype autoinst)) (hfound : t.found env = some (st', d, ttype))
    (hd : st'.pool.get ref = some d) (hname : pkgName d.pkgver = some reqpkgname)
    (hlater : Later env st' r.st) :
    (depStore r ref curpkgd ttype autoinst).2 = .ok ∨
      ∃ e, (depStore r ref curpkgd ttype autoinst).2 = .err e ∧ t.Fails env e := by
  obtain ⟨d', hd', hevolves⟩ := hlater.pool.kept ref d hd
  have hfails : (depStore r ref curpkgd ttype autoinst).2 = .ok ∨
      (depStore r ref curpkgd ttype autoinst).2 = .err .einval ∧
        (ttype = .unknown ∨ d'.pkgname = none) := depStore_fails hd'
  refine hfails.imp_right ?_
  rintro ⟨hrv, rfl | hn⟩
  · exact ⟨_, hrv, halfThere_of_unknown hinst⟩
  · refine ⟨_, hrv, .unnamed (Or.inr ⟨st', ttype, hfound⟩) ?_⟩
    rcases hevolves.pkgname with heq | heq
    · exact heq ▸ hn
    · rw [hn, hname] at heq
      cases heq

end

section

variable {env : Env} {call : Resolver → PkgDict → Resolver × Rv}
  {turns : Resolver → PkgDict → List Nat → List DepTurn}

/-- The packages of the database have names, as `pkgdb_map_names` sees to. -/
def NamedDb (xhp : Handle) : Prop := ∀ p ∈ xhp.pkgdb.values, (pkgName p.pkgver).isSome

theorem SameDb.namedDb {a b : Handle} (h : SameDb a b) (ha : NamedDb a) : NamedDb b := by
  intro p hp
  obtain ⟨k, hk⟩ := Dict.mem_values_iff.mp hp
  obtain ⟨p', hp', hc⟩ := h.get_some hk
  rw [← (PkgDict.of_core_eq hc).1]
  exact ha p' (Dict.mem_values_of_get hp')

/-- The calls for a package that was queued. -/
theorem DepTurn.ends_below
    (hcall : ∀ r d pending, NamedDb r.st.xhp → Ends env (call r d).2 (turns r d pending))
    (hleads : ∀ r d, Later env r.st (call r d).1.st) {t : DepTurn} {st : State} {d : PkgDict}
    {r : Resolver} {rv : Rv} (hdb : NamedDb st.xhp) (hqueues : t.queues env = some (st, d))
    (hbelow : depBelow call { t.r with st, queued := t.r.queued ++ [d] } d = (r, rv)) :
    Later env st r.st ∧ Ends env rv (t.below env turns) := by
  have hcalls : t.call env = if d.runDepends.getD [] = [] then none
      else some ({ t.r with st, queued := t.r.queued ++ [d] }, d) := by
    rw [DepTurn.call, hqueues]
  rw [depBelow] at hbelow
  rw [DepTurn.below, hcalls]
  split at hbelow
  · next hnil =>
    cases hbelow
    rw [if_pos hnil]
    exact ⟨Later.refl env st, .nil env⟩
  · next hnil =>
    rw [if_neg hnil]
    have hlater := hleads { t.r with st, queued := t.r.queued ++ [d] } d
    have hends := hcall { t.r with st, queued := t.r.queued ++ [d] } d
      (if t.rest = [] then t.pending else t.pkgRepod.runDependsId :: t.pending) hdb
    rw [hbelow] at hlater hends
    exact ⟨hlater, hends⟩

/-- A turn without a call. -/
theorem DepTurn.ends_alone {t : DepTurn} {rv : Rv} (hitself : t.itself env = none)
    (hqueues : t.queues env = none) (hrv : rv = .ok ∨ ∃ e, rv = .err e ∧ t.Fails env e) :
    Ends env rv (t :: t.below env turns) := by
  rw [DepTurn.below, call_of_queues hqueues]
  exact (Ends.nil env).cons_ok hitself hrv

/-- A turn for a package that depends on itself. -/
theorem DepTurn.ends_itself {t : DepTurn} (hlast : t.OfLast) {st : State} {rv : Rv}
    (hitself : t.itself env = some st) (hqueues : t.queues env = none)
    (hrv : rv = .ok ∨ rv = .abort) (hrdeps : rv = .abort ↔ t.rdeps = none) :
    Ends env rv (t :: t.below env turns) := by
  rw [DepTurn.below, call_of_queues hqueues]
  have hnull : t.NullDeps env ↔ rv = .abort := by
    rw [hrdeps, hlast, PkgDict.rdeps, Option.map_eq_none_iff, NullDeps, hitself]
    exact ⟨fun h => h.2, fun h => ⟨rfl, h⟩⟩
  refine ⟨⟨fun h => ⟨t, List.mem_cons_self, hnull.mpr h⟩, ?_⟩, fun e he => ?_⟩
  · rintro ⟨t₁, ht₁, h⟩
    obtain rfl := List.mem_singleton.mp ht₁
    exact hnull.mp h
  · subst he
    rcases hrv with h | h <;> cases h

/-- The turn for a package that is looked for in the repositories. -/
theorem DepTurn.ends_resolve
    (hcall : ∀ r d pending, NamedDb r.st.xhp → Ends env (call r d).2 (turns r d pending))
    (hleads : ∀ r d, Later env r.st (call r d).1.st) {t : DepTurn} (hlast : t.OfLast)
    (hdb : NamedDb t.r.st.xhp) {st : State} {curpkgd : Option PkgDict} {ttype : TransType}
    {autoinst : Bool} (hinst : depInstalled t.r.st t.r.queued t.pkgRepod t.reqpkg =
      (st, .resolve curpkgd ttype autoinst)) (hxhp : st.xhp = t.r.st.xhp) :
    Ends env
      (depResolve env call { t.r with st } t.pkgRepod t.rdeps t.reqpkg curpkgd ttype autoinst).2.2
      (t :: t.below env turns) := by
  obtain ⟨hlook, hvalid⟩ := depLookup_spec env st curpkgd t.reqpkg
  have hres := depResolve_cases env call { t.r with st } t.pkgRepod t.rdeps t.reqpkg curpkgd ttype
    autoinst
  generalize depResolve env call { t.r with st } t.pkgRepod t.rdeps t.reqpkg curpkgd ttype
    autoinst = res at hres ⊢
  cases hres with
  | failed h hfailed =>
    obtain ⟨hitself, hqueues⟩ := queues_of_none (found_of_lookup hinst h)
    exact ends_alone hitself hqueues (Or.inr ⟨_, rfl, .pool hinst h hfailed⟩)
  | missing h =>
    obtain ⟨hitself, hqueues⟩ := queues_of_none (found_of_lookup hinst h)
    exact ends_alone hitself hqueues (Or.inl rfl)
  | unnamed h hnone =>
    rw [h] at hvalid
    -- the reference is valid, so it is the name that is missing
    obtain ⟨d, hd⟩ := Option.isSome_iff_exists.mp (hvalid _ rfl)
    have hfound := found_of_get hinst h hd
    obtain ⟨hitself, hqueues⟩ := queues_of_unnamed hfound (hnone d hd)
    exact ends_alone hitself hqueues (Or.inr ⟨_, rfl, .noPkgname hfound (hnone d hd)⟩)
  | nullDeps h hd hn hn' hrdeps =>
    obtain ⟨hitself, hqueues⟩ := queues_of_itself (found_of_get hinst h hd) hn hn'
    exact ends_itself hlast hitself hqueues (Or.inr rfl) ⟨fun _ => hrdeps, fun _ => rfl⟩
  | itself h hd hn hn' hrdeps =>
    obtain ⟨hitself, hqueues⟩ := queues_of_itself (found_of_get hinst h hd) hn hn'
    refine ends_itself hlast hitself hqueues (Or.inl rfl) ⟨fun h => ?_, fun h => ?_⟩
    · cases h
    · rw [hrdeps] at h
      cases h
  | updating h hd hn hn' hself hu =>
    have hfound := found_of_get hinst h hd
    obtain ⟨hitself, hqueues⟩ := queues_of_found hfound hn hn' hself hu
    exact ends_alone hitself hqueues (Or.inr ⟨_, rfl, .updating hfound hn hu⟩)
  | stored h hd hn hn' hself hu hb =>
    rw [h] at hlook
    have hfound := found_of_get hinst h hd
    obtain ⟨hitself, hqueues⟩ := queues_of_found hfound hn hn' hself hu
    have hup := (updateLookup_looked env hu).1
    obtain ⟨hlater, hends⟩ := ends_below hcall hleads
      (by rw [hup.xhp, hlook.xhp, hxhp]; exact hdb) hqueues hb
    -- the call below returned: only the store can fail now
    exact hends.cons_ok hitself (stored_fails hinst hfound hd hn (hup.later.trans hlater))
  | below h hd hn hn' hself hu hb _ =>
    rw [h] at hlook
    obtain ⟨hitself, hqueues⟩ := queues_of_found (found_of_get hinst h hd) hn hn' hself hu
    have hup := (updateLookup_looked env hu).1
    obtain ⟨-, hends⟩ := ends_below hcall hleads
      (by rw [hup.xhp, hlook.xhp, hxhp]; exact hdb) hqueues hb
    exact hends.cons hitself

theorem DepTurn.ends
    (hcall : ∀ r d pending, NamedDb r.st.xhp → Ends env (call r d).2 (turns r d pending))
    (hleads : ∀ r d, Later env r.st (call r d).1.st) {t : DepTurn} (hlast : t.OfLast)
    (hdb : NamedDb t.r.st.xhp) :
    Ends env (depStep env call t.r t.pkgRepod t.rdeps t.reqpkg).2.2
      (t :: t.below env turns) := by
  obtain ⟨hi, hin⟩ := depInstalled_spec env t.r.st t.r.queued t.pkgRepod t.reqpkg
  have hf := DepTurn.found.eq_1 env t
  rw [depStep]
  cases hinst : depInstalled t.r.st t.r.queued t.pkgRepod t.reqpkg with
  | mk st action =>
  rw [hinst] at hi hin hf
  cases action with
  | fail rv =>
    exact ends_alone (queues_of_none hf).1 (queues_of_none hf).2
      (Or.inr (fails_of_installed hdb hinst))
  | skip | missing =>
    exact ends_alone (queues_of_none hf).1 (queues_of_none hf).2 (Or.inl rfl)
  | configure curpkgd =>
    refine ends_alone (queues_of_none hf).1 (queues_of_none hf).2 ?_
    exact (storePkgdb_fails st curpkgd _ _).imp_right fun h =>
      ⟨_, h.1, .unnamed (Or.inl ⟨st, hinst⟩) h.2⟩
  | resolve curpkgd ttype autoinst => exact ends_resolve hcall hleads hlast hdb hinst hi.xhp

theorem loopTurns_ends
    (hcall : ∀ r d pending, NamedDb r.st.xhp → Ends env (call r d).2 (turns r d pending))
    (hleads : ∀ r d, Resolver.Leads env (fun l => l.itself env = false)
      (fun st => st.edits = []) r (call r d).1) {left : Nat} {pkgRepod : PkgDict} {edits : Nat}
    {pending : List Nat} :
    ∀ {deps : List Str} {last : Option PkgDict} {rdeps : Option Nat} {r : Resolver},
      rdeps = (last.getD pkgRepod).rdeps → NamedDb r.st.xhp →
      Ends env (depLoop env call (maxDepth - (left + 1)) pkgRepod edits deps rdeps r).2
        (loopTurns env call turns left pkgRepod edits pending deps last rdeps r) := by
  intro deps
  induction deps with
  | nil => exact fun _ _ => .nil env
  | cons reqpkg deps ih =>
    intro last rdeps r hrdeps hdb
    by_cases h : r.st.edits.count pkgRepod.runDependsId = edits
    · obtain ⟨t, hat, hloop, hturns⟩ := loopTurns_cons h
      rw [hloop, hturns]
      have hlast : t.OfLast := by rw [DepTurn.OfLast, hat.rdeps, hat.last, hat.pkgRepod, hrdeps]
      have hends := t.ends hcall (fun r d => (hleads r d).later) hlast (hat.st ▸ hdb)
      have hstep := (editsRule env []).depStepLeads hleads _ t.pkgRepod t.reqpkg
        (hat.looks ▸ List.mem_append_right _ List.mem_cons_self) t.rdeps
      generalize hs : depStep env call t.r t.pkgRepod t.rdeps t.reqpkg = out at hends hstep
      obtain ⟨r', rdeps', rv⟩ := out
      cases rv with
      | ok =>
        refine hends.append (ih ?_ (hstep.later.db.namedDb (hat.st ▸ hdb)))
        rw [hlast.next hs, hat.pkgRepod]
      | err e => exact List.append_nil _ ▸ hends
      | abort => exact List.append_nil _ ▸ hends
    · rw [depLoop, if_pos h, loopTurns, if_pos h]
      exact .nil env

end

/-- How a call of `repo_deps` ends, by its turns: cycles alone are no error. -/
theorem repoDeps_ends (env : Env) :
    ∀ (n : Nat) (r : Resolver) (pkgRepod : PkgDict) (pending : List Nat), NamedDb r.st.xhp →
      Ends env (repoDeps env n r pkgRepod).2 (depTurns env n r pkgRepod pending) := by
  intro n
  induction n with
  | zero =>
    intro r pkgRepod pending _
    exact ⟨by simp [repoDeps, depTurns], fun e he => Or.inl (Rv.err.inj he).symm⟩
  | succ n ih =>
    intro r pkgRepod pending hdb
    rw [repoDeps, depTurns]
    exact loopTurns_ends ih ((editsRule env []).repoDepsLeads n) rfl hdb

/-- The resolver ends, and cycles alone are no error.  At every call the queue is the chain of the
packages being resolved below the requested one, without a package twice, and the depth is the
number of the calls around it; `ELOOP` means that there is a chain of `MAX_DEPTH` different
packages, and any other error has a reason in one of the turns. -/
def ResolvesCycles (env : Env) (st : State) (pkgRepod : PkgDict) : Prop :=
  ∃ x rv, descend env (maxDepth + 1) [] { r := { st } } pkgRepod = some (x, rv) ∧
    transactionPkgDeps env st pkgRepod = (x.r.st, x.r.looks, rv) ∧ rv ≠ .abort ∧
      (∀ c ∈ x.calls, c.Chained pkgRepod) ∧
        (rv = .err .eloop → ∃ chain : List PkgDict, maxDepth ≤ chain.length ∧
          (chain.map PkgDict.pkgver).Nodup ∧ (pkgRepod :: chain).IsChain AsksFor) ∧
        ∀ e, rv = .err e →
          e = .eloop ∨ ∃ t ∈ depTurns env maxDepth { st } pkgRepod [], t.Fails env e

/-- **The resolver ends**, for all dependencies that real packages satisfy, unless a package is
found to depend on itself when what was resolved last has no `run_depends`. -/
theorem transactionPkgDeps_chain (env : Env) (hopen : env.NoLoop) (st : State)
    (hdb : NamedDb st.xhp) (pkgRepod : PkgDict) (hreal : RealDeps env st pkgRepod) :
    ResolvesCycles env st pkgRepod ↔
      ∀ t ∈ depTurns env maxDepth { st } pkgRepod [], ¬ t.NullDeps env := by
  have hstart : ({ r := { st } } : Descent).Inside env st pkgRepod [] pkgRepod :=
    ⟨Onward.refl env st, fun c hc => absurd hc List.not_mem_nil,
      ⟨rfl, rfl, List.nodup_nil, List.isChain_singleton pkgRepod⟩⟩
  obtain ⟨x, rv, hx, hdeps, hret⟩ := descend_spec hopen hreal maxDepth [] (Nat.zero_add _)
    _ pkgRepod hstart fun _ hdep => Or.inl hdep
  have hends := repoDeps_ends env maxDepth { st } pkgRepod [] hdb
  simp only at hdeps
  rw [hdeps] at hends
  have hrun : transactionPkgDeps env st pkgRepod = (x.r.st, x.r.looks, rv) := by
    rw [transactionPkgDeps, hdeps]
  constructor
  · rintro ⟨x', rv', hx', -, habort, -⟩ t ht hnull
    obtain ⟨-, rfl⟩ := Prod.mk.inj (Option.some.inj (hx.symm.trans hx'))
    exact habort (hends.abort.mpr ⟨t, ht, hnull⟩)
  · intro hturns
    refine ⟨x, rv, hx, hrun, fun habort => ?_, hret.calls, fun hrv => ?_, hends.err⟩
    · obtain ⟨t, ht, hnull⟩ := hends.abort.mp habort
      exact hturns t ht hnull
    · obtain ⟨c, hc, hdepth⟩ := hret.eloop hrv
      have hchained := hret.calls c hc
      refine ⟨c.queued, ?_, hchained.nodup, hchained.linked⟩
      have hlen := congrArg List.length hchained.chain
      rw [List.length_cons, List.length_append, List.length_singleton, ← hchained.depth] at hlen
      omega

/-! ### Repositories without virtual packages -/

theorem vpkgUserConf_eq_none {xhp : Handle} (hvpkgd : ∀ v, xhp.vpkgd.get v = none) (vpkg : Str) :
    vpkgUserConf xhp vpkg = none := by
  rw [vpkgUserConf]
  simp only [hvpkgd]

/-- Where nothing is provided, no virtual package is found. -/
theorem repoGetVirtualpkg_eq_none {xhp : Handle} (hvpkgd : ∀ v, xhp.vpkgd.get v = none)
    {pool : Rpool} (hpool : ∀ ref d, pool.get ref = some d → d.provides = none) (i : Nat)
    (pkg : Str) : (repoGetVirtualpkg xhp pool i pkg).2 = none := by
  rw [repoGetVirtualpkg]
  cases hi : pool.queue[i]? with
  | none => rfl
  | some repo =>
    have hnone : repo.idx.entries.find? (fun e => matchVirtualPkgInDict e.2 pkg) = none := by
      refine List.find?_eq_none.mpr fun e he => ?_
      have hget : pool.get ⟨i, e.1⟩ = some e.2 := by
        rw [Rpool.get, hi, Option.bind_some]
        exact Dict.mem_entries_iff.mp he
      rw [matchVirtualPkgInDict, hpool _ _ hget]
      exact Bool.false_ne_true
    simp only [findVirtualKeyInDict, vpkgUserConf_eq_none hvpkgd, hnone, Option.bind_none,
      Option.map_none, Option.none_or]
    rfl

/-- A pool without virtual packages and repositories without them: no dependency is satisfied by
one. -/
theorem RealDeps.of_noProvides {env : Env} {st : State} {base : PkgDict}
    (hconf : ∀ v, st.xhp.vpkgdConf.get v = none) (hvpkgd : ∀ v, st.xhp.vpkgd.get v = none)
    (hpool : ∀ ref d, st.pool.get ref = some d → d.provides = none)
    (hfresh : ∀ d, env.Fresh d → d.provides = none) : RealDeps env st base := by
  refine ⟨hconf, fun reqpkg _ st' hon _ => ?_⟩
  have hvpkgd' : ∀ v, st'.xhp.vpkgd.get v = none := by
    rw [hon.vpkgd]
    exact hvpkgd
  -- every package of a later pool comes from this one, or from a repository
  have hlater : ∀ {pool : Rpool}, PoolExt env st.pool pool →
      ∀ ref d, pool.get ref = some d → d.provides = none := by
    intro pool hext ref d hd
    rcases hext.origin ref d hd with ⟨d₀, hd₀, hevolves⟩ | ⟨d₀, hd₀, hevolves⟩
    · rw [hevolves.provides, hpool ref d₀ hd₀]
    · rw [hevolves.provides, hfresh d₀ hd₀]
  have hfn : ∀ (pool : Rpool) (i : Nat) (pkgd : Option PkgRef),
      PoolExt env st.pool pool ∧ pkgd = none →
      (PoolExt env st.pool (findVirtualpkgCb st'.xhp reqpkg pool i pkgd).pool ∧
        (findVirtualpkgCb st'.xhp reqpkg pool i pkgd).pkgd = none) ∧ True := by
    rintro pool i pkgd ⟨hext, -⟩
    exact ⟨⟨hext.trans (repoGetVirtualpkg_spec env st'.xhp pool i reqpkg).1,
      repoGetVirtualpkg_eq_none hvpkgd' (hlater hext) i reqpkg⟩, trivial⟩
  have hstart : PoolExt env st.pool (st'.rpoolGetPkg env reqpkg).1.pool :=
    hon.later.pool.trans (st'.rpoolGetPkg_spec env reqpkg).1.pool
  generalize (st'.rpoolGetPkg env reqpkg).1.pool = pool at hstart ⊢
  obtain ⟨⟨-, hnone⟩, -⟩ := @rpoolForeach_rule env (findVirtualpkgCb st'.xhp reqpkg)
    (fun pool pkgd => PoolExt env st.pool pool ∧ pkgd = none) (fun _ => True)
    (fun pool pkgd uri h => ⟨h.1.trans (Rpool.open_spec env pool uri), h.2⟩) hfn trivial trivial
    pool.repositories pool none false ⟨hstart, rfl⟩
  rw [rpoolGetVirtualpkg, repoFindPkg]
  split
  · rfl
  · rfl
  · next pool' ref hr =>
    rw [hr] at hnone
    cases hnone

/-- Two packages that depend on each other. -/
def cycleIdx : Dict Str PkgDict :=
  (Dict.empty.set "foo".toList
    { pkgver := "foo-1_1".toList, runDepends := some ["bar>=0".toList] }).set "bar".toList
    { pkgver := "bar-1_1".toList, runDepends := some ["foo>=0".toList] }

def cycleEnv : Env :=
  { repoOpen := fun uri => if uri = "repo".toList then some cycleIdx else none }

def cycleState : State := { xhp := {}, pool := { repositories := ["repo".toList] } }

/-- A package that needs them. -/
def cycleUser : PkgDict :=
  { pkgver := "user-1_1".toList, runDepends := some ["foo>=0".toList] }

theorem cycle_realDeps (pkgRepod : PkgDict) : RealDeps cycleEnv cycleState pkgRepod := by
  refine RealDeps.of_noProvides (fun _ => rfl) (fun _ => rfl) (fun ref d h => by cases h) ?_
  rintro d ⟨uri, idx, hidx, hd⟩
  simp only [cycleEnv] at hidx
  split at hidx
  · obtain rfl := Option.some.inj hidx
    revert d
    decide
  · cases hidx

/-- The packages of the cycle are put into the transaction, the one that closes it first. -/
theorem transactionPkgDeps_chain_cycle :
    ResolvesCycles cycleEnv cycleState cycleUser ∧
      (transactionPkgDeps cycleEnv cycleState cycleUser).2.2 = .ok ∧
      (transactionPkgDeps cycleEnv cycleState cycleUser).1.packages.map PkgDict.pkgver =
        ["bar-1_1".toList, "foo-1_1".toList] :=
  ⟨(transactionPkgDeps_chain cycleEnv (fun _ _ h => h) cycleState (fun p hp => by cases hp) cycleUser
    (cycle_realDeps cycleUser)).mpr (by decide +kernel), by decide +kernel, by decide +kernel⟩

/-- A package that a dependency of its own name is found for in the second repository, behind one
on a package without `run_depends`. -/
def nullRepos : List (Str × Dict Str PkgDict) :=
  [("r".toList, (Dict.empty.set "a".toList
      { pkgver := "a-1_1".toList, runDepends := some ["d>=0".toList, "a>=2".toList] }).set
        "d".toList { pkgver := "d-1_1".toList, runDependsId := 1 }),
    ("s".toList, Dict.empty.set "a".toList { pkgver := "a-2_1".toList, runDependsId := 2 })]

def nullEnv : Env := { repoOpen := fun uri => nullRepos.lookup uri }

def nullState : State := { xhp := {}, pool := { repositories := nullRepos.map Prod.fst } }

def nullUser : PkgDict :=
  { pkgver := "a-1_1".toList, runDepends := some ["d>=0".toList, "a>=2".toList] }

/-- The resolver dies where that dependency is to be dropped. -/
theorem transactionPkgDeps_not_cycles : nullEnv.NoLoop ∧ NamedDb nullState.xhp ∧
    RealDeps nullEnv nullState nullUser ∧
    (transactionPkgDeps nullEnv nullState nullUser).2.2 = .abort ∧
    ¬ ResolvesCycles nullEnv nullState nullUser := by
  have habort : (transactionPkgDeps nullEnv nullState nullUser).2.2 = .abort := by decide +kernel
  refine ⟨fun _ _ h => h, fun p hp => ?_, ?_, habort, ?_⟩
  · cases hp
  · refine .of_noProvides (fun _ => rfl) (fun _ => rfl) (fun ref d h => by cases h) ?_
    rintro d ⟨uri, idx, hidx, hd⟩
    obtain ⟨l₁, l₂, heq, -⟩ := List.lookup_eq_some_iff.mp hidx
    have hall : ∀ r ∈ nullRepos, ∀ d ∈ r.2.values, d.provides = none := by decide +kernel
    exact hall (uri, idx) (heq ▸ List.mem_append_right _ List.mem_cons_self) d hd
  · rintro ⟨x, rv, -, hrun, hrv, -⟩
    rw [hrun] at habort
    exact hrv habort

end Flappy
