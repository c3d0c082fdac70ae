/-
Several full dependency trees in one process (`lib/package_fulldeptree.c`, in
both modes).

The table of items is a static variable.  A call that ends well empties it; one
that fails halfway leaves it as it is, and only a dependency that no repository
has makes a call fail so.  The repository pool stays in the process too.

* `getPkgFulldeptree` — a call, with what earlier ones have left;
* `PoolOf` — the pool holds nothing but its repositories, and lookups find what they find in a
  fresh process, unless `errno` ends them;
* `getPkgFulldeptree_fresh` — with an empty table a call gives what it gives in a fresh process.
-/
import Flappy.Fulldeptree
import Flappy.Lib.Run
import Flappy.RpoolFind

open CStr Run

namespace Flappy

/-! ### The calls -/

/-- The lookup of a package: in the repository pool, or in the database once it is there. -/
def treeLookup (env : Env) (xhp : Handle) (rpool : Bool) (pool : Rpool) (pkg : Str) :
    Rpool × Option PkgDict :=
  if rpool then
    match rpoolGetPkg env xhp pool pkg with
    | (pool, some ref) => (pool, pool.get ref)
    | (pool, none) =>
      let (pool, ref) := rpoolGetVirtualpkg env xhp pool pkg
      (pool, ref.bind pool.get)
  else
    match pkgdbGetPkg xhp pkg with
    | some pkgd => (pool, some pkgd)
    | none =>
      ({ pool with errno := findVirtualErrno xhp xhp.pkgdb pkg (some .enoent) },
        pkgdbGetVirtualpkg xhp pkg)

/-- The loop of `ordered_depends` over the dependencies of `pkgd`, in either mode; `false` if a
dependency is missing or a recursive call returns `NULL`. -/
def dependsLoopIn (env : Env) (xhp : Handle) (rpool : Bool)
    (recur : PkgDict → Rpool → DepTree → Option (Rpool × DepTree × Option Str))
    (pkgd : PkgDict) (pkgname : Str) :
    List Str → Rpool → DepTree → Option (Rpool × DepTree × Bool)
  | [], pool, t => some (pool, t, true)
  | curdep :: rdeps, pool, t =>
    match treeLookup env xhp rpool pool curdep with
    | (pool, none) =>
      if rpool then some ({ pool with errno := some .enodev }, t, false)
      -- missing local runtime dependencies are ignored
      else dependsLoopIn env xhp rpool recur pkgd pkgname rdeps pool t
    | (pool, some curpkgd) =>
      match depName curdep with
      | none => none
      | some curdepname =>
        if matchPkgnameInArray (pkgd.provides.getD []) curdepname then
          dependsLoopIn env xhp rpool recur pkgd pkgname rdeps pool t
        else
          match t.items.get curdepname with
          | some xitem =>
            (t.addDeps xitem false).bind
              (dependsLoopIn env xhp rpool recur pkgd pkgname rdeps pool)
          | none =>
            (recur curpkgd pool t).bind fun
              | (pool, t, none) => some (pool, t, false)
              | (pool, t, some xitem) =>
                dependsLoopIn env xhp rpool recur pkgd pkgname rdeps pool (t.addDepn pkgname xitem)

/-- `ordered_depends`, in either mode: the static variables and the key of the item, which is
`none` for `NULL`. -/
def orderedDependsIn (env : Env) (xhp : Handle) (rpool : Bool) :
    Nat → PkgDict → Nat → Rpool → DepTree → Option (Rpool × DepTree × Option Str)
  | 0, _, _, _, _ => none
  | n + 1, pkgd, depth, pool, t =>
    match pkgd.pkgname with
    | none => none
    | some pkgname =>
      match t.items.get pkgname with
      | some item => (t.addDeps item (depth = 0)).map fun t => (pool, t, some pkgname)
      | none =>
        (dependsLoopIn env xhp rpool
          (fun d pool t => orderedDependsIn env xhp rpool n d (depth + 1) pool t) pkgd pkgname
          (pkgd.runDepends.getD []) pool (t.addItem pkgname pkgd.pkgver)).map fun
            | (pool, t, false) => (pool, t, none)
            | (pool, t, true) =>
              -- all deps were processed, add item to head
              if depth > 0 ∧ matchStringInArray t.result pkgd.pkgver = false then
                (pool, { t with result := pkgd.pkgver :: t.result }, some pkgname)
              else (pool, t, some pkgname)

/-- What stays in the process between calls. -/
structure DeptreeState where
  pool : Rpool
  items : Dict Str DepItem := Dict.empty

/-- `flappy_get_pkg_fulldeptree`, with the recursion at most `n` deep; `none` inside is `NULL`,
and `none` outside if the call does not return. -/
def getPkgFulldeptree (env : Env) (xhp : Handle) (n : Nat) (s : DeptreeState) (rpool : Bool)
    (pkg : Str) : Option (DeptreeState × Option (List Str)) :=
  match treeLookup env xhp rpool s.pool pkg with
  | (pool, none) => some ({ s with pool }, none)
  | (pool, some pkgd) =>
    (orderedDependsIn env xhp rpool n pkgd 0 pool { items := s.items }).map fun
      | (pool, t, none) => ({ pool, items := t.items }, none)
      -- `cleanup` empties the table
      | (pool, t, some _) => ({ pool }, some t.result)

/-- The process after a call. -/
def DeptreeState.step (env : Env) (xhp : Handle) (n : Nat) (s : DeptreeState)
    (call : Bool × Str) : Option DeptreeState :=
  (getPkgFulldeptree env xhp n s call.1 call.2).map Prod.fst

/-- A process that has opened no repository yet. -/
def DeptreeState.fresh (repositories : List Str) : DeptreeState := { pool := { repositories } }

/-! ### The database mode -/

theorem treeLookup_pkgdb (env : Env) (xhp : Handle) (pool : Rpool) (pkg : Str) :
    (treeLookup env xhp false pool pkg).2 = pkgdbResolve xhp pkg := by
  simp only [treeLookup, Bool.false_eq_true, if_false, pkgdbResolve]
  cases h : pkgdbGetPkg xhp pkg with
  | none => rw [Option.none_or]
  | some pkgd => rfl

theorem dependsLoopIn_pkgdb (env : Env) (xhp : Handle) (pkgd : PkgDict) (pkgname : Str)
    {recur : PkgDict → DepTree → Option (DepTree × Str)}
    {recurIn : PkgDict → Rpool → DepTree → Option (Rpool × DepTree × Option Str)}
    (hrec : ∀ d pool t, (recurIn d pool t).map Prod.snd =
      (recur d t).map fun r => (r.1, some r.2)) (rdeps : List Str) :
    ∀ pool t, (dependsLoopIn env xhp false recurIn pkgd pkgname rdeps pool t).map Prod.snd =
      (dependsLoop xhp recur pkgd pkgname rdeps t).map fun t => (t, true) := by
  induction rdeps with
  | nil => exact fun _ _ => rfl
  | cons curdep rdeps ih =>
    intro pool t
    -- without the pool the lookup is the database's
    rw [dependsLoopIn, dependsLoop, ← treeLookup_pkgdb env xhp pool curdep]
    generalize treeLookup env xhp false pool curdep = r
    obtain ⟨pool, curpkgd⟩ := r
    cases curpkgd with
    | none => exact ih pool t
    | some curpkgd =>
      simp only
      cases depName curdep with
      | none => rfl
      | some curdepname =>
        simp only
        split
        · exact ih pool t
        · cases t.items.get curdepname with
          | some xitem =>
            simp only
            cases t.addDeps xitem false with
            | none => rfl
            | some t => exact ih pool t
          | none =>
            simp only
            have hcall := hrec curpkgd pool t
            cases hrun : recurIn curpkgd pool t with
            | none =>
              rw [hrun, Option.map_none, eq_comm, Option.map_eq_none_iff] at hcall
              rw [hcall]
              rfl
            | some r =>
              rw [hrun, Option.map_some, eq_comm, Option.map_eq_some_iff] at hcall
              obtain ⟨⟨t₁, xitem⟩, hrun', heq⟩ := hcall
              obtain ⟨pool₁, r⟩ := r
              cases heq
              rw [hrun']
              exact ih pool₁ _

theorem orderedDependsIn_pkgdb (env : Env) (xhp : Handle) (n : Nat) :
    ∀ pkgd depth pool t, (orderedDependsIn env xhp false n pkgd depth pool t).map Prod.snd =
      (orderedDepends xhp n pkgd depth t).map fun r => (r.1, some r.2) := by
  induction n with
  | zero => exact fun _ _ _ _ => rfl
  | succ n ih =>
    intro pkgd depth pool t
    rw [orderedDependsIn, orderedDepends]
    cases pkgd.pkgname with
    | none => rfl
    | some pkgname =>
      simp only
      cases t.items.get pkgname with
      | some item =>
        simp only [Option.map_map]
        rfl
      | none =>
        simp only
        have hloop := dependsLoopIn_pkgdb env xhp pkgd pkgname
          (fun d pool t => ih d (depth + 1) pool t) (pkgd.runDepends.getD []) pool
          (t.addItem pkgname pkgd.pkgver)
        cases hrun : dependsLoopIn env xhp false
            (fun d pool t => orderedDependsIn env xhp false n d (depth + 1) pool t) pkgd pkgname
            (pkgd.runDepends.getD []) pool (t.addItem pkgname pkgd.pkgver) with
        | none =>
          rw [hrun, Option.map_none, eq_comm, Option.map_eq_none_iff] at hloop
          rw [hloop]
          rfl
        | some r =>
          rw [hrun, Option.map_some, eq_comm, Option.map_eq_some_iff] at hloop
          obtain ⟨t₁, hrun', heq⟩ := hloop
          obtain ⟨pool₁, r⟩ := r
          cases heq
          rw [hrun']
          simp only [Option.map_some]
          split <;> rfl

/-- In the database mode, with an empty table, a call gives the tree of `Fulldeptree.lean`. -/
theorem getPkgFulldeptree_pkgdb (env : Env) (xhp : Handle) (pool : Rpool) (pkg : Str) :
    (getPkgFulldeptree env xhp (xhp.pkgdb.keys.length + 1) { pool } false pkg).map
        (fun r => r.2.getD []) = pkgdbGetPkgFulldeptree xhp pkg := by
  rw [getPkgFulldeptree, pkgdbGetPkgFulldeptree, ← treeLookup_pkgdb env xhp pool pkg]
  generalize treeLookup env xhp false pool pkg = r
  obtain ⟨pool, pkgd⟩ := r
  cases pkgd with
  | none => rfl
  | some pkgd =>
    have hcall := orderedDependsIn_pkgdb env xhp (xhp.pkgdb.keys.length + 1) pkgd 0 pool {}
    simp only
    cases hrun : orderedDependsIn env xhp false (xhp.pkgdb.keys.length + 1) pkgd 0 pool {} with
    | none =>
      rw [hrun, Option.map_none, eq_comm, Option.map_eq_none_iff] at hcall
      rw [hcall]
      rfl
    | some r =>
      rw [hrun, Option.map_some, eq_comm, Option.map_eq_some_iff] at hcall
      obtain ⟨⟨t, key⟩, hrun', heq⟩ := hcall
      obtain ⟨pool, r⟩ := r
      cases heq
      rw [hrun']
      rfl

/-! ### Lookups in a process that is not fresh -/

/-- What `treeLookup` finds in these repositories. -/
def treeFind (env : Env) (xhp : Handle) (R : List Str) (rpool : Bool) (pkg : Str) :
    Option PkgDict :=
  if rpool then (poolPkg env xhp R pkg).or (R.findSome? (repoVirtualpkg env xhp pkg))
  else pkgdbResolve xhp pkg

/-- A miss of this request leaves its own `errno`, or nobody looks at it. -/
def Asked (xhp : Handle) (rpool : Bool) (pkg : Str) : Prop :=
  rpool = true → xhp.flags.bestmatch = true → request pkg ≠ .pkgname

instance (xhp : Handle) (rpool : Bool) (pkg : Str) : Decidable (Asked xhp rpool pkg) :=
  inferInstanceAs (Decidable (_ → _ → _))

/-- The packages of the repositories have names, and dependencies that may be asked for. -/
structure Steady (env : Env) (xhp : Handle) (R : List Str) : Prop where
  named : ∀ uri ∈ R, env.Named uri
  deps : ∀ uri ∈ R, ∀ idx, env.repoOpen uri = some idx → ∀ e ∈ idx.entries,
    ∀ dep ∈ e.2.runDepends.getD [], Asked xhp true dep

variable {env : Env} {xhp : Handle} {R : List Str}

theorem treeLookup_find (hsteady : Steady env xhp R) {rpool : Bool} {pkg : Str}
    (hasked : Asked xhp rpool pkg) {pool : Rpool} (h : PoolOf env R pool) :
    PoolOf env R (treeLookup env xhp rpool pool pkg).1 ∧
      (treeLookup env xhp rpool pool pkg).2 = treeFind env xhp R rpool pkg := by
  cases rpool with
  | false =>
    refine ⟨?_, treeLookup_pkgdb env xhp pool pkg⟩
    simp only [treeLookup, Bool.false_eq_true, if_false]
    split
    · exact h
    · exact h.errno _
  | true =>
    have hfinds := rpoolGetPkg_find hsteady.named h (hasked rfl)
    simp only [treeLookup, treeFind, if_true]
    generalize rpoolGetPkg env xhp pool pkg = r at hfinds
    obtain ⟨pool₁, ref⟩ := r
    cases ref with
    | some ref =>
      obtain ⟨d, hd⟩ := Option.isSome_iff_exists.mp (hfinds.isSome ▸ rfl :
        (poolPkg env xhp R pkg).isSome = true)
      refine ⟨hfinds.of, ?_⟩
      rw [hd, Option.some_or]
      exact hfinds.found.trans hd
    | none =>
      have hnone : poolPkg env xhp R pkg = none := hfinds.found.symm
      have hvirtual : Finds env R _ (rpoolGetVirtualpkg env xhp _ pkg) _ :=
        rpoolGetVirtualpkg_find hsteady.named hfinds.of pkg
      rw [hnone, Option.none_or]
      exact ⟨hvirtual.of, hvirtual.found⟩

theorem describe_runDepends (uri : Str) (d : PkgDict) :
    (describe uri d).runDepends = d.runDepends := by
  unfold describe
  split
  · rfl
  · split <;> rfl

theorem poolBest_eq_some {look : Str → Option PkgDict} {stops : Bool} {d : PkgDict} :
    ∀ {uris : List Str} {best : Option PkgDict}, poolBest env look stops uris best = some d →
      best = some d ∨ ∃ uri ∈ uris, look uri = some d := by
  intro uris
  induction uris with
  | nil => exact fun h => Or.inl h
  | cons uri uris ih =>
    intro best h
    rw [poolBest] at h
    have hlater : (∃ u ∈ uris, look u = some d) → ∃ u ∈ uri :: uris, look u = some d := by
      rintro ⟨u, hu, hd⟩
      exact ⟨u, List.mem_cons_of_mem _ hu, hd⟩
    split at h
    · exact (ih h).imp_right hlater
    · split at h
      · split at h
        · cases h
        · exact (ih h).imp_right hlater
      · next d' hd' =>
        rcases ih h with hbest | hlook
        · cases best with
          | none => exact Or.inr ⟨uri, List.mem_cons_self, hd'.trans hbest⟩
          | some b =>
            simp only [better] at hbest
            split at hbest
            · exact Or.inr ⟨uri, List.mem_cons_self, hd'.trans hbest⟩
            · exact Or.inl hbest
        · exact Or.inr (hlater hlook)

/-- What is found in the repositories asks for dependencies of the repositories. -/
theorem Steady.asked (hsteady : Steady env xhp R) {rpool : Bool} {pkg : Str} {d : PkgDict}
    (h : treeFind env xhp R rpool pkg = some d) :
    ∀ dep ∈ d.runDepends.getD [], Asked xhp rpool dep := by
  cases rpool with
  | false => exact fun _ _ => nofun
  | true =>
    have hlook : ∀ uri ∈ R, ∀ {idx : Dict Str PkgDict} {key : Option Str},
        env.repoOpen uri = some idx → describedAt uri idx key = some d →
          ∀ dep ∈ d.runDepends.getD [], Asked xhp true dep := by
      intro uri huri idx key hidx hd dep hdep
      obtain ⟨d₀, hd₀, rfl⟩ := Option.map_eq_some_iff.mp hd
      obtain ⟨k, -, hget⟩ := Option.bind_eq_some_iff.mp hd₀
      rw [describe_runDepends] at hdep
      exact hsteady.deps uri huri idx hidx (k, d₀) (Dict.mem_entries_iff.mpr hget) dep hdep
    have hpkg : ∀ uri ∈ R, repoPkg env xhp pkg uri = some d →
        ∀ dep ∈ d.runDepends.getD [], Asked xhp true dep := by
      intro uri huri hd
      obtain ⟨idx, hidx, hd⟩ := Option.bind_eq_some_iff.mp hd
      exact hlook uri huri hidx hd
    rw [treeFind, if_pos rfl, Option.or_eq_some_iff] at h
    rcases h with h | ⟨-, h⟩
    · rw [poolPkg] at h
      split at h
      · rcases poolBest_eq_some h with h | ⟨uri, huri, hd⟩
        · cases h
        · exact hpkg uri huri hd
      · obtain ⟨uri, huri, hd⟩ := List.exists_of_findSome?_eq_some h
        exact hpkg uri huri hd
    · obtain ⟨uri, huri, hd⟩ := List.exists_of_findSome?_eq_some h
      obtain ⟨idx, hidx, hd⟩ := Option.bind_eq_some_iff.mp hd
      exact hlook uri huri hidx hd

/-! ### The walk -/

/-- Two pieces of the walk that differ in the state of the pool only. -/
inductive SameWalk {α : Type} (env : Env) (R : List Str) :
    Option (Rpool × α) → Option (Rpool × α) → Prop where
  | abort : SameWalk env R none none
  | done {pool pool' : Rpool} (a : α) : PoolOf env R pool → PoolOf env R pool' →
      SameWalk env R (some (pool, a)) (some (pool', a))

theorem dependsLoopIn_same (hsteady : Steady env xhp R) {rpool : Bool}
    {recur : PkgDict → Rpool → DepTree → Option (Rpool × DepTree × Option Str)}
    (hrec : ∀ d, (∀ dep ∈ d.runDepends.getD [], Asked xhp rpool dep) → ∀ t pool pool',
      PoolOf env R pool → PoolOf env R pool' → SameWalk env R (recur d pool t) (recur d pool' t))
    (pkgd : PkgDict) (pkgname : Str) :
    ∀ {rdeps : List Str}, (∀ dep ∈ rdeps, Asked xhp rpool dep) → ∀ t pool pool',
      PoolOf env R pool → PoolOf env R pool' →
      SameWalk env R (dependsLoopIn env xhp rpool recur pkgd pkgname rdeps pool t)
        (dependsLoopIn env xhp rpool recur pkgd pkgname rdeps pool' t) := by
  intro rdeps
  induction rdeps with
  | nil => exact fun _ t pool pool' h h' => .done _ h h'
  | cons dep rdeps ih =>
    intro hasked t pool pool' h h'
    rw [List.forall_mem_cons] at hasked
    obtain ⟨hdep, hasked⟩ := hasked
    -- both pools give the same package, and stay pools of the repositories
    obtain ⟨h₁, hfind⟩ := treeLookup_find hsteady hdep h
    obtain ⟨h₁', hfind'⟩ := treeLookup_find hsteady hdep h'
    rw [dependsLoopIn, dependsLoopIn]
    generalize treeLookup env xhp rpool pool dep = r at h₁ hfind
    generalize treeLookup env xhp rpool pool' dep = r' at h₁' hfind'
    obtain ⟨pool₁, found⟩ := r
    obtain ⟨pool₁', found'⟩ := r'
    simp only at hfind hfind'
    subst hfind hfind'
    cases hd : treeFind env xhp R rpool dep with
    | none =>
      simp only
      split
      · exact .done _ (h₁.errno _) (h₁'.errno _)
      · exact ih hasked t pool₁ pool₁' h₁ h₁'
    | some d =>
      simp only
      cases depName dep with
      | none => exact .abort
      | some name =>
        simp only
        split
        · exact ih hasked t pool₁ pool₁' h₁ h₁'
        · cases t.items.get name with
          | some xitem =>
            simp only
            cases t.addDeps xitem false with
            | none => exact .abort
            | some t => exact ih hasked t pool₁ pool₁' h₁ h₁'
          | none =>
            simp only
            have hcall := hrec d (hsteady.asked hd) t pool₁ pool₁' h₁ h₁'
            generalize recur d pool₁ t = r at hcall
            generalize recur d pool₁' t = r' at hcall
            cases hcall with
            | abort => exact .abort
            | done a h₂ h₂' =>
              obtain ⟨t, key⟩ := a
              cases key with
              | none => exact .done _ h₂ h₂'
              | some key => exact ih hasked _ _ _ h₂ h₂'

theorem orderedDependsIn_same (hsteady : Steady env xhp R) {rpool : Bool} {n : Nat} :
    ∀ {pkgd : PkgDict}, (∀ dep ∈ pkgd.runDepends.getD [], Asked xhp rpool dep) →
      ∀ depth t pool pool', PoolOf env R pool → PoolOf env R pool' →
      SameWalk env R (orderedDependsIn env xhp rpool n pkgd depth pool t)
        (orderedDependsIn env xhp rpool n pkgd depth pool' t) := by
  induction n with
  | zero => exact fun _ _ _ _ _ _ _ => .abort
  | succ n ih =>
    intro pkgd hasked depth t pool pool' h h'
    rw [orderedDependsIn, orderedDependsIn]
    cases pkgd.pkgname with
    | none => exact .abort
    | some pkgname =>
      simp only
      cases t.items.get pkgname with
      | some item =>
        simp only
        cases t.addDeps item (decide (depth = 0)) with
        | none => exact .abort
        | some t => exact .done _ h h'
      | none =>
        simp only
        -- a new item: the loop over its dependencies, one call deeper
        have hloop := dependsLoopIn_same hsteady
          (fun d hd t pool pool' => ih hd (depth + 1) t pool pool') pkgd pkgname hasked
          (t.addItem pkgname pkgd.pkgver) pool pool' h h'
        generalize dependsLoopIn env xhp rpool
          (fun d pool t => orderedDependsIn env xhp rpool n d (depth + 1) pool t) pkgd pkgname
          (pkgd.runDepends.getD []) pool (t.addItem pkgname pkgd.pkgver) = r at hloop
        generalize dependsLoopIn env xhp rpool
          (fun d pool t => orderedDependsIn env xhp rpool n d (depth + 1) pool t) pkgd pkgname
          (pkgd.runDepends.getD []) pool' (t.addItem pkgname pkgd.pkgver) = r' at hloop
        cases hloop with
        | abort => exact .abort
        | done a h₁ h₁' =>
          obtain ⟨t, ok⟩ := a
          cases ok with
          | false => exact .done _ h₁ h₁'
          | true =>
            simp only [Option.map_some]
            split <;> exact .done _ h₁ h₁'

/-! ### Runs -/

/-- The condition on a call: the table is empty, and the request may be asked for. -/
def CallOk (xhp : Handle) (s : DeptreeState) (call : Bool × Str) : Prop :=
  s.items = Dict.empty ∧ Asked xhp call.1 call.2

instance (xhp : Handle) (s : DeptreeState) (call : Bool × Str) : Decidable (CallOk xhp s call) :=
  inferInstanceAs (Decidable (_ ∧ _))

/-- Two calls that differ in the state of the pool only. -/
theorem getPkgFulldeptree_same (hsteady : Steady env xhp R) {n : Nat} {rpool : Bool} {pkg : Str}
    (hasked : Asked xhp rpool pkg) {s s' : DeptreeState} (hitems : s.items = s'.items)
    (h : PoolOf env R s.pool) (h' : PoolOf env R s'.pool) :
    (getPkgFulldeptree env xhp n s rpool pkg = none ∧
      getPkgFulldeptree env xhp n s' rpool pkg = none) ∨
    ∃ t t' r, getPkgFulldeptree env xhp n s rpool pkg = some (t, r) ∧
      getPkgFulldeptree env xhp n s' rpool pkg = some (t', r) ∧ PoolOf env R t.pool := by
  obtain ⟨h₁, hfind⟩ := treeLookup_find hsteady hasked h
  obtain ⟨h₁', hfind'⟩ := treeLookup_find hsteady hasked h'
  rw [getPkgFulldeptree, getPkgFulldeptree, ← hitems]
  generalize treeLookup env xhp rpool s.pool pkg = r at h₁ hfind
  generalize treeLookup env xhp rpool s'.pool pkg = r' at h₁' hfind'
  obtain ⟨pool₁, found⟩ := r
  obtain ⟨pool₁', found'⟩ := r'
  simp only at hfind hfind'
  subst hfind hfind'
  cases hd : treeFind env xhp R rpool pkg with
  | none => exact Or.inr ⟨_, _, none, rfl, rfl, h₁⟩
  | some d =>
    have hcall := orderedDependsIn_same hsteady (n := n) (hsteady.asked hd) 0
      { items := s.items } pool₁ pool₁' h₁ h₁'
    simp only
    generalize orderedDependsIn env xhp rpool n d 0 pool₁ { items := s.items } = r at hcall
    generalize orderedDependsIn env xhp rpool n d 0 pool₁' { items := s.items } = r' at hcall
    cases hcall with
    | abort => exact Or.inl ⟨rfl, rfl⟩
    | done a h₂ h₂' =>
      obtain ⟨t, key⟩ := a
      cases key with
      | none => exact Or.inr ⟨_, _, none, rfl, rfl, h₂⟩
      | some key => exact Or.inr ⟨_, _, some t.result, rfl, rfl, h₂⟩

theorem DeptreeState.step_poolOf (hsteady : Steady env xhp R) {n : Nat} {s s' : DeptreeState}
    {call : Bool × Str} (h : PoolOf env R s.pool) (hok : CallOk xhp s call)
    (hstep : s.step env xhp n call = some s') : PoolOf env R s'.pool := by
  obtain ⟨⟨t, r⟩, hrun, rfl⟩ := Option.map_eq_some_iff.mp hstep
  rcases getPkgFulldeptree_same hsteady hok.2 rfl h h with ⟨hnone, -⟩ | ⟨t', -, r', hsome, -, h'⟩
  · exact nomatch hrun.symm.trans hnone
  · obtain ⟨rfl, rfl⟩ := Prod.mk.inj (Option.some.inj (hrun.symm.trans hsome))
    exact h'

/-- In a run in which every call finds the table empty, and asks for nothing that an old `errno`
might decide, a call gives what it gives in a fresh process. -/
theorem getPkgFulldeptree_fresh (hsteady : Steady env xhp R) (n : Nat)
    {calls : List (Bool × Str)} {s : DeptreeState}
    (hok : Along (DeptreeState.step env xhp n) (CallOk xhp) (DeptreeState.fresh R) calls)
    (hrun : run (DeptreeState.step env xhp n) (DeptreeState.fresh R) calls = some s)
    {rpool : Bool} {pkg : Str} (hcall : CallOk xhp s (rpool, pkg)) :
    (getPkgFulldeptree env xhp n s rpool pkg).map Prod.snd =
      (getPkgFulldeptree env xhp n (DeptreeState.fresh R) rpool pkg).map Prod.snd := by
  have hkeep : ∀ (s : DeptreeState) (call : Bool × Str) (s' : DeptreeState),
      PoolOf env R s.pool → CallOk xhp s call → DeptreeState.step env xhp n s call = some s' →
        PoolOf env R s'.pool :=
    fun _ _ _ h hok hstep => DeptreeState.step_poolOf hsteady h hok hstep
  have hpool : PoolOf env R s.pool := run_invariant hkeep (PoolOf.fresh env R) hok hrun
  have hempty : s.items = (DeptreeState.fresh R).items := hcall.1
  rcases getPkgFulldeptree_same hsteady (n := n) hcall.2 hempty hpool (PoolOf.fresh env R) with
    ⟨h, h'⟩ | ⟨_, _, _, h, h', -⟩
  · rw [h, h']
  · rw [h, h']
    rfl

/-- Only a call in the repository mode that misses a dependency leaves items behind. -/
theorem getPkgFulldeptree_items {n : Nat} {s s' : DeptreeState} {rpool : Bool} {pkg : Str}
    {r : Option (List Str)} (hrun : getPkgFulldeptree env xhp n s rpool pkg = some (s', r)) :
    s'.items = Dict.empty ∨ r = none ∧
      (s'.items = s.items ∨
        rpool = true ∧ ((treeLookup env xhp rpool s.pool pkg).2).isSome) := by
  rw [getPkgFulldeptree] at hrun
  generalize treeLookup env xhp rpool s.pool pkg = found at hrun
  obtain ⟨pool, found⟩ := found
  cases found with
  | none =>
    cases hrun
    exact Or.inr ⟨rfl, Or.inl rfl⟩
  | some d =>
    obtain ⟨⟨pool', t, key⟩, hcall, heq⟩ := Option.map_eq_some_iff.mp hrun
    cases key with
    | some key =>
      cases heq
      exact Or.inl rfl
    | none =>
      cases heq
      refine Or.inr ⟨rfl, Or.inr ⟨?_, rfl⟩⟩
      cases rpool with
      | true => rfl
      | false =>
        have := orderedDependsIn_pkgdb env xhp n d 0 pool { items := s.items }
        rw [hcall, Option.map_some, eq_comm, Option.map_eq_some_iff] at this
        obtain ⟨_, -, heq⟩ := this
        cases heq

/-- A repository with the package `a`, which needs `b` and a package that is not there, `b`, which
needs `c`, and `d`, which needs `b`. -/
def staleEnv : Env where
  repoOpen uri :=
    if uri = ['r'] then
      some ⟨[treePkg "a" "a-1_1" ["b>=0", "gone>=0"] [], treePkg "b" "b-1_1" ["c>=0"] [],
        treePkg "c" "c-1_1" [] [], treePkg "d" "d-1_1" ["b>=0"] []], by decide⟩
    else none

/-- The tree of `a` fails, and the tree of `d` after it holds `a` and lacks `c`. -/
theorem staleEnv_stale :
    ∃ s, run (DeptreeState.step staleEnv {} 5) (DeptreeState.fresh [['r']])
        [(true, ['a'])] = some s ∧
      (getPkgFulldeptree staleEnv {} 5 s true ['d']).map Prod.snd =
        some (some ["b-1_1".toList, "a-1_1".toList]) ∧
      (getPkgFulldeptree staleEnv {} 5 (DeptreeState.fresh [['r']]) true ['d']).map Prod.snd =
        some (some ["b-1_1".toList, "c-1_1".toList]) := by
  have hstale : (run (DeptreeState.step staleEnv {} 5) (DeptreeState.fresh [['r']])
      [(true, ['a'])]).map (fun s =>
        (getPkgFulldeptree staleEnv {} 5 s true ['d']).map Prod.snd) =
          some (some (some ["b-1_1".toList, "a-1_1".toList])) := by
    decide +kernel
  obtain ⟨s, hrun, hs⟩ := Option.map_eq_some_iff.mp hstale
  exact ⟨s, hrun, hs, by decide +kernel⟩

theorem staleEnv_steady : Steady staleEnv {} [['r']] := by
  have hidx : ∀ uri ∈ [['r']], ∀ idx, staleEnv.repoOpen uri = some idx →
      (∀ e ∈ idx.entries, (pkgName e.2.pkgver).isSome) ∧
        ∀ e ∈ idx.entries, ∀ dep ∈ e.2.runDepends.getD [], Asked {} true dep := by
    intro uri huri idx hidx
    obtain rfl := List.mem_singleton.mp huri
    cases hidx
    decide +kernel
  exact ⟨fun uri huri idx h => (hidx uri huri idx h).1, fun uri huri idx h => (hidx uri huri idx h).2⟩

theorem staleEnv_fresh :
    ∃ s, run (DeptreeState.step staleEnv {} 5) (DeptreeState.fresh [['r']])
        [(true, ['b']), (false, ['b'])] = some s ∧
      (getPkgFulldeptree staleEnv {} 5 s true ['d']).map Prod.snd =
        (getPkgFulldeptree staleEnv {} 5 (DeptreeState.fresh [['r']]) true ['d']).map Prod.snd := by
  have hrun : (run (DeptreeState.step staleEnv {} 5) (DeptreeState.fresh [['r']])
      [(true, ['b']), (false, ['b'])]).map (fun s => s.items) = some Dict.empty := by
    decide +kernel
  obtain ⟨s, hrun, hitems⟩ := Option.map_eq_some_iff.mp hrun
  exact ⟨s, hrun, getPkgFulldeptree_fresh staleEnv_steady 5 (by decide +kernel) hrun
    ⟨hitems, by decide +kernel⟩⟩

end Flappy
