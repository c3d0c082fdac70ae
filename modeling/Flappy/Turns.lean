/-
The turns of the loop of `flappy_transaction_prepare`, and what a turn does.

In a turn the dependencies of one entry are resolved, and the entry is appended.
The resolver changes the array by calls of `flappy_transaction_store` only.  What
else it does shows in the array at most in the `run_depends` of the entries.

* `prepareTurns`, `prepareLoop_inv` — the turns, and invariants of the loop;
* `DepsRun` — the runs of `repo_deps` that succeed, as a tree: a dependency that is
  taken from the repositories has the run for its own dependencies below it;
* `ResolverInput.transactionPkgDeps` — every turn is such a run.
-/
import Flappy.Prepare

open CStr

namespace Flappy

/-! ### The turns -/

/-- A turn of the loop: the position and the entry, the edges before it, and what the resolver
looked at and stored. -/
structure Turn where
  i : Nat
  pkgd : PkgDict
  edges : List Str
  looks : List Look
  stores : List StoreCall

/-- The turns of `prepareLoop`. -/
def prepareTurns (env : Env) : Nat → Nat → State → List Str → List Turn
  | 0, _, _, _ => []
  | n + 1, i, st, edges =>
    match st.packages[i]? with
    | none => []
    | some pkgd =>
      if pkgd.transaction = .remove ∨ pkgd.transaction = .hold then
        prepareTurns env n (i + 1) st edges
      else
        match transactionPkgDeps env st pkgd with
        | (st', looks, rv) =>
          ⟨i, pkgd, edges, looks, st'.stores.drop st.stores.length⟩ ::
            if rv = .ok then
              prepareTurns env n (i + 1)
                { st' with packages := st'.packages ++ [st'.refresh st.edits pkgd] }
                (edges ++ [pkgd.pkgver])
            else []

/-- The turns of `flappy_transaction_prepare`. -/
def State.turns (env : Env) (st : State) : List Turn :=
  prepareTurns env st.packages.length 0 st []

/-- An invariant of the loop: it has to be kept when an entry is passed over, and by a turn that
is as it should be. -/
theorem prepareLoop_inv {env : Env} {ok : Turn → Prop}
    {J : Nat → State → List Look → List Str → List Turn → Prop}
    (hskip : ∀ {i st looks edges turns pkgd}, st.packages[i]? = some pkgd →
      pkgd.transaction = .remove ∨ pkgd.transaction = .hold → J i st looks edges turns →
      J (i + 1) st looks edges turns)
    (hturn : ∀ {i st looks edges turns pkgd st' more}, st.packages[i]? = some pkgd →
      ¬(pkgd.transaction = .remove ∨ pkgd.transaction = .hold) →
      transactionPkgDeps env st pkgd = (st', more, .ok) →
      ok ⟨i, pkgd, edges, more, st'.stores.drop st.stores.length⟩ → J i st looks edges turns →
      J (i + 1) { st' with packages := st'.packages ++ [st'.refresh st.edits pkgd] }
        (looks ++ more) (edges ++ [pkgd.pkgver])
        (turns ++ [⟨i, pkgd, edges, more, st'.stores.drop st.stores.length⟩])) :
    ∀ {n i : Nat} {st st' : State} {looks looks' : List Look} {edges edges' : List Str}
      {turns : List Turn}, J i st looks edges turns →
      (∀ t ∈ prepareTurns env n i st edges, ok t) →
      prepareLoop env n i st looks edges = (st', looks', edges', .ok) →
      J (i + n) st' looks' edges' (turns ++ prepareTurns env n i st edges) := by
  intro n
  induction n with
  | zero =>
    intro i st st' looks looks' edges edges' turns hJ _ hrun
    simp only [prepareLoop, Prod.mk.injEq, and_true] at hrun
    obtain ⟨rfl, rfl, rfl⟩ := hrun
    rw [prepareTurns, List.append_nil]
    exact hJ
  | succ n ih =>
    intro i st st' looks looks' edges edges' turns hJ hok hrun
    rw [prepareLoop] at hrun
    rw [prepareTurns] at hok ⊢
    cases hi : st.packages[i]? with
    | none => simp [hi] at hrun
    | some pkgd =>
      simp only [hi] at hrun hok ⊢
      have hstep : i + (n + 1) = i + 1 + n := by omega
      rw [hstep]
      by_cases htype : pkgd.transaction = .remove ∨ pkgd.transaction = .hold
      · simp only [if_pos htype] at hrun hok ⊢
        exact ih (hskip hi htype hJ) hok hrun
      · simp only [if_neg htype] at hrun hok ⊢
        cases hdeps : transactionPkgDeps env st pkgd with
        | mk st₁ rest =>
          obtain ⟨more, rv⟩ := rest
          simp only [hdeps] at hrun hok ⊢
          cases rv with
          | ok =>
            simp only [if_true, List.forall_mem_cons] at hrun hok ⊢
            -- the turn is made, and the rest of the loop has it among its turns
            have hnext := ih (hturn hi htype hdeps hok.1 hJ) hok.2 hrun
            rwa [List.append_assoc] at hnext
          | err e => simp at hrun
          | abort => simp at hrun

/-! ### The entries up to their dependencies -/

/-- A dictionary without its `run_depends` array. -/
def PkgDict.bare (d : PkgDict) : PkgDict := { d with runDepends := none }

theorem PkgDict.of_bare_eq {d d' : PkgDict} (h : d.bare = d'.bare) :
    d.pkgver = d'.pkgver ∧ d.pkgname = d'.pkgname ∧ d.transaction = d'.transaction := by
  cases d
  cases d'
  simp only [PkgDict.bare, PkgDict.mk.injEq] at h
  simp [h]

/-- Between two stores the array changes at most in the `run_depends` of its entries, which lose
entries. -/
structure Quiet (st st' : State) : Prop where
  packages : st'.packages.map PkgDict.bare = st.packages.map PkgDict.bare
  stores : st'.stores = st.stores
  deps : List.Forall₂ (fun e e' : PkgDict => e'.runDepends.getD [] ⊆ e.runDepends.getD [])
    st.packages st'.packages

theorem Quiet.of_packages {st st' : State} (h : st'.packages = st.packages)
    (hs : st'.stores = st.stores) : Quiet st st' :=
  ⟨by rw [h], hs, h ▸ List.forall₂_same.mpr fun _ _ => List.Subset.refl _⟩

theorem Quiet.refl (st : State) : Quiet st st := .of_packages rfl rfl

theorem Quiet.trans {a b c : State} (h : Quiet a b) (h' : Quiet b c) : Quiet a c := by
  refine ⟨h'.packages.trans h.packages, h'.stores.trans h.stores, ?_⟩
  obtain ⟨hlen, hget⟩ := List.forall₂_iff_get.mp h.deps
  obtain ⟨hlen', hget'⟩ := List.forall₂_iff_get.mp h'.deps
  refine List.forall₂_iff_get.mpr ⟨hlen.trans hlen', fun i hi hi' => ?_⟩
  exact List.Subset.trans (hget' i (hlen ▸ hi) hi') (hget i hi (hlen ▸ hi))

theorem Looked.quiet {env : Env} {st st' : State} (h : Looked env st st') : Quiet st st' :=
  .of_packages h.packages h.stores

theorem State.removeRunDepend_quiet (st : State) (id : Nat) (dep : Str) :
    Quiet st (st.removeRunDepend id dep) := by
  rw [State.removeRunDepend.eq_def]
  split
  · refine ⟨?_, rfl, ?_⟩
    · show (st.packages.map (dropRunDepend id dep)).map PkgDict.bare = _
      rw [List.map_map]
      refine List.map_congr_left fun d _ => ?_
      rw [Function.comp_apply, dropRunDepend]
      split
      · rfl
      · rfl
    · show List.Forall₂ _ st.packages (st.packages.map (dropRunDepend id dep))
      exact List.forall₂_map_right_iff.mpr
        (List.forall₂_same.mpr fun d _ => runDepends_dropRunDepend id dep d)
  · exact Quiet.refl st

theorem State.bare_refresh (st : State) (edits : List Nat) (pkgd : PkgDict) :
    (st.refresh edits pkgd).bare = pkgd.bare := by
  rw [st.refresh_eq edits pkgd]
  rfl

/-- A store leads from one state to another. -/
def Stores (st : State) (c : StoreCall) (st' : State) : Prop :=
  c.pkgs = st.packages ∧ st'.stores = st.stores ++ [c] ∧
    ∃ autoinst orig, transactionStore st.packages c.pkgrd autoinst = some (st'.packages, orig)

theorem State.store_stores {st st' : State} {ref : PkgRef} {d : PkgDict} {autoinst : Bool}
    (h : st.store ref d autoinst = (st', .ok)) : Stores st ⟨st.packages, d⟩ st' := by
  rw [State.store] at h
  cases hs : transactionStore st.packages d autoinst with
  | none => simp [hs] at h
  | some r =>
    obtain ⟨packages, d'⟩ := r
    have hl := st.findPkg_looked { repoOpen := fun _ => none } (d.pkgname.getD []) .unknown
    simp only [hs, Prod.mk.injEq, and_true] at h
    obtain rfl := h
    refine ⟨rfl, ?_, autoinst, d', hs⟩
    show (st.findPkg _ .unknown).1.stores ++
      [(⟨(st.findPkg _ .unknown).1.packages, d⟩ : StoreCall)] = _
    rw [hl.stores, hl.packages]

theorem State.storePkgdb_stores {st st' : State} {pkgd : PkgDict} {ttype : TransType}
    {autoinst : Bool} (h : st.storePkgdb pkgd ttype autoinst = (st', .ok)) :
    Stores st ⟨st.packages, { pkgd with transaction := ttype }⟩ st' := by
  rw [State.storePkgdb] at h
  simp only at h
  cases hs : transactionStore st.packages { pkgd with transaction := ttype } autoinst with
  | none => simp [hs] at h
  | some r =>
    obtain ⟨packages, d'⟩ := r
    have hl := st.findPkg_looked { repoOpen := fun _ => none } (pkgd.pkgname.getD []) .unknown
    simp only [hs, Prod.mk.injEq, and_true] at h
    obtain rfl := h
    refine ⟨rfl, ?_, autoinst, d', hs⟩
    show (st.findPkg _ .unknown).1.stores ++
      [(⟨(st.findPkg _ .unknown).1.packages, _⟩ : StoreCall)] = _
    rw [hl.stores, hl.packages]

/-- What a store does to the array. -/
theorem Stores.call {st st' : State} {c : StoreCall} (h : Stores st c st') :
    ∃ pkgname autoinst,
      (c.found = none ∧ st'.packages = st.packages ++ [storedCopy c.pkgrd pkgname autoinst]) ∨
        (∃ d, c.found = some d ∧ c.replaced = none ∧ st'.packages = st.packages) ∨
        ∃ d, c.found = some d ∧ c.replaced = some d ∧ st'.packages =
          removePkgFromArrayByPkgver st.packages d.pkgver ++
            [storedCopy c.pkgrd pkgname autoinst] := by
  obtain ⟨hpkgs, -, autoinst, orig, hstore⟩ := h
  obtain ⟨pkgs, pkgrd⟩ := c
  obtain rfl : pkgs = st.packages := hpkgs
  obtain ⟨pkgname, -, hcases⟩ := transactionStore_call hstore
  exact ⟨pkgname, autoinst, hcases⟩

/-! ### Names -/

/-- A dictionary of a repository: it may get the name in its pkgver, and that is a plain one. -/
def PoolNamed (d : PkgDict) : Prop :=
  NameOk d ∧ ∃ n, pkgName d.pkgver = some n ∧ request n = .pkgname

/-- The packages of the repositories and of the database have plain names. -/
structure PlainInput (env : Env) (xhp : Handle) : Prop where
  fresh : ∀ d, env.Fresh d → PoolNamed d
  db : ∀ p ∈ xhp.pkgdb.values, PlainNamed p

/-- What holds in every state of a session and of the loop. -/
abbrev PlainInv (xhp : Handle) (st : State) : Prop := DictInv xhp PoolNamed PlainNamed st

theorem PoolNamed.evolves {d d' : PkgDict} (h : PoolNamed d) (he : Evolves d d') :
    PoolNamed d' := by
  obtain ⟨n, hn, hreq⟩ := h.2
  exact ⟨h.1.evolves he, n, he.pkgver.symm ▸ hn, hreq⟩

theorem PoolNamed.plainNamed {d : PkgDict} (h : PoolNamed d) {pkgname : Str}
    (hn : d.pkgname = some pkgname) : PlainNamed d := by
  obtain ⟨n, hver, hreq⟩ := h.2
  have hname := h.1 pkgname hn
  obtain rfl := Option.some.inj (hver.symm.trans hname)
  exact ⟨n, hn, hver, hreq⟩

theorem PlainNamed.congr {d d' : PkgDict} (h : PlainNamed d) (hver : d'.pkgver = d.pkgver)
    (hname : d'.pkgname = d.pkgname) : PlainNamed d' := by
  obtain ⟨n, hn, hv, hreq⟩ := h
  exact ⟨n, hname.trans hn, hver.symm ▸ hv, hreq⟩

/-- The installed packages have plain names in every later state. -/
theorem PlainInput.installed {env : Env} {xhp xhp' : Handle} (hin : PlainInput env xhp)
    (h : SameDb xhp xhp') {p : PkgDict} (hp : p ∈ xhp'.pkgdb.values) : PlainNamed p := by
  obtain ⟨k, hk⟩ := Dict.mem_values_iff.mp hp
  obtain ⟨p', hp', hc⟩ := h.get_some hk
  obtain ⟨hver, hname, -⟩ := PkgDict.of_core_eq hc
  exact (hin.db p' (Dict.mem_values_of_get hp')).congr hver.symm hname.symm

theorem PlainInput.rule {env : Env} {xhp : Handle} (hin : PlainInput env xhp) :
    DictRule env xhp true (fun _ => True) (fun _ => True) PoolNamed PlainNamed where
  fresh := hin.fresh _
  evolves := PoolNamed.evolves
  runDepends _ h := h
  installed _ hdb hp _ _ := (hin.installed hdb hp).congr rfl rfl
  found {c st₁ found d} _ _ _ _ _ h := by
    obtain ⟨n, hn, hreq⟩ := h.2
    refine ⟨fun m hm => ?_, n, ?_, hreq⟩
    · rw [respect_pkgver]
      exact h.1 m ((respect_pkgname found.pkgPkgdb d).symm.trans hm)
    · rw [respect_pkgver]
      exact hn
  queued {c st₁ found d ttype state pkgname} _ _ _ _ _ h _ hn :=
    (h.plainNamed hn).congr (respect_pkgver found.pkgPkgdb d) (respect_pkgname found.pkgPkgdb d)
  resolved _ _ _ _ _ _ _ h hn := (h.plainNamed hn).congr rfl rfl

/-- What is known of the dictionaries: those of the repositories have the property `P` and the
entries the property `Q` all along, and what the resolver stores has the property `R`. -/
structure ResolverInput (env : Env) (xhp : Handle) (P Q R : PkgDict → Prop) : Prop where
  rule : DictRule env xhp true (fun _ => True) (fun _ => True) P Q
  stored : ∀ {d : PkgDict} {pkgname : Str} (ttype : TransType), P d → d.pkgname = some pkgname →
    R { d with transaction := ttype }
  configured : ∀ {xhp' : Handle} {p : PkgDict} (ttype : TransType), SameDb xhp xhp' →
    p ∈ xhp'.pkgdb.values → R { p with transaction := ttype }

theorem PlainInput.resolver {env : Env} {xhp : Handle} (hin : PlainInput env xhp) :
    ResolverInput env xhp PoolNamed PlainNamed PlainNamed :=
  ⟨hin.rule, fun _ h hn => (h.plainNamed hn).congr rfl rfl,
    fun _ hdb hp => (hin.installed hdb hp).congr rfl rfl⟩

/-- Nothing needs to be known. -/
theorem ResolverInput.any (env : Env) (xhp : Handle) :
    ResolverInput env xhp (fun _ => True) (fun _ => True) (fun _ => True) := by
  constructor
  · constructor <;> intros <;> exact True.intro
  · intros
    exact True.intro
  · intros
    exact True.intro

section Runs

variable {P Q R : PkgDict → Prop}

/-! ### The runs of the resolver -/

/-- The queued package, or else the entry of the transaction, that makes a dependency
superfluous. -/
def Look.answer (l : Look) : Option PkgDict :=
  (findAnyInArray l.st.xhp l.queued l.reqpkg).or
    ((findAnyInArray l.st.xhp l.st.packages l.reqpkg).filter fun d => isQueuedEntry (some d))

/-- The package of the transaction that a dependency resolves to: the one that is there, or the
one that is put there. -/
def Look.target (env : Env) (l : Look) : Option Str :=
  match depName l.reqpkg with
  | none => none
  | some pkgname =>
    if pkgIsIgnored l.st.xhp pkgname ∨ matchVirtualPkgInDict l.pkgRepod l.reqpkg then none
    else
      match l.answer with
      | some d => some d.pkgver
      | none =>
        match depInstalled l.st l.queued l.pkgRepod l.reqpkg with
        | (_, .configure curpkgd) => some curpkgd.pkgver
        | (st, .resolve curpkgd _ _) =>
          match depLookup env st curpkgd l.reqpkg with
          | (st, some ref) =>
            ((st.pool.get ref).map PkgDict.pkgver).filter fun pkgver =>
              pkgName pkgver ≠ pkgName l.pkgRepod.pkgver
          | (_, none) => none
        | (_, .fail _) | (_, .skip) | (_, .missing) => none

/-- The runs of `repo_deps` that succeed, for the package `p`: they come along a dependency, and
nothing is stored; or an installed package is stored to be configured; or a package is stored
after the run for its own dependencies. -/
inductive DepsRun (env : Env) (R : PkgDict → Prop) : PkgDict → Resolver → Resolver → Prop where
  | done {p : PkgDict} {r : Resolver} : DepsRun env R p r r
  | quiet {p : PkgDict} {r r' : Resolver} {l : Look} {st : State} :
      l.st = r.st → l.queued = r.queued → l.pkgRepod = p → Quiet r.st st →
      (∀ v, l.target env = some v → ∃ d, l.answer = some d ∧ d.pkgver = v) →
      DepsRun env R p ⟨st, r.queued, r.looks ++ [l]⟩ r' → DepsRun env R p r r'
  | configured {p : PkgDict} {r r' : Resolver} {l : Look} {st st' : State} {c : StoreCall} :
      l.st = r.st → l.queued = r.queued → l.pkgRepod = p → Quiet r.st st → Stores st c st' →
      R c.pkgrd → c.pkgrd.transaction = .configure →
      l.target env = some c.pkgrd.pkgver →
      DepsRun env R p ⟨st', r.queued, r.looks ++ [l]⟩ r' → DepsRun env R p r r'
  | stored {p d : PkgDict} {r r₁ r' : Resolver} {l : Look} {st st' : State} {c : StoreCall} :
      l.st = r.st → l.queued = r.queued → l.pkgRepod = p → Quiet r.st st →
      DepsRun env R d ⟨st, r.queued ++ [d], r.looks ++ [l]⟩ r₁ → Stores r₁.st c st' →
      R c.pkgrd → c.pkgrd.pkgver = d.pkgver → l.target env = some d.pkgver →
      (c.pkgrd.runDepends.getD [] = [] ∨ ∃ l' ∈ r₁.looks, l'.pkgRepod.pkgver = d.pkgver) →
      ((∀ l' ∈ r₁.looks, l'.itself env = false) → ∀ dep ∈ c.pkgrd.runDepends.getD [],
        ∃ l' ∈ r₁.looks, l'.pkgRepod.pkgver = d.pkgver ∧ l'.reqpkg = dep) →
      DepsRun env R p ⟨st', r.queued, r₁.looks⟩ r' → DepsRun env R p r r'

/-- What is known of a dependency for which something is done. -/
theorem depInstalled_passes {st st' : State} {queued : List PkgDict} {pkgRepod : PkgDict}
    {reqpkg : Str} {action : DepAction}
    (h : depInstalled st queued pkgRepod reqpkg = (st', action)) (hskip : action ≠ .skip)
    (hfail : ∀ rv, action ≠ .fail rv) :
    ∃ pkgname, depName reqpkg = some pkgname ∧ pkgIsIgnored st.xhp pkgname = false ∧
      matchVirtualPkgInDict pkgRepod reqpkg = false ∧ findAnyInArray st.xhp queued reqpkg = none ∧
      isQueuedEntry (findAnyInArray st.xhp st.packages reqpkg) = false := by
  rw [depInstalled] at h
  cases hn : depName reqpkg with
  | none =>
    simp only [hn, Prod.mk.injEq] at h
    exact absurd h.2.symm (hfail _)
  | some pkgname =>
    simp only [hn] at h
    -- the first four passes skip the dependency
    split at h
    · exact absurd (Prod.mk.inj h).2.symm hskip
    · next hign =>
      split at h
      · exact absurd (Prod.mk.inj h).2.symm hskip
      · next hown =>
        split at h
        · exact absurd (Prod.mk.inj h).2.symm hskip
        · next hqueued =>
          split at h
          · exact absurd (Prod.mk.inj h).2.symm hskip
          · next hentry =>
            exact ⟨pkgname, rfl, by simpa using hign, by simpa using hown, by simpa using hqueued,
              by simpa using hentry⟩

/-- What a dependency resolves to, when something is done for it. -/
theorem Look.target_eq {env : Env} {l : Look} {st : State} {action : DepAction}
    (h : depInstalled l.st l.queued l.pkgRepod l.reqpkg = (st, action)) (hskip : action ≠ .skip)
    (hfail : ∀ rv, action ≠ .fail rv) :
    l.target env =
      match action with
      | .configure curpkgd => some curpkgd.pkgver
      | .resolve curpkgd _ _ =>
        match depLookup env st curpkgd l.reqpkg with
        | (st, some ref) =>
          ((st.pool.get ref).map PkgDict.pkgver).filter fun pkgver =>
            pkgName pkgver ≠ pkgName l.pkgRepod.pkgver
        | (_, none) => none
      | .fail _ | .skip | .missing => none := by
  obtain ⟨pkgname, hn, hign, hown, hqueued, hentry⟩ := depInstalled_passes h hskip hfail
  have hanswer : l.answer = none := by
    rw [Look.answer, hqueued, Option.none_or]
    cases hf : findAnyInArray l.st.xhp l.st.packages l.reqpkg with
    | none => rfl
    | some d =>
      rw [hf] at hentry
      exact Option.filter_some_neg hentry
  simp only [Look.target, hn, hign, hown, hanswer, h, Bool.false_eq_true, or_self, if_false]
  cases action <;> rfl

/-- What a dependency resolves to, when nothing is done for it. -/
theorem Look.target_quiet {env : Env} {l : Look}
    (h : ∀ st action, depInstalled l.st l.queued l.pkgRepod l.reqpkg = (st, action) →
      action = .skip ∨ (∃ rv, action = .fail rv) ∨ action = .missing) {v : Str}
    (hv : l.target env = some v) : ∃ d, l.answer = some d ∧ d.pkgver = v := by
  rw [Look.target] at hv
  cases hn : depName l.reqpkg with
  | none => simp [hn] at hv
  | some pkgname =>
    simp only [hn] at hv
    split at hv
    · cases hv
    · cases ha : l.answer with
      | some d =>
        simp only [ha, Option.some.injEq] at hv
        exact ⟨d, rfl, hv⟩
      | none =>
        cases hd : depInstalled l.st l.queued l.pkgRepod l.reqpkg with
        | mk st action =>
          simp only [ha, hd] at hv
          rcases h st action hd with rfl | ⟨rv, rfl⟩ | rfl
          · cases hv
          · cases hv
          · cases hv

/-- What is known of the recursive call. -/
structure CallRuns (env : Env) (xhp : Handle) (P Q R : PkgDict → Prop)
    (call : Resolver → PkgDict → Resolver × Rv) :
    Prop where
  leads : ∀ r d, Resolver.Leads env (fun _ => True) (DictInv xhp P Q) r (call r d).1
  run : ∀ {r r₁ d}, call r d = (r₁, .ok) → DictInv xhp P Q r.st →
    DepsRun env R d r r₁ ∧ r₁.queued = r.queued
  looks : ∀ {r r₁ d}, call r d = (r₁, .ok) → d.runDepends.getD [] ≠ [] →
    ∃ l ∈ r₁.looks, l.pkgRepod = d
  examines : ∀ {r r₁ d}, call r d = (r₁, .ok) → (∀ l ∈ r₁.looks, l.itself env = false) →
    ∀ dep ∈ d.runDepends.getD [], ∃ l ∈ r₁.looks, l.pkgRepod = d ∧ l.reqpkg = dep

/-- The end of the loop body. -/
theorem depStore_run {env : Env} {xhp : Handle} (hin : ResolverInput env xhp P Q R)
    {r r' : Resolver} {ref : PkgRef}
    {curpkgd : Option PkgDict} {ttype : TransType} {autoinst : Bool} {d : PkgDict}
    (hr : DictInv xhp P Q r.st) (hd : r.st.pool.get ref = some d)
    (h : depStore r ref curpkgd ttype autoinst = (r', .ok)) :
    ∃ c, Stores r.st c r'.st ∧ R c.pkgrd ∧ c.pkgrd.pkgver = d.pkgver ∧
      c.pkgrd.runDepends = d.runDepends ∧ r'.queued = r.queued.dropLast ∧ r'.looks = r.looks := by
  rw [depStore] at h
  simp only [hd] at h
  split at h
  · cases h
  · generalize hs : r.st.store ref { d with transaction := depType r.st.xhp curpkgd ttype }
      autoinst = s at h
    obtain ⟨st, rv⟩ := s
    simp only [Prod.mk.injEq] at h
    obtain ⟨rfl, rfl⟩ := h
    have hstores := State.store_stores hs
    refine ⟨_, hstores, ?_, rfl, rfl, rfl, rfl⟩
    -- the store succeeds, so the dictionary has a name
    obtain ⟨-, -, _, _, hstore⟩ := hstores
    obtain ⟨pkgname, hn, -⟩ := transactionStore_call hstore
    exact hin.stored _ (hr.pool ref d hd) hn

/-- The run for the dependencies of `d`, if there are any. -/
theorem CallRuns.below {env : Env} {xhp : Handle}
    {call : Resolver → PkgDict → Resolver × Rv} (hcall : CallRuns env xhp P Q R call) {st : State}
    {queued : List PkgDict} {looks : List Look} {r : Resolver} {ref : PkgRef} {d : PkgDict}
    (hst : DictInv xhp P Q st) (hd : st.pool.get ref = some d)
    (h : depBelow call ⟨st, queued, looks⟩ d = (r, .ok)) :
    DepsRun env R d ⟨st, queued, looks⟩ r ∧ r.queued = queued ∧ DictInv xhp P Q r.st ∧
      ∃ d', r.st.pool.get ref = some d' ∧ Evolves d d' ∧
        (d'.runDepends.getD [] = [] ∨ ∃ l ∈ r.looks, l.pkgRepod = d) ∧
        ((∀ l ∈ r.looks, l.itself env = false) → ∀ dep ∈ d.runDepends.getD [],
          ∃ l ∈ r.looks, l.pkgRepod = d ∧ l.reqpkg = dep) := by
  rw [depBelow] at h
  split at h
  · next hnil =>
    simp only [Prod.mk.injEq, and_true] at h
    obtain rfl := h
    refine ⟨DepsRun.done, rfl, hst, d, hd, Evolves.refl d, Or.inl hnil, fun _ dep hdep => ?_⟩
    rw [hnil] at hdep
    cases hdep
  · next hne =>
    have hleads := hcall.leads ⟨st, queued, looks⟩ d
    rw [h] at hleads
    obtain ⟨d', hd', hev⟩ := hleads.later.pool.kept ref d hd
    obtain ⟨hrun, hq⟩ := hcall.run h hst
    exact ⟨hrun, hq, hleads.inv (fun _ _ => trivial) hst, d', hd', hev,
      Or.inr (hcall.looks h hne), hcall.examines h⟩

/-- A dependency that is looked for in the repositories. -/
theorem depResolve_run {env : Env} {xhp : Handle} (hin : ResolverInput env xhp P Q R)
    {call : Resolver → PkgDict → Resolver × Rv} (hcall : CallRuns env xhp P Q R call)
    {r r' : Resolver}
    {l : Look} {st : State} {pkgRepod : PkgDict} {rdeps rdeps' : Option Nat}
    {curpkgd : Option PkgDict} {ttype : TransType} {autoinst : Bool} (hst : l.st = r.st)
    (hqueued : l.queued = r.queued) (hp : l.pkgRepod = pkgRepod) (hr : DictInv xhp P Q r.st)
    (hi : depInstalled l.st l.queued l.pkgRepod l.reqpkg =
      (st, .resolve curpkgd ttype autoinst)) (hlooked : Looked env r.st st)
    (h : depResolve env call ⟨st, r.queued, r.looks ++ [l]⟩ pkgRepod rdeps l.reqpkg curpkgd ttype
      autoinst = (r', rdeps', .ok)) :
    r'.queued = r.queued ∧ ∀ r'', DepsRun env R pkgRepod r' r'' → DepsRun env R pkgRepod r r'' := by
  have htarget : l.target env = _ := l.target_eq hi (by simp) (by simp)
  simp only at htarget
  have hk := depLookup_spec env st curpkgd l.reqpkg
  have hres := depResolve_cases env call ⟨st, r.queued, r.looks ++ [l]⟩ pkgRepod rdeps l.reqpkg
    curpkgd ttype autoinst
  rw [h] at hres
  generalize hrv : Rv.ok = rv at hres
  generalize hout : (r', rdeps', rv) = res at hres
  cases hres with
  | failed _ _ | unnamed _ _ | nullDeps _ _ _ _ _ | updating _ _ _ _ _ _ => simp [← hrv] at hout
  | below _ _ _ _ _ _ _ hne =>
    cases hout
    exact absurd hrv.symm hne
  | @missing st₂ h' =>
    cases hout
    replace h' : depLookup env st curpkgd l.reqpkg = (st₂, none) := h'
    rw [h'] at hk htarget
    have hlook := hlooked.trans hk.1
    refine ⟨rfl, fun r'' hrun => ?_⟩
    have hmissing : Quiet r.st { st₂ with
        missingDeps := addMissingReqdep st₂.missingDeps l.reqpkg } :=
      .of_packages hlook.packages hlook.stores
    refine DepsRun.quiet hst hqueued hp hmissing (fun v hv => ?_) hrun
    rw [htarget] at hv
    cases hv
  | @itself st₂ ref d pkgname id h' hd hn hn' _ =>
    -- the entry is dropped from the depending package, which leaves the transaction as it is
    cases hout
    replace h' : depLookup env st curpkgd l.reqpkg = (st₂, some ref) := h'
    rw [h'] at hk htarget
    simp only at htarget
    refine ⟨rfl, fun r'' hrun => ?_⟩
    refine DepsRun.quiet hst hqueued hp
      ((hlooked.trans hk.1).quiet.trans (st₂.removeRunDepend_quiet id l.reqpkg))
      (fun v hv => ?_) hrun
    rw [htarget, hd, Option.map_some, hp, Option.filter_some_neg (by simp [hn, hn'])] at hv
    cases hv
  | @stored st₂ st₃ ref d reqpkgname pkgname r₁ h' hd hn hn' hself hu hb =>
    -- the dictionaries the pool holds are those from before the search for a queued update
    replace h' : depLookup env st curpkgd l.reqpkg = (st₂, some ref) := h'
    rw [h'] at hk htarget
    simp only at htarget
    rw [hd, Option.map_some, hp,
      Option.filter_some_pos (by simp [hn, hn', Ne.symm hself])] at htarget
    obtain ⟨hul, hkept⟩ := updateLookup_looked env hu
    have hlook := (hlooked.trans hk.1).trans hul
    obtain ⟨hrun, hq₁, hinv₁, d₃, hd₃, hev, hdeps, hexamines⟩ :=
      hcall.below (hin.rule.looked hlook hr) ((hkept ref).trans hd) hb
    generalize hs : depStore r₁ ref curpkgd ttype autoinst = s at hout
    obtain ⟨r₂, rv₂⟩ := s
    cases hout
    replace hs : depStore r₁ ref curpkgd ttype autoinst = (r₂, .ok) :=
      hs.trans (congrArg (Prod.mk r₂) hrv.symm)
    obtain ⟨c, hstores, hplain, hcver, hcdeps, hq₂, hlooks₂⟩ := depStore_run hin hinv₁ hd₃ hs
    rw [hq₁, List.dropLast_concat] at hq₂
    refine ⟨hq₂, fun r'' hrest => ?_⟩
    refine DepsRun.stored hst hqueued hp hlook.quiet hrun hstores hplain (hcver.trans hev.pkgver)
      htarget ?_ (fun hok dep hdep => ?_) ?_
    · rw [hcdeps]
      refine hdeps.imp_right ?_
      rintro ⟨l', hl', rfl⟩
      exact ⟨l', hl', rfl⟩
    · rw [hcdeps] at hdep
      obtain ⟨l', hl', rfl, hreq⟩ := hexamines hok dep (hev.runDepends hdep)
      exact ⟨l', hl', rfl, hreq⟩
    · rw [← hq₂, ← hlooks₂]
      exact hrest

/-- The loop body, at the place `l`. -/
theorem depStep_run {env : Env} {xhp : Handle} (hin : ResolverInput env xhp P Q R)
    {call : Resolver → PkgDict → Resolver × Rv} (hcall : CallRuns env xhp P Q R call)
    {r r' : Resolver}
    {l : Look} {rdeps rdeps' : Option Nat} (hst : l.st = r.st) (hqueued : l.queued = r.queued)
    (hr : DictInv xhp P Q r.st)
    (h : depStep env call { r with looks := r.looks ++ [l] } l.pkgRepod rdeps l.reqpkg =
      (r', rdeps', .ok)) :
    r'.queued = r.queued ∧
      ∀ r'', DepsRun env R l.pkgRepod r' r'' → DepsRun env R l.pkgRepod r r'' := by
  -- what the installed packages say is quiet: nothing is stored
  obtain ⟨hi, hdb⟩ := depInstalled_spec env r.st r.queued l.pkgRepod l.reqpkg
  rw [depStep] at h
  cases hd : depInstalled r.st r.queued l.pkgRepod l.reqpkg with
  | mk st action =>
    have hd' : depInstalled l.st l.queued l.pkgRepod l.reqpkg = (st, action) := by
      rw [hst, hqueued]
      exact hd
    simp only [hd] at h hi hdb
    cases action with
    | fail rv =>
      simp only [Prod.mk.injEq] at h
      obtain ⟨rfl, rfl, rfl⟩ := h
      refine ⟨rfl, fun r'' hrun => DepsRun.quiet hst hqueued rfl hi.quiet (fun v => ?_) hrun⟩
      refine Look.target_quiet fun st' action hd'' => ?_
      obtain ⟨-, rfl⟩ := Prod.mk.inj (hd'.symm.trans hd'')
      exact Or.inr (Or.inl ⟨_, rfl⟩)
    | skip =>
      simp only [Prod.mk.injEq, and_true] at h
      obtain ⟨rfl, rfl⟩ := h
      refine ⟨rfl, fun r'' hrun => DepsRun.quiet hst hqueued rfl hi.quiet (fun v => ?_) hrun⟩
      refine Look.target_quiet fun st' action hd'' => ?_
      obtain ⟨-, rfl⟩ := Prod.mk.inj (hd'.symm.trans hd'')
      exact Or.inl rfl
    | missing =>
      simp only [Prod.mk.injEq, and_true] at h
      obtain ⟨rfl, rfl⟩ := h
      have hmissing : Quiet r.st { st with
          missingDeps := addMissingReqdep st.missingDeps l.reqpkg } :=
        .of_packages hi.packages hi.stores
      refine ⟨rfl, fun r'' hrun => DepsRun.quiet hst hqueued rfl hmissing (fun v => ?_) hrun⟩
      refine Look.target_quiet fun st' action hd'' => ?_
      obtain ⟨-, rfl⟩ := Prod.mk.inj (hd'.symm.trans hd'')
      exact Or.inr (Or.inr rfl)
    | configure curpkgd =>
      simp only at h
      generalize hs : st.storePkgdb curpkgd .configure (curpkgd.automaticInstall.getD false) =
        s at h
      obtain ⟨st', rv⟩ := s
      simp only [Prod.mk.injEq] at h
      obtain ⟨rfl, -, rfl⟩ := h
      have hstored := hin.configured .configure hr.db (hdb curpkgd rfl)
      refine ⟨rfl, fun r'' hrun => ?_⟩
      exact DepsRun.configured hst hqueued rfl hi.quiet (State.storePkgdb_stores hs)
        hstored rfl (l.target_eq hd' (by simp) (by simp)) hrun
    | resolve curpkgd ttype autoinst =>
      exact depResolve_run hin hcall hst hqueued rfl hr hd' hi h

theorem depLoop_run {env : Env} {xhp : Handle} (hin : ResolverInput env xhp P Q R)
    {call : Resolver → PkgDict → Resolver × Rv} (hcall : CallRuns env xhp P Q R call) (depth : Nat)
    (pkgRepod : PkgDict) (edits : Nat) :
    ∀ {deps : List Str} {rdeps : Option Nat} {r r' : Resolver}, DictInv xhp P Q r.st →
      depLoop env call depth pkgRepod edits deps rdeps r = (r', .ok) →
      DepsRun env R pkgRepod r r' ∧ r'.queued = r.queued := by
  intro deps
  induction deps with
  | nil =>
    intro rdeps r r' _ h
    simp only [depLoop, Prod.mk.injEq, and_true] at h
    exact h ▸ ⟨DepsRun.done, rfl⟩
  | cons reqpkg deps ih =>
    intro rdeps r r' hr h
    rw [depLoop] at h
    split at h
    · simp only [Prod.mk.injEq, and_true] at h
      exact h ▸ ⟨DepsRun.done, rfl⟩
    · simp only at h
      generalize hs : depStep env call
        { r with looks := r.looks ++ [⟨r.st, r.queued, depth, pkgRepod, reqpkg⟩] } pkgRepod rdeps
        reqpkg = s at h
      obtain ⟨r₁, rdeps₁, rv⟩ := s
      cases rv with
      | ok =>
        simp only at h
        have hleads := hin.rule.prepareRule.depStepLeads hcall.leads depth pkgRepod reqpkg
          (show _ ∈ ({ r with looks := r.looks ++ [⟨r.st, r.queued, depth, pkgRepod, reqpkg⟩] } :
            Resolver).looks from List.mem_append_right _ List.mem_cons_self) rdeps
        simp only [hs] at hleads
        obtain ⟨hq, hstep⟩ :=
          @depStep_run P Q R env xhp hin call hcall r r₁
            ⟨r.st, r.queued, depth, pkgRepod, reqpkg⟩ _ _ rfl rfl hr hs
        obtain ⟨hrun, hq'⟩ := ih (hleads.inv (fun _ _ => trivial) hr) h
        exact ⟨hstep r' hrun, hq'.trans hq⟩
      | err e => simp at h
      | abort => simp at h

/-- The first dependency is always looked at. -/
theorem repoDeps_looks {env : Env} {xhp : Handle} (hin : ResolverInput env xhp P Q R) {n : Nat}
    {r r' : Resolver} {pkgRepod : PkgDict} (h : repoDeps env n r pkgRepod = (r', .ok))
    (hne : pkgRepod.runDepends.getD [] ≠ []) : ∃ l ∈ r'.looks, l.pkgRepod = pkgRepod := by
  cases n with
  | zero => simp [repoDeps] at h
  | succ n =>
    obtain ⟨reqpkg, deps, hdeps⟩ := List.exists_cons_of_ne_nil hne
    rw [repoDeps, hdeps, depLoop, if_neg (by simp)] at h
    simp only at h
    refine ⟨⟨r.st, r.queued, maxDepth - (n + 1), pkgRepod, reqpkg⟩, ?_, rfl⟩
    have hmem : (⟨r.st, r.queued, maxDepth - (n + 1), pkgRepod, reqpkg⟩ : Look) ∈
        ({ r with looks := r.looks ++
          [⟨r.st, r.queued, maxDepth - (n + 1), pkgRepod, reqpkg⟩] } : Resolver).looks :=
      List.mem_append_right _ List.mem_cons_self
    have hleads := hin.rule.prepareRule.depStepLeads (hin.rule.prepareRule.repoDepsLeads n)
      (maxDepth - (n + 1)) pkgRepod reqpkg hmem pkgRepod.rdeps
    generalize hs : depStep env (repoDeps env n) { r with looks := r.looks ++
      [⟨r.st, r.queued, maxDepth - (n + 1), pkgRepod, reqpkg⟩] } pkgRepod pkgRepod.rdeps
      reqpkg = s at h hleads
    obtain ⟨r₁, rdeps₁, rv⟩ := s
    cases rv with
    | ok =>
      simp only at h
      have hrest := hin.rule.prepareRule.depLoopLeads (hin.rule.prepareRule.repoDepsLeads n)
        (maxDepth - (n + 1)) pkgRepod (r.st.edits.count pkgRepod.runDependsId) deps rdeps₁ r₁
      rw [h] at hrest
      exact hrest.looks (hleads.looks hmem)
    | err e => simp at h
    | abort => simp at h

/-- Where no package is found to depend on itself, no array changes. -/
theorem editsRule (env : Env) (edits : List Nat) :
    ResolverRule env (fun l => l.itself env = false) fun st => st.edits = edits where
  looked hl h := hl.edits.trans h
  missing h := h
  configure _ _ _ h := (State.storePkgdb_edits _ _ _ _).trans h
  remove hok hitself _ := by
    rw [hok] at hitself
    cases hitself
  store _ _ _ _ _ _ _ h := (State.store_spec _ _ _ _).2.2.1.trans h

/-- The loop goes on to the end where no package is found to depend on itself. -/
theorem depLoop_examines {env : Env} {call : Resolver → PkgDict → Resolver × Rv}
    {edits : List Nat}
    (hcall : ∀ r d, Resolver.Leads env (fun l => l.itself env = false)
      (fun st => st.edits = edits) r (call r d).1) (depth : Nat) (pkgRepod : PkgDict) :
    ∀ {deps : List Str} {rdeps : Option Nat} {r r' : Resolver}, r.st.edits = edits →
      depLoop env call depth pkgRepod (edits.count pkgRepod.runDependsId) deps rdeps r =
        (r', .ok) →
      (∀ l ∈ r'.looks, l.itself env = false) →
      ∀ dep ∈ deps, ∃ l ∈ r'.looks, l.pkgRepod = pkgRepod ∧ l.reqpkg = dep := by
  intro deps
  induction deps with
  | nil => exact fun _ _ _ dep hdep => by cases hdep
  | cons reqpkg deps ih =>
    intro rdeps r r' hedits h hok
    rw [depLoop, if_neg (by simp [hedits])] at h
    simp only at h
    have hmem : (⟨r.st, r.queued, depth, pkgRepod, reqpkg⟩ : Look) ∈
        ({ r with looks := r.looks ++ [⟨r.st, r.queued, depth, pkgRepod, reqpkg⟩] } :
          Resolver).looks := List.mem_append_right _ List.mem_cons_self
    have hstep := (editsRule env edits).depStepLeads hcall depth pkgRepod reqpkg hmem rdeps
    generalize hs : depStep env call
      { r with looks := r.looks ++ [⟨r.st, r.queued, depth, pkgRepod, reqpkg⟩] } pkgRepod rdeps
      reqpkg = s at h hstep
    obtain ⟨r₁, rdeps₁, rv⟩ := s
    cases rv with
    | ok =>
      simp only at h
      have hrest := (editsRule env edits).depLoopLeads hcall depth pkgRepod
        (edits.count pkgRepod.runDependsId) deps rdeps₁ r₁
      rw [h] at hrest
      have hedits₁ := hstep.inv (fun l hl => hok l (hrest.looks hl)) hedits
      intro dep hdep
      rcases List.mem_cons.mp hdep with rfl | hdep
      · exact ⟨_, hrest.looks (hstep.looks hmem), rfl, rfl⟩
      · exact ih hedits₁ h hok dep hdep
    | err e => simp at h
    | abort => simp at h

/-- Where no package is found to depend on itself, every dependency is looked at. -/
theorem repoDeps_examines {env : Env} {n : Nat} {r r' : Resolver} {pkgRepod : PkgDict}
    (h : repoDeps env n r pkgRepod = (r', .ok)) (hok : ∀ l ∈ r'.looks, l.itself env = false) :
    ∀ dep ∈ pkgRepod.runDepends.getD [],
      ∃ l ∈ r'.looks, l.pkgRepod = pkgRepod ∧ l.reqpkg = dep := by
  cases n with
  | zero => simp [repoDeps] at h
  | succ n =>
    rw [repoDeps] at h
    exact depLoop_examines ((editsRule env r.st.edits).repoDepsLeads n) _ pkgRepod rfl h hok

/-- A turn in which no package is found to depend on itself looks at every dependency, and no
array changes. -/
theorem transactionPkgDeps_examines {env : Env} {st st' : State} {pkgRepod : PkgDict}
    {more : List Look} (h : transactionPkgDeps env st pkgRepod = (st', more, .ok))
    (hok : ∀ l ∈ more, l.itself env = false) :
    st'.edits = st.edits ∧ ∀ dep ∈ pkgRepod.runDepends.getD [],
      ∃ l ∈ more, l.pkgRepod = pkgRepod ∧ l.reqpkg = dep := by
  have hleads := (editsRule env st.edits).repoDepsLeads maxDepth { st } pkgRepod
  rw [transactionPkgDeps] at h
  generalize hs : repoDeps env maxDepth { st } pkgRepod = s at h hleads
  obtain ⟨r, rv⟩ := s
  simp only [Prod.mk.injEq] at h
  obtain ⟨rfl, rfl, rfl⟩ := h
  exact ⟨hleads.inv hok rfl, repoDeps_examines hs hok⟩

/-- Every call of `repo_deps` that succeeds is a run. -/
theorem repoDeps_run {env : Env} {xhp : Handle} (hin : ResolverInput env xhp P Q R) :
    ∀ (n : Nat), CallRuns env xhp P Q R (repoDeps env n) := by
  intro n
  induction n with
  | zero =>
    exact ⟨hin.rule.prepareRule.repoDepsLeads 0, fun h => by simp [repoDeps] at h,
      fun h => by simp [repoDeps] at h, repoDeps_examines⟩
  | succ n ih =>
    refine ⟨hin.rule.prepareRule.repoDepsLeads (n + 1), fun h hr => ?_, fun h hne => ?_,
      repoDeps_examines⟩
    · rw [repoDeps] at h
      exact depLoop_run hin ih _ _ _ hr h
    · exact repoDeps_looks hin h hne

/-- A turn that succeeds is a run, and the invariant is kept. -/
theorem ResolverInput.transactionPkgDeps {env : Env} {xhp : Handle}
    (hin : ResolverInput env xhp P Q R) {st st' : State} {pkgRepod : PkgDict} {more : List Look}
    (hst : DictInv xhp P Q st) (h : Flappy.transactionPkgDeps env st pkgRepod = (st', more, .ok)) :
    DepsRun env R pkgRepod ⟨st, [], []⟩ ⟨st', [], more⟩ ∧ DictInv xhp P Q st' := by
  have hleads := hin.rule.prepareRule.repoDepsLeads maxDepth { st } pkgRepod
  rw [Flappy.transactionPkgDeps] at h
  generalize hs : repoDeps env maxDepth { st } pkgRepod = s at h hleads
  obtain ⟨r, rv⟩ := s
  simp only [Prod.mk.injEq] at h
  obtain ⟨rfl, rfl, rfl⟩ := h
  obtain ⟨hrun, hq⟩ := (repoDeps_run hin maxDepth).run hs hst
  refine ⟨?_, hleads.inv (fun _ _ => trivial) hst⟩
  have hr : r = ⟨r.st, [], r.looks⟩ := by
    cases r
    simp_all
  rwa [← hr]

/-! ### Invariants of the array -/

/-- An invariant that stores keep, if they are as they should be, and that does not see the
`run_depends` of the entries. -/
structure StoreRule (R : PkgDict → Prop) (ok : StoreCall → Prop) (K : State → Prop) : Prop where
  quiet : ∀ {st st' : State}, Quiet st st' → K st → K st'
  store : ∀ {st st' : State} {c : StoreCall}, Stores st c st' → R c.pkgrd → ok c →
    K st → K st'

/-- From one state to another, with these stores. -/
def StoreRule.Keeps (ok : StoreCall → Prop) (K : State → Prop) (st st' : State) : Prop :=
  ∃ new, st'.stores = st.stores ++ new ∧ ((∀ c ∈ new, ok c) → K st → K st')

theorem StoreRule.Keeps.trans {ok : StoreCall → Prop} {K : State → Prop} {a b c : State}
    (h : Keeps ok K a b) (h' : Keeps ok K b c) : Keeps ok K a c := by
  obtain ⟨new, hnew, hK⟩ := h
  obtain ⟨new', hnew', hK'⟩ := h'
  refine ⟨new ++ new', by rw [hnew', hnew, List.append_assoc], fun hok ha => ?_⟩
  rw [List.forall_mem_append] at hok
  exact hK' hok.2 (hK hok.1 ha)

theorem StoreRule.keeps_quiet {ok : StoreCall → Prop} {K : State → Prop} (rule : StoreRule R ok K)
    {st st' : State} (h : Quiet st st') : Keeps ok K st st' :=
  ⟨[], by rw [h.stores, List.append_nil], fun _ => rule.quiet h⟩

theorem StoreRule.keeps_store {ok : StoreCall → Prop} {K : State → Prop} (rule : StoreRule R ok K)
    {st st' : State} {c : StoreCall} (h : Stores st c st') (hc : R c.pkgrd) :
    Keeps ok K st st' :=
  ⟨[c], h.2.1, fun hok hK => rule.store h hc (hok c List.mem_cons_self) hK⟩

theorem StoreRule.keeps {ok : StoreCall → Prop} {K : State → Prop} (rule : StoreRule R ok K)
    {env : Env} {p : PkgDict} {r r' : Resolver} (h : DepsRun env R p r r') :
    Keeps ok K r.st r'.st := by
  induction h with
  | done => exact rule.keeps_quiet (Quiet.refl _)
  | quiet _ _ _ hq _ _ ih => exact (rule.keeps_quiet hq).trans ih
  | configured _ _ _ hq hs hc _ _ _ ih =>
    exact ((rule.keeps_quiet hq).trans (rule.keeps_store hs hc)).trans ih
  | stored _ _ _ hq _ hs hc _ _ _ _ _ ihcall ih =>
    exact (((rule.keeps_quiet hq).trans ihcall).trans (rule.keeps_store hs hc)).trans ih

theorem DepsRun.stores_append {env : Env} {p : PkgDict} {r r' : Resolver}
    (h : DepsRun env R p r r') : ∃ new, r'.st.stores = r.st.stores ++ new := by
  have rule : StoreRule R (fun _ => True) fun _ => True :=
    ⟨fun _ h => h, fun _ _ _ h => h⟩
  obtain ⟨new, hnew, -⟩ := rule.keeps h
  exact ⟨new, hnew⟩

theorem DepsRun.looks_subset {env : Env} {p : PkgDict} {r r' : Resolver}
    (h : DepsRun env R p r r') : ∀ l ∈ r.looks, l ∈ r'.looks := by
  induction h with
  | done => exact fun l hl => hl
  | quiet _ _ _ _ _ _ ih => exact fun l hl => ih l (List.mem_append_left _ hl)
  | configured _ _ _ _ _ _ _ _ _ ih => exact fun l hl => ih l (List.mem_append_left _ hl)
  | stored _ _ _ _ _ _ _ _ _ _ _ _ ihcall ih =>
    exact fun l hl => ih l (ihcall l (List.mem_append_left _ hl))

/-- One turn: the stores are those of the turn. -/
theorem StoreRule.turn {ok : StoreCall → Prop} {K : State → Prop} (rule : StoreRule R ok K)
    {env : Env} {xhp : Handle} (hin : ResolverInput env xhp P Q R) {st st' : State} {pkgd : PkgDict}
    {more : List Look} (hst : DictInv xhp P Q st)
    (h : transactionPkgDeps env st pkgd = (st', more, .ok))
    (hok : ∀ c ∈ st'.stores.drop st.stores.length, ok c) (hK : K st) : K st' := by
  obtain ⟨new, hnew, hkeeps⟩ := rule.keeps (hin.transactionPkgDeps hst h).1
  refine hkeeps (fun c hc => hok c ?_) hK
  rw [hnew, List.drop_left]
  exact hc

theorem Quiet.pkgvers {st st' : State} (h : Quiet st st') :
    st'.packages.map PkgDict.pkgver = st.packages.map PkgDict.pkgver := by
  have := congrArg (List.map PkgDict.pkgver) h.packages
  rwa [List.map_map, List.map_map] at this

/-- Where the entries behind some position come from. -/
theorem Quiet.origin {st st' : State} (h : Quiet st st') {n : Nat} {e' : PkgDict}
    (he : e' ∈ st'.packages.drop n) : ∃ e ∈ st.packages.drop n, e.bare = e'.bare ∧
      e'.runDepends.getD [] ⊆ e.runDepends.getD [] := by
  obtain ⟨hlen, hget⟩ := List.forall₂_iff_get.mp h.deps
  obtain ⟨i, hi, rfl⟩ := List.mem_iff_getElem.mp he
  rw [List.length_drop] at hi
  have hi' : i < (st.packages.drop n).length := by rw [List.length_drop, hlen]; exact hi
  refine ⟨_, List.getElem_mem hi', ?_, ?_⟩
  · have hbare := congrArg (fun l => l[n + i]?) h.packages
    simp only [List.getElem?_map] at hbare
    rw [List.getElem?_eq_getElem (by omega), List.getElem?_eq_getElem (by omega)] at hbare
    rw [List.getElem_drop, List.getElem_drop]
    exact (Option.some.inj hbare).symm
  · rw [List.getElem_drop, List.getElem_drop]
    exact hget (n + i) (by omega) (by omega)

theorem Quiet.plain {st st' : State} (h : Quiet st st') (hplain : ∀ e ∈ st.packages, PlainNamed e) :
    ∀ e ∈ st'.packages, PlainNamed e := by
  intro e he
  have hbare : e.bare ∈ st.packages.map PkgDict.bare := h.packages ▸ List.mem_map_of_mem he
  obtain ⟨e₀, he₀, heq⟩ := List.mem_map.mp hbare
  obtain ⟨hver, hname, -⟩ := PkgDict.of_bare_eq heq
  exact (hplain e₀ he₀).congr hver.symm hname.symm

theorem Stores.plain {st st' : State} {c : StoreCall} (h : Stores st c st')
    (hc : PlainNamed c.pkgrd) (hplain : ∀ e ∈ st.packages, PlainNamed e) :
    ∀ e ∈ st'.packages, PlainNamed e := by
  intro e he
  obtain ⟨-, -, autoinst, orig, hstore⟩ := h
  rcases mem_transactionStore hstore he with he | ⟨n, -, rfl⟩
  · exact hplain e he
  · exact hc.congr rfl rfl

theorem map_removePkgFromArrayByPkgver (pkgs : List PkgDict) (v : Str) :
    (removePkgFromArrayByPkgver pkgs v).map PkgDict.pkgver = (pkgs.map PkgDict.pkgver).erase v := by
  rw [removePkgFromArrayByPkgver, List.erase_eq_eraseP', List.eraseP_map]
  congr 2
  funext d
  rw [Bool.eq_iff_iff, decide_eq_true_iff, Function.comp_apply, beq_iff_eq]

/-- What a store does to the versions in the array. -/
theorem Stores.pkgvers {st st' : State} {c : StoreCall} (h : Stores st c st') :
    (c.found = none ∧ st'.packages.map PkgDict.pkgver =
        st.packages.map PkgDict.pkgver ++ [c.pkgrd.pkgver]) ∨
      st'.packages = st.packages ∨
      ∃ d, c.found = some d ∧ c.replaced = some d ∧ st'.packages.map PkgDict.pkgver =
        (st.packages.map PkgDict.pkgver).erase d.pkgver ++ [c.pkgrd.pkgver] := by
  obtain ⟨n, autoinst, ⟨hf, heq⟩ | ⟨d, -, -, heq⟩ | ⟨d, hf, hr, heq⟩⟩ := h.call
  · exact Or.inl ⟨hf, by rw [heq, List.map_append]; rfl⟩
  · exact Or.inr (Or.inl heq)
  · refine Or.inr (Or.inr ⟨d, hf, hr, ?_⟩)
    rw [heq, List.map_append, map_removePkgFromArrayByPkgver]
    rfl

/-- The entry is appended once more. -/
theorem ResolverInput.append {env : Env} {xhp : Handle} (hin : ResolverInput env xhp P Q R)
    {st st' : State} {pkgd : PkgDict} {i : Nat} (hi : st.packages[i]? = some pkgd)
    (hst : DictInv xhp P Q st) (hst' : DictInv xhp P Q st') :
    DictInv xhp P Q
      { st' with packages := st'.packages ++ [st'.refresh st.edits pkgd] } := by
  refine hin.rule.prepareRule.packages hst hst' fun e he => ?_
  rcases List.mem_append.mp he with he | he
  · exact Or.inl he
  · rw [List.mem_singleton.mp he]
    exact Or.inr ⟨pkgd, List.mem_of_getElem? hi, _, st'.refresh_eq st.edits pkgd⟩

/-- The invariant holds after any requests. -/
theorem ResolverInput.session {env : Env} {xhp : Handle} (hin : ResolverInput env xhp P Q R)
    (orphansOf : Handle → Str → Option (List Str)) (repositories : List Str) {reqs : List Req}
    {s : Session} (hs : s = (Session.start xhp repositories).requests env orphansOf reqs) :
    DictInv xhp P Q s.st := by
  have hreq := hin.rule.sessionRule.requestsLeads orphansOf reqs
    (Session.start xhp repositories) fun _ _ _ => rfl
  rw [← hs] at hreq
  exact hreq.inv (fun _ _ => trivial) (DictInv.start xhp repositories P Q)

end Runs

/-! ### Three repositories -/

/-- A package of a repository with these dependencies, in the array `id`. -/
def turnsPkg (name pkgver : String) (deps : List String) (id : Nat) : Str × PkgDict :=
  (name.toList, { pkgver := pkgver.toList
                  runDepends := some (deps.map String.toList)
                  runDependsId := id })

/-- The first repository has an old version of `a`, which `c` is content with; `b`, `y` and `z`
need newer ones.  `e` needs `f`. -/
def turnsRepo : Dict Str PkgDict :=
  ⟨[turnsPkg "a" "a-1_1" [] 1, turnsPkg "b" "b-1_1" ["a>=2", "c>=0"] 2,
    turnsPkg "c" "c-1_1" ["a>=1"] 3, turnsPkg "e" "e-1_1" ["f>=0"] 4, turnsPkg "f" "f-1_1" [] 5,
    turnsPkg "y" "y-1_1" ["a>=3"] 6, turnsPkg "z" "z-1_1" ["a>=2", "y>=0"] 7], by decide⟩

/-- The other two have one newer version of `a` each. -/
def turnsRepos : List (Str × Dict Str PkgDict) :=
  [("r".toList, turnsRepo), ("s".toList, ⟨[turnsPkg "a" "a-2_1" [] 8], List.nodup_singleton _⟩),
    ("t".toList, ⟨[turnsPkg "a" "a-3_1" [] 9], List.nodup_singleton _⟩)]

def turnsEnv : Env := { repoOpen := fun uri => turnsRepos.lookup uri }

/-- Requests to install these packages, when nothing is installed. -/
def turnsSession (names : List String) : Session :=
  (Session.start {} (turnsRepos.map Prod.fst)).requests turnsEnv (fun _ _ => none)
    (names.map fun name => .install name.toList false)

instance (d : PkgDict) : Decidable (PoolNamed d) :=
  decidable_of_iff ((∀ n ∈ d.pkgname, pkgName d.pkgver = some n) ∧
    ∃ n ∈ pkgName d.pkgver, request n = .pkgname) Iff.rfl

theorem plainInput_turnsEnv : PlainInput turnsEnv {} := by
  refine ⟨?_, fun p hp => by cases hp⟩
  rintro d ⟨uri, idx, h, hd⟩
  have hall : ∀ r ∈ turnsRepos, ∀ d ∈ r.2.values, PoolNamed d := by decide +kernel
  have hmem : (uri, idx) ∈ turnsRepos := by
    simp only [turnsEnv] at h
    obtain ⟨l₁, l₂, heq, -⟩ := List.lookup_eq_some_iff.mp h
    rw [heq]
    exact List.mem_append_right _ List.mem_cons_self
  exact hall _ hmem d hd

end Flappy
