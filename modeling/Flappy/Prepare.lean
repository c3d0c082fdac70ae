/-
Preparing a transaction (`lib/transaction_prepare.c`).

The entries of the transaction are taken one after the other: their dependencies
are resolved, which appends to the array, and they are appended once more, so
that they come after their dependencies; the first occurrences are removed at
the end.  Then the array goes through the checks.

* `prepareDeps` — the loop over the entries;
* `transactionPrepare` — all of it, for a number of steps of the `replaces` pass;
* `PrepareRule.prepareDepsLeads` — what has to be preserved for an invariant to hold
  when the dependencies have been resolved.
-/
import Flappy.Conflicts
import Flappy.Deps
import Flappy.Replaces
import Flappy.Revdeps
import Flappy.Shlibs

open CStr

namespace Flappy

/-- A dictionary that is not part of the state, as it is now: its `run_depends` array may
have changed since `edits`. -/
def State.refresh (st : State) (edits : List Nat) (pkgd : PkgDict) : PkgDict :=
  if st.edits.count pkgd.runDependsId = edits.count pkgd.runDependsId then pkgd
  else
    match st.dicts.find? fun d => d.runDependsId = pkgd.runDependsId ∧ d.runDepends.isSome with
    | none => pkgd
    | some d => { pkgd with runDepends := d.runDepends }

/-- The loop of `flappy_transaction_prepare` over `n` more entries from `i` on: the state,
the places the resolver came along, and the edges. -/
def prepareLoop (env : Env) : Nat → Nat → State → List Look → List Str →
    State × List Look × List Str × Rv
  | 0, _, st, looks, edges => (st, looks, edges, .ok)
  | n + 1, i, st, looks, edges =>
    match st.packages[i]? with
    | none => (st, looks, edges, .abort)
    | some pkgd =>
      if pkgd.transaction = .remove ∨ pkgd.transaction = .hold then
        prepareLoop env n (i + 1) st looks edges
      else
        match transactionPkgDeps env st pkgd with
        | (st', more, .ok) =>
          prepareLoop env n (i + 1)
            { st' with packages := st'.packages ++ [st'.refresh st.edits pkgd] }
            (looks ++ more) (edges ++ [pkgd.pkgver])
        | (st', more, rv) => (st', looks ++ more, edges ++ [pkgd.pkgver], rv)

/-- The first half of `flappy_transaction_prepare`: resolve the dependencies, and remove
the entries that now come twice. -/
def prepareDeps (env : Env) (st : State) : State × List Look × Rv :=
  match prepareLoop env st.packages.length 0 st [] [] with
  | (st, looks, edges, .ok) =>
    ({ st with packages := edges.foldl removePkgFromArrayByPkgver st.packages }, looks, .ok)
  | (st, looks, _, rv) => (st, looks, rv)

/-- Are the first `cnt` entries all on hold? -/
def allOnHold (pkgs : List PkgDict) (cnt : Nat) : Bool :=
  (List.range cnt).all fun i => pkgs[i]?.map PkgDict.transaction = some .hold

/-- The checks after the `replaces` pass.  `stats` is `compute_transaction_stats`, which
sets no property that is looked at here. -/
def prepareChecks (stats : State → Rv) (st : State) : State × Rv :=
  match transactionCheckRevdeps st.xhp st.packages st.missingDeps with
  | none => ({ st with packages := [], missingDeps := some [] }, .err .einval)
  | some missingDeps =>
    let st := { st with missingDeps }
    if missingDeps.isSome ∧ st.xhp.flags.forceRemoveRevdeps = false then (st, .err .enodev)
    else
      match transactionCheckConflicts st.xhp st.packages with
      | none => (st, .abort)
      | some (_ :: _) => (st, .err .eagain)
      | some [] =>
        match transactionCheckShlibs st.xhp st.packages [] with
        | .error _ => ({ st with packages := [], missingDeps := some [] }, .err .einval)
        | .ok missingShlibs =>
          if missingShlibs.isSome ∧ st.xhp.flags.forceRemoveRevdeps = false then
            (st, .err .enoexec)
          else (st, stats st)

/-- `flappy_transaction_prepare`, given that the `replaces` pass takes at most `fuel`
steps; `none` if it takes more. -/
def transactionPrepare (env : Env) (stats : State → Rv) (fuel : Nat) (st : State) :
    Option (State × Rv) :=
  let cnt := st.packages.length
  match prepareDeps env st with
  | (st, _, .ok) =>
    if st.xhp.flags.downloadOnly = true ∨ allOnHold st.packages cnt = true then some (st, stats st)
    else
      let w := Walk.run st.xhp fuel { pkgs := st.packages }
      match w.done with
      | none => none
      | some false => some ({ st with packages := [], missingDeps := some [] }, .err .einval)
      | some true => some (prepareChecks stats { st with packages := w.pkgs })
  | (st, _, rv) => some (st, rv)

/-! ### What the rest of the preparation keeps -/

/-- The checks leave the array alone, or give it up. -/
theorem prepareChecks_packages (stats : State → Rv) (st : State) :
    (prepareChecks stats st).1.packages = st.packages ∨
      (prepareChecks stats st).1.packages = [] := by
  rw [prepareChecks]
  split
  · exact Or.inr rfl
  · simp only
    split
    · exact Or.inl rfl
    · split
      · exact Or.inl rfl
      · exact Or.inl rfl
      · split
        · exact Or.inr rfl
        · split
          · exact Or.inl rfl
          · exact Or.inl rfl

/-- The entries of a prepared transaction: those of the first half, of a state of the
`replaces` pass, or none. -/
theorem transactionPrepare_packages {env : Env} {stats : State → Rv} {fuel : Nat} {st st' : State} {rv : Rv}
    (h : transactionPrepare env stats fuel st = some (st', rv)) :
    st'.packages = (prepareDeps env st).1.packages ∨
      st'.packages = (Walk.run (prepareDeps env st).1.xhp fuel
        { pkgs := (prepareDeps env st).1.packages }).pkgs ∨ st'.packages = [] := by
  rw [transactionPrepare] at h
  split at h
  · next st₁ looks hd =>
    rw [hd]
    simp only at h
    split at h
    · simp only [Option.some.injEq, Prod.mk.injEq] at h
      exact Or.inl (h.1 ▸ rfl)
    · split at h
      · cases h
      · simp only [Option.some.injEq, Prod.mk.injEq] at h
        exact Or.inr (Or.inr (h.1 ▸ rfl))
      · rw [Option.some.injEq] at h
        right
        have := prepareChecks_packages stats { st₁ with
          packages := (Walk.run st₁.xhp fuel { pkgs := st₁.packages }).pkgs }
        rwa [h] at this
  · next st₁ looks rv' _ hd =>
    rw [hd]
    simp only [Option.some.injEq, Prod.mk.injEq] at h
    exact Or.inl (h.1 ▸ rfl)

theorem prepareChecks_ok {stats : State → Rv} {st st' : State}
    (h : prepareChecks stats st = (st', .ok)) : st'.packages = st.packages := by
  rw [prepareChecks] at h
  split at h
  · simp at h
  · simp only at h
    split at h
    · simp at h
    · split at h
      · simp at h
      · simp at h
      · split at h
        · simp at h
        · split at h
          · simp at h
          · exact (Prod.mk.inj h).1 ▸ rfl

theorem prepareDeps_ok {env : Env} {st st' : State} {looks : List Look}
    (h : prepareDeps env st = (st', looks, .ok)) :
    ∃ st₁ edges, prepareLoop env st.packages.length 0 st [] [] = (st₁, looks, edges, .ok) ∧
      st' = { st₁ with packages := edges.foldl removePkgFromArrayByPkgver st₁.packages } := by
  rw [prepareDeps] at h
  cases hloop : prepareLoop env st.packages.length 0 st [] [] with
  | mk st₁ rest =>
    obtain ⟨looks₁, edges, rv⟩ := rest
    cases rv with
    | err e => simp [hloop] at h
    | abort => simp [hloop] at h
    | ok =>
      simp only [hloop, Prod.mk.injEq, and_true] at h
      exact ⟨st₁, edges, by rw [h.2], h.1.symm⟩

/-- A preparation that succeeds: the array is that of the first half, or of a state of the
`replaces` pass. -/
theorem transactionPrepare_ok {env : Env} {stats : State → Rv} {fuel : Nat} {st st' : State}
    (h : transactionPrepare env stats fuel st = some (st', .ok)) :
    ∃ st₁ looks edges, prepareLoop env st.packages.length 0 st [] [] = (st₁, looks, edges, .ok) ∧
      (st'.packages = edges.foldl removePkgFromArrayByPkgver st₁.packages ∨
        st'.packages = (Walk.run st₁.xhp fuel
          { pkgs := edges.foldl removePkgFromArrayByPkgver st₁.packages }).pkgs) := by
  rw [transactionPrepare] at h
  cases hdeps : prepareDeps env st with
  | mk st₂ rest =>
    obtain ⟨looks, rv⟩ := rest
    cases rv with
    | err e => simp [hdeps] at h
    | abort => simp [hdeps] at h
    | ok =>
      obtain ⟨st₁, edges, hloop, rfl⟩ := prepareDeps_ok hdeps
      refine ⟨st₁, looks, edges, hloop, ?_⟩
      simp only [hdeps] at h
      split at h
      · simp only [Option.some.injEq, Prod.mk.injEq] at h
        exact Or.inl (h.1 ▸ rfl)
      · split at h
        · cases h
        · simp at h
        · exact Or.inr (prepareChecks_ok (Option.some.inj h))

theorem KeysNamed.congr {a b : Handle} (h : SameDb a b) (hk : KeysNamed a) : KeysNamed b := by
  rintro ⟨k, p⟩ he
  obtain ⟨p', hp', hc⟩ := h.get_some (Dict.mem_entries_iff.mp he)
  have hname := hk.name hp'
  rwa [(PkgDict.of_core_eq hc).1] at hname

/-! ### Invariants of the first half -/

theorem State.refresh_eq (st : State) (edits : List Nat) (pkgd : PkgDict) :
    st.refresh edits pkgd =
      { pkgd with runDepends := (st.refresh edits pkgd).runDepends } := by
  rw [State.refresh]
  split
  · rfl
  · split
    · rfl
    · rfl

/-- What has to be shown for `I` to hold in every state of the first half. -/
structure PrepareRule (env : Env) (ok : Look → Prop) (I : State → Prop) : Prop extends
    ResolverRule env ok I where
  /-- The entries may move, disappear, and have other dependencies. -/
  packages : ∀ {st st' : State} {packages : List PkgDict}, I st → I st' →
    (∀ e ∈ packages, e ∈ st'.packages ∨
      ∃ e₀ ∈ st.packages, ∃ runDepends, e = { e₀ with runDepends }) →
    I { st' with packages }

namespace PrepareRule

variable {env : Env} {ok : Look → Prop} {I : State → Prop}

theorem pkgDepsLeads (rule : PrepareRule env ok I) (st : State) (pkgRepod : PkgDict)
    (looks : List Look) :
    Resolver.Leads env ok I ⟨st, [], looks⟩ ⟨(transactionPkgDeps env st pkgRepod).1, [],
      looks ++ (transactionPkgDeps env st pkgRepod).2.1⟩ := by
  obtain ⟨-, hlater, hinv⟩ := rule.repoDepsLeads maxDepth { st } pkgRepod
  exact ⟨fun _ hx => List.mem_append_left _ hx, hlater,
    fun hok hI => hinv (fun l hl => hok l (List.mem_append_right _ hl)) hI⟩

theorem prepareLoopLeads (rule : PrepareRule env ok I) :
    ∀ (n i : Nat) (st : State) (looks : List Look) (edges : List Str),
      Resolver.Leads env ok I ⟨st, [], looks⟩ ⟨(prepareLoop env n i st looks edges).1, [],
        (prepareLoop env n i st looks edges).2.1⟩ := by
  intro n
  induction n with
  | zero => exact fun i st looks edges => Resolver.Leads.of_st rfl (Later.refl env st) id
  | succ n ih =>
    intro i st looks edges
    rw [prepareLoop]
    cases hi : st.packages[i]? with
    | none => exact Resolver.Leads.of_st rfl (Later.refl env st) id
    | some pkgd =>
      simp only
      split
      · exact ih (i + 1) st looks edges
      · have hdeps := rule.pkgDepsLeads st pkgd looks
        split
        · next st' more h =>
          rw [h] at hdeps
          -- the entry is appended once more
          have happ : Resolver.Leads env ok I ⟨st, [], looks⟩
              ⟨{ st' with packages := st'.packages ++ [st'.refresh st.edits pkgd] }, [],
                looks ++ more⟩ := by
            refine ⟨hdeps.looks, ⟨hdeps.later.pool, hdeps.later.db⟩, fun hok hI => ?_⟩
            refine rule.packages hI (hdeps.inv hok hI) fun e he => ?_
            rcases List.mem_append.mp he with he | he
            · exact Or.inl he
            · rw [List.mem_singleton.mp he]
              exact Or.inr ⟨pkgd, List.mem_of_getElem? hi, _, st'.refresh_eq st.edits pkgd⟩
          exact happ.trans (ih (i + 1) _ (looks ++ more) (edges ++ [pkgd.pkgver]))
        · next st' more rv _ h =>
          rw [h] at hdeps
          exact hdeps

theorem mem_of_mem_foldl_remove {edges : List Str} {e : PkgDict} :
    ∀ {pkgs : List PkgDict}, e ∈ edges.foldl removePkgFromArrayByPkgver pkgs → e ∈ pkgs := by
  induction edges with
  | nil => exact fun h => h
  | cons edge edges ih =>
    intro pkgs h
    exact List.mem_of_mem_eraseP (ih h)

/-- Resolving the dependencies of all entries. -/
theorem prepareDepsLeads (rule : PrepareRule env ok I) (st : State) :
    Resolver.Leads env ok I ⟨st, [], []⟩ ⟨(prepareDeps env st).1, [],
      (prepareDeps env st).2.1⟩ := by
  have hloop := rule.prepareLoopLeads st.packages.length 0 st [] []
  rw [prepareDeps]
  split
  · next st' looks edges h =>
    rw [h] at hloop
    refine ⟨hloop.looks, ⟨hloop.later.pool, hloop.later.db⟩, fun hok hI => ?_⟩
    have hI' := hloop.inv hok hI
    exact rule.packages hI' hI' fun e he => Or.inl (mem_of_mem_foldl_remove he)
  · next st' looks edges rv _ h =>
    rw [h] at hloop
    exact hloop

end PrepareRule

/-! ### Invariants of single dictionaries -/

/-- The database is that of `xhp` up to bookkeeping, the dictionaries of the repositories have
the property `P`, and the entries of the transaction the property `Q`. -/
structure DictInv (xhp : Handle) (P Q : PkgDict → Prop) (st : State) : Prop where
  db : SameDb xhp st.xhp
  pool : ∀ ref d, st.pool.get ref = some d → P d
  entries : ∀ e ∈ st.packages, Q e

/-- What has to be shown of single dictionaries for `DictInv xhp P Q` to hold in every state
of a session and of the first half of the preparation. -/
structure DictRule (env : Env) (xhp : Handle) (forced : Bool) (findOk : FindCall → Prop)
    (lookOk : Look → Prop) (P Q : PkgDict → Prop) : Prop where
  fresh : ∀ {d : PkgDict}, env.Fresh d → P d
  evolves : ∀ {d d' : PkgDict}, P d → Evolves d d' → P d'
  runDepends : ∀ {e : PkgDict} (runDepends : Option (List Str)), Q e → Q { e with runDepends }
  /-- An installed package that is removed or configured. -/
  installed : ∀ {xhp' : Handle} {pkgd : PkgDict} {ttype : TransType} {pkgname : Str}
    (autoinst : Bool), SameDb xhp xhp' → pkgd ∈ xhp'.pkgdb.values →
    ttype = .remove ∨ ttype = .configure → pkgd.pkgname = some pkgname →
    Q (storedCopy { pkgd with transaction := ttype } pkgname autoinst)
  /-- A package that a request finds. -/
  found : ∀ {c : FindCall} {st₁ : State} {found : Found} {d : PkgDict},
    (c.force = true → forced = true) → findOk c → SameDb xhp c.st.xhp →
    transLookup env c.st c.pkg c.force = (st₁, .ok found) →
    st₁.pool.get found.pkgRepod = some d → P d → P (respect found.pkgPkgdb d)
  queued : ∀ {c : FindCall} {st₁ : State} {found : Found} {d : PkgDict} {ttype : TransType}
    {state : PkgState} {pkgname : Str}, (c.force = true → forced = true) → findOk c →
    SameDb xhp c.st.xhp → transLookup env c.st c.pkg c.force = (st₁, .ok found) →
    st₁.pool.get found.pkgRepod = some d → P d → transCompare found d = some ttype →
    d.pkgname = some pkgname →
    Q (storedCopy (queuedDict (respect found.pkgPkgdb d) ttype state c.force) pkgname
      (queuedAuto c.st.xhp (queuedDict (respect found.pkgPkgdb d) ttype state c.force)))
  /-- A package that a dependency leads to. -/
  resolved : ∀ {l : Look} {xhp' : Handle} {st₁ st₂ : State} {curpkgd : Option PkgDict}
    {ttype : TransType} {autoinst : Bool} {ref : PkgRef} {d d' : PkgDict} {pkgname : Str},
    lookOk l → SameDb xhp l.st.xhp → SameDb xhp xhp' →
    depInstalled l.st l.queued l.pkgRepod l.reqpkg = (st₁, .resolve curpkgd ttype autoinst) →
    depLookup env st₁ curpkgd l.reqpkg = (st₂, some ref) → st₂.pool.get ref = some d →
    Evolves d d' → P d' → d'.pkgname = some pkgname →
    Q (storedCopy { d' with transaction := depType xhp' curpkgd ttype } pkgname autoinst)

namespace DictRule

variable {env : Env} {xhp : Handle} {forced : Bool} {findOk : FindCall → Prop}
  {lookOk : Look → Prop} {P Q : PkgDict → Prop}

theorem pool (rule : DictRule env xhp forced findOk lookOk P Q) {pool pool' : Rpool}
    (h : PoolExt env pool pool') (hp : ∀ ref d, pool.get ref = some d → P d) :
    ∀ ref d, pool'.get ref = some d → P d := by
  intro ref d hd
  rcases h.origin ref d hd with ⟨d₀, hd₀, hc⟩ | ⟨d₀, hf, hc⟩
  · exact rule.evolves (hp ref d₀ hd₀) hc
  · exact rule.evolves (rule.fresh hf) hc

theorem looked (rule : DictRule env xhp forced findOk lookOk P Q) {st st' : State}
    (hl : Looked env st st') (h : DictInv xhp P Q st) : DictInv xhp P Q st' :=
  ⟨hl.xhp.symm ▸ h.db, rule.pool hl.pool h.pool, hl.packages.symm ▸ h.entries⟩

theorem storePkgdb (rule : DictRule env xhp forced findOk lookOk P Q) {st : State}
    {pkgd : PkgDict} (hp : pkgd ∈ st.xhp.pkgdb.values) {ttype : TransType}
    (ht : ttype = .remove ∨ ttype = .configure) (autoinst : Bool) (h : DictInv xhp P Q st) :
    DictInv xhp P Q (st.storePkgdb pkgd ttype autoinst).1 := by
  obtain ⟨hdb, hq, hpkgs⟩ := st.storePkgdb_spec pkgd ttype autoinst
  refine ⟨h.db.trans hdb, fun ref d hd => ?_, fun e he => ?_⟩
  · rw [Rpool.get, hq] at hd
    exact h.pool ref d hd
  · rcases hpkgs e he with he | ⟨pkgname, hn, rfl⟩
    · exact h.entries e he
    · exact rule.installed autoinst h.db hp ht hn

theorem find (rule : DictRule env xhp forced findOk lookOk P Q) {st : State} {pkg : Str}
    {force : Bool} (hf : force = true → forced = true) (hok : findOk ⟨st, pkg, force⟩)
    (h : DictInv xhp P Q st) : DictInv xhp P Q (transFindPkg env st pkg force).1 := by
  rcases transFindPkg_spec env st pkg force with hl | ⟨st₁, found, d, hfound, hd, heff⟩
  · exact rule.looked hl h
  · have hl := transLookup_spec env st pkg force
    rw [hfound] at hl
    have h₁ := rule.looked hl.looked h
    refine ⟨heff.xhp.symm ▸ h.db, fun ref d₁ hd₁ => ?_, fun e he => ?_⟩
    · obtain ⟨d', hc, hq⟩ := heff.pool
      rw [Rpool.get, hq] at hd₁
      by_cases href : ref = found.pkgRepod
      · subst href
        have hget := Rpool.get_modify_self st₁.pool found.pkgRepod fun _ => d'
        rw [Rpool.get, hd₁, hd, Option.map_some, Option.some.injEq] at hget
        exact hget ▸ rule.evolves (rule.found hf hok h.db hfound hd (h₁.pool _ _ hd)) hc
      · have hget := Rpool.get_modify_ne st₁.pool (fun _ => d') href
        rw [Rpool.get, hd₁] at hget
        exact h₁.pool ref d₁ hget.symm
    · rcases heff.packages e he with he | ⟨ttype, state, pkgname, hc, hn, -, rfl⟩
      · exact h.entries e he
      · exact rule.queued hf hok h.db hfound hd (h₁.pool _ _ hd) hc hn

/-- The invariant holds in every state of a session. -/
theorem sessionRule (rule : DictRule env xhp forced findOk lookOk P Q) :
    SessionRule env forced findOk (DictInv xhp P Q) where
  looked := rule.looked
  flags h := ⟨⟨h.db.downloadOnly, h.db.get⟩, h.pool, h.entries⟩
  removal hp h := rule.storePkgdb hp (Or.inl rfl) false h
  find := rule.find

/-- The invariant holds in every state of the first half of the preparation. -/
theorem prepareRule (rule : DictRule env xhp forced findOk lookOk P Q) :
    PrepareRule env lookOk (DictInv xhp P Q) where
  looked := rule.looked
  missing h := ⟨h.db, h.pool, h.entries⟩
  configure _ _ hp h := rule.storePkgdb hp (Or.inr rfl) _ h
  remove {l st id} _ _ h := by
    have hl := st.removeRunDepend_later env id l.reqpkg
    refine ⟨h.db.trans hl.db, rule.pool hl.pool h.pool, ?_⟩
    rw [State.removeRunDepend.eq_def]
    split
    · intro e he
      obtain ⟨e₀, he₀, rfl⟩ := List.mem_map.mp he
      rw [dropRunDepend]
      split
      · exact rule.runDepends _ (h.entries e₀ he₀)
      · exact h.entries e₀ he₀
    · exact h.entries
  store {l st₁ st₂ st₃ curpkgd ttype autoinst ref d d₃} hok h₁ h₂ hd hlater hd₃ hcore h := by
    obtain ⟨hx, -, -, -, hpkgs⟩ := st₃.store_spec ref
      { d₃ with transaction := depType st₃.xhp curpkgd ttype } autoinst
    have hext : PoolExt env st₃.pool (st₃.store ref
        { d₃ with transaction := depType st₃.xhp curpkgd ttype } autoinst).1.pool :=
      (st₃.store_later ref autoinst fun d₀ h₀ => by
        obtain rfl := Option.some.inj (h₀.symm.trans hd₃)
        exact Evolves.of_core rfl (List.Subset.refl _)).pool
    refine ⟨hx.symm ▸ h.db, rule.pool hext h.pool, fun e he => ?_⟩
    rcases hpkgs e he with he | ⟨pkgname, hn, rfl⟩
    · exact h.entries e he
    · -- the database has not changed since the resolver came along
      obtain ⟨hi, -⟩ := depInstalled_spec env l.st l.queued l.pkgRepod l.reqpkg
      rw [h₁] at hi
      have hk := (depLookup_spec env st₁ curpkgd l.reqpkg).1
      rw [h₂] at hk
      have hdb : SameDb l.st.xhp st₃.xhp := (hi.later.db.trans hk.later.db).trans hlater.db
      exact rule.resolved hok (h.db.trans hdb.symm) h.db h₁ h₂ hd hcore (h.pool ref d₃ hd₃) hn
  packages {st st' packages} h h' hp := by
    refine ⟨h'.db, h'.pool, fun e he => ?_⟩
    rcases hp e he with he | ⟨e₀, he₀, runDepends, rfl⟩
    · exact h'.entries e he
    · exact rule.runDepends runDepends (h.entries e₀ he₀)

end DictRule

theorem DictInv.start (xhp : Handle) (repositories : List Str) (P Q : PkgDict → Prop) :
    DictInv xhp P Q (Session.start xhp repositories).st := by
  refine ⟨SameDb.refl xhp, fun ref d hd => ?_, fun e he => by cases he⟩
  simp [Session.start, Rpool.get] at hd

/-- The invariant holds after any requests, and when their dependencies have been resolved. -/
theorem DictRule.prepared {env : Env} {xhp : Handle} {forced : Bool} {findOk : FindCall → Prop}
    {lookOk : Look → Prop} {P Q : PkgDict → Prop}
    (rule : DictRule env xhp forced findOk lookOk P Q)
    (orphansOf : Handle → Str → Option (List Str)) (repositories : List Str) {reqs : List Req}
    {s : Session} (hs : s = (Session.start xhp repositories).requests env orphansOf reqs)
    (hreqs : ∀ r ∈ reqs, r.unforced = false → forced = true) (hfind : ∀ c ∈ s.calls, findOk c)
    (hlook : ∀ l ∈ (prepareDeps env s.st).2.1, lookOk l) :
    DictInv xhp P Q s.st ∧ DictInv xhp P Q (prepareDeps env s.st).1 := by
  have hreq := rule.sessionRule.requestsLeads orphansOf reqs (Session.start xhp repositories) hreqs
  rw [← hs] at hreq
  have hst := hreq.inv hfind (DictInv.start xhp repositories P Q)
  exact ⟨hst, (rule.prepareRule.prepareDepsLeads s.st).inv hlook hst⟩

end Flappy
