/-
The remove-scripts of a commit (`lib/transaction_commit.c`).

A remove-script is run with three actions: before anything is removed, and after
everything was.  Which packages the last two are run for is decided in the first
pass, by the type of the entry; a reinstalled package is among them.

* `PostRemoveOk` — they are run for packages that go away, and for all of them;
* `RunsKept`, `SkipsRemoved` — one is run for a package that stays, or a removed package does
  not get its turn and the commit returns 0;
* `transactionCommit_postRemove_iff` — that holds unless one of the two happens;
* `RemovedFails`, `LosesFailure` — one of the last two actions of a removed package fails,
  and the commit goes on without it;
* `transactionCommit_reported_iff` — the failure is in the result unless it is lost there.
-/
import Flappy.Passes

open CStr

namespace Flappy

/-- The remove-scripts are run to their end for packages that go away: whenever one of these
actions was run, the entry of its package is a removal and the package is gone; and if the
commit returns 0, both actions were run exactly once for every removed package that has a
remove-script. -/
structure PostRemoveOk (xhp : Handle) (pkgs : List PkgDict) (c : CommitState) (rv : CommitRv) :
    Prop where
  removed : ∀ run ∈ c.runs, run.isPostRemove = true → ∃ e ∈ pkgs, e.transaction = .remove ∧
    ∃ n d, e.pkgname = some n ∧ xhp.pkgdb.get n = some d ∧ d.pkgver = run.pkgver ∧
      c.xhp.pkgdb.get n = none
  once : rv = .ok → ∀ e ∈ pkgs, e.transaction = .remove → ∀ n d, e.pkgname = some n →
    xhp.pkgdb.get n = some d → d.removeScript ≠ none →
    c.runs.count ⟨d.pkgver, .remove, .post, false⟩ = 1 ∧
      c.runs.count ⟨d.pkgver, .remove, .purge, false⟩ = 1

/-- An entry with a plain name for which a script is collected. -/
theorem collected_some {xhp : Handle} {e : PkgDict} (hplain : PlainNamed e) {pkgver : Str}
    (h : collected xhp e = some pkgver) :
    ∃ n d, e.pkgname = some n ∧ xhp.pkgdb.get n = some d ∧ d.pkgver = pkgver ∧
      d.removeScript ≠ none := by
  obtain ⟨n, hn, -, hreq⟩ := hplain
  rw [collected] at h
  split at h
  · cases h
  · rw [hn, Option.bind_some, pkgdbGetPkg, findPkgInDict, hreq] at h
    obtain ⟨d, hd, hif⟩ := Option.bind_eq_some_iff.mp h
    split at hif
    · cases hif
    · next hs => exact ⟨n, d, hn, hd, Option.some.inj hif, hs⟩

/-- The script of a package that is to be removed is collected. -/
theorem collected_of_remove {xhp : Handle} {e : PkgDict} (hplain : PlainNamed e)
    (ht : e.transaction = .remove) {n : Str} {d : PkgDict} (hn : e.pkgname = some n)
    (hd : xhp.pkgdb.get n = some d) (hs : d.removeScript ≠ none) :
    collected xhp e = some d.pkgver := by
  obtain ⟨n', hn', -, hreq⟩ := hplain
  obtain rfl := Option.some.inj (hn.symm.trans hn')
  rw [collected, if_neg (by simp [ht]), hn, Option.bind_some, pkgdbGetPkg, findPkgInDict, hreq]
  simp only [hd, Option.bind_some, if_neg hs]

/-- No script is collected twice. -/
theorem nodup_collected {xhp : Handle} (hkeys : KeysNamed xhp) :
    ∀ {pkgs : List PkgDict}, (∀ e ∈ pkgs, PlainNamed e) →
      pkgs.Pairwise (fun a b => a.pkgname ≠ b.pkgname) →
      (pkgs.filterMap (collected xhp)).Nodup := by
  intro pkgs hplain hdist
  refine (List.pairwise_filterMap).mpr (hdist.imp_of_mem ?_)
  intro a b ha hb hne v hv w hw heq
  obtain ⟨n, d, hn, hd, hdv, -⟩ := collected_some (hplain a ha) hv
  obtain ⟨m, d', hm, hd', hdv', -⟩ := collected_some (hplain b hb) hw
  -- both names are the one in the pkgver
  have hnm : n = m := hkeys.key_eq hd hd' (by rw [hdv, heq, hdv'])
  exact hne (by rw [hn, hm, hnm])

/-- Each action is run once for each collected script. -/
theorem count_postActions {action : Action} (ha : action = .post ∨ action = .purge) (v : Str) :
    ∀ scripts : List Str,
      (scripts.flatMap postActions).count ⟨v, .remove, action, false⟩ = scripts.count v := by
  intro scripts
  induction scripts with
  | nil => rfl
  | cons w scripts ih =>
    rw [List.flatMap_cons, List.count_append, ih, List.count_cons, Nat.add_comm]
    congr 1
    by_cases hw : w = v
    · subst hw
      rcases ha with rfl | rfl
      · simp [postActions]
      · simp [postActions]
    · simp [postActions, hw]

theorem isPostRemove_of_mem {v : Str} {run : ScriptRun} (h : run ∈ postActions v) :
    run.pkgver = v ∧ run.isPostRemove = true := by
  simp only [postActions, List.mem_cons, List.not_mem_nil, or_false] at h
  rcases h with rfl | rfl
  · exact ⟨rfl, rfl⟩
  · exact ⟨rfl, rfl⟩

/-! ### The codes of the scripts -/

/-- The actions of a plan all end with 0, when they are run one after the other after the
actions so far. -/
def PassesEnv.Succeed (env : PassesEnv) : List ScriptRun → List ScriptRun → Prop
  | _, [] => True
  | runs, run :: plan => env.exec runs run = 0 ∧ env.Succeed (runs ++ [run]) plan

instance PassesEnv.decidableSucceed (env : PassesEnv) :
    ∀ runs plan, Decidable (env.Succeed runs plan)
  | _, [] => isTrue trivial
  | runs, run :: plan =>
    have := env.decidableSucceed (runs ++ [run]) plan
    inferInstanceAs (Decidable (_ ∧ _))

/-- What one action of a plan that succeeds has ended with. -/
theorem PassesEnv.Succeed.exec {env : PassesEnv} :
    ∀ {runs before : List ScriptRun} {run : ScriptRun} {after : List ScriptRun},
      env.Succeed runs (before ++ run :: after) → env.exec (runs ++ before) run = 0 := by
  intro runs before
  induction before generalizing runs with
  | nil =>
    intro run after h
    rw [List.append_nil]
    exact h.1
  | cons r before ih =>
    intro run after h
    have h' := ih h.2
    rwa [List.append_assoc] at h'

/-- The collected scripts are run to the end of the last, or up to the first action that
fails; its code is the result. -/
theorem runPostRemoveScripts_runs (env : PassesEnv) :
    ∀ (scripts : List Str) (c : CommitState),
      ((runPostRemoveScripts env scripts c).2 = 0 ∧
        env.Succeed c.runs (scripts.flatMap postActions) ∧
        (runPostRemoveScripts env scripts c).1.runs = c.runs ++ scripts.flatMap postActions) ∨
      ∃ before run after, scripts.flatMap postActions = before ++ run :: after ∧
        env.Succeed c.runs before ∧ env.exec (c.runs ++ before) run ≠ 0 ∧
        (runPostRemoveScripts env scripts c).2 = env.exec (c.runs ++ before) run ∧
        (runPostRemoveScripts env scripts c).1.runs = c.runs ++ before ++ [run] := by
  intro scripts
  induction scripts with
  | nil => exact fun c => Or.inl ⟨rfl, trivial, (List.append_nil _).symm⟩
  | cons pkgver scripts ih =>
    intro c
    have hstep : runPostRemoveScripts env (pkgver :: scripts) c =
        if env.exec c.runs ⟨pkgver, .remove, .post, false⟩ ≠ 0 then
          ({ c with runs := c.runs ++ [⟨pkgver, .remove, .post, false⟩] },
            env.exec c.runs ⟨pkgver, .remove, .post, false⟩)
        else if env.exec (c.runs ++ [⟨pkgver, .remove, .post, false⟩])
            ⟨pkgver, .remove, .purge, false⟩ ≠ 0 then
          ({ c with runs := c.runs ++ [⟨pkgver, .remove, .post, false⟩] ++
              [⟨pkgver, .remove, .purge, false⟩] },
            env.exec (c.runs ++ [⟨pkgver, .remove, .post, false⟩]) ⟨pkgver, .remove, .purge, false⟩)
        else
          runPostRemoveScripts env scripts { c with runs := c.runs ++
            [⟨pkgver, .remove, .post, false⟩] ++ [⟨pkgver, .remove, .purge, false⟩] } := rfl
    rw [hstep, List.flatMap_cons]
    -- the post script of the package fails
    by_cases h₁ : env.exec c.runs ⟨pkgver, .remove, .post, false⟩ ≠ 0
    · rw [if_pos h₁]
      exact Or.inr ⟨[], _, _, rfl, trivial, by rwa [List.append_nil], by rw [List.append_nil],
        by rw [List.append_nil]⟩
    · rw [if_neg h₁]
      rw [not_not] at h₁
      -- the post script succeeds, and its purge script fails
      by_cases h₂ : env.exec (c.runs ++ [⟨pkgver, .remove, .post, false⟩])
          ⟨pkgver, .remove, .purge, false⟩ ≠ 0
      · rw [if_pos h₂]
        exact Or.inr ⟨[⟨pkgver, .remove, .post, false⟩], _, _, rfl, ⟨h₁, trivial⟩, h₂, rfl, rfl⟩
      · rw [if_neg h₂]
        rw [not_not] at h₂
        -- both succeed: the runs of the others stand behind these two
        have hruns : c.runs ++ [⟨pkgver, .remove, .post, false⟩] ++
            [⟨pkgver, .remove, .purge, false⟩] = c.runs ++ postActions pkgver :=
          List.append_assoc _ _ _
        have ih' := ih { c with runs := c.runs ++ postActions pkgver }
        rw [← hruns] at ih'
        obtain ⟨hrv, hall, hr⟩ | ⟨before, run, after, hplan, hall, hne, hrv, hr⟩ := ih'
        · refine Or.inl ⟨hrv, ⟨h₁, h₂, hall⟩, ?_⟩
          rw [hr, hruns, List.append_assoc]
        · refine Or.inr ⟨postActions pkgver ++ before, run, after, ?_, ⟨h₁, h₂, hall⟩, ?_⟩
          · rw [hplan, List.append_assoc]
          · rw [← List.append_assoc, ← hruns]
            exact ⟨hne, hrv, hr⟩

/-! ### When the configuration succeeds -/

instance TransType.decidableConfigures (ttype : TransType) : Decidable ttype.configures :=
  inferInstanceAs (Decidable (_ ∧ _))

/-- The package that `flappy_configure_pkg` finds for an entry. -/
def configured (xhp : Handle) (e : PkgDict) : Option PkgDict :=
  pkgdbGetPkg xhp ((pkgName e.pkgver).getD e.pkgver)

/-- The action that is run to configure an entry. -/
def installRun (xhp : Handle) (e : PkgDict) : Option ScriptRun :=
  (configured xhp e).bind fun d =>
    d.installScript.map fun _ => ⟨d.pkgver, .install, .post, e.transaction = .update⟩

/-- The actions that are run to configure these entries. -/
def installRuns (xhp : Handle) (pkgs : List PkgDict) : List ScriptRun :=
  (pkgs.filter fun e => e.transaction.configures).filterMap (installRun xhp)

/-- A record with a state is found for the entry. -/
def HasState (xhp : Handle) (e : PkgDict) : Prop :=
  ∃ d, configured xhp e = some d ∧ d.state ≠ none

/-- All that is to be configured is found in the database, with a state, and the install-scripts
end with 0. -/
structure Configurable (env : PassesEnv) (xhp : Handle) (pkgs : List PkgDict)
    (runs : List ScriptRun) : Prop where
  found : ∀ e ∈ pkgs, e.transaction.configures → HasState xhp e
  succeed : env.Succeed runs (installRuns xhp pkgs)

/-- A change to one record that keeps its pkgver shows in a record found only if it is that one. -/
theorem findPkgInDict_modify (d : Dict Str PkgDict) (k : Str) {f : PkgDict → PkgDict}
    (hf : ∀ a, (f a).pkgver = a.pkgver) (pkg : Str) :
    findPkgInDict (d.modify k f) pkg = findPkgInDict d pkg ∨
      ∃ a, findPkgInDict d pkg = some a ∧ d.get k = some a ∧
        findPkgInDict (d.modify k f) pkg = some (f a) := by
  have hget : ∀ n, (d.modify k f).get n = d.get n ∨
      ∃ a, d.get n = some a ∧ d.get k = some a ∧ (d.modify k f).get n = some (f a) := by
    intro n
    by_cases hn : n = k
    · subst hn
      rw [Dict.get_modify_self]
      cases d.get n with
      | none => exact Or.inl rfl
      | some a => exact Or.inr ⟨a, rfl, rfl, rfl⟩
    · exact Or.inl (Dict.get_modify_ne d f hn)
  -- the tests of a lookup look at the pkgver only
  have hfilter : ∀ (p : Str → Bool) (n : Str),
      ((d.modify k f).get n).filter (fun a => p a.pkgver) =
          (d.get n).filter (fun a => p a.pkgver) ∨
        ∃ a, (d.get n).filter (fun a => p a.pkgver) = some a ∧ d.get k = some a ∧
          ((d.modify k f).get n).filter (fun a => p a.pkgver) = some (f a) := by
    intro p n
    obtain h | ⟨a, ha, hk, h⟩ := hget n
    · exact Or.inl (by rw [h])
    · rw [h, ha, Option.filter_some, Option.filter_some, hf]
      by_cases hp : p a.pkgver = true
      · rw [if_pos hp, if_pos hp]
        exact Or.inr ⟨a, rfl, hk, rfl⟩
      · rw [if_neg hp, if_neg hp]
        exact Or.inl rfl
  have hver : ∀ q, matchPkgByPkgver (d.modify k f) q = matchPkgByPkgver d q ∨
      ∃ a, matchPkgByPkgver d q = some a ∧ d.get k = some a ∧
        matchPkgByPkgver (d.modify k f) q = some (f a) := by
    intro q
    rw [matchPkgByPkgver, matchPkgByPkgver]
    cases pkgName q with
    | none => exact Or.inl rfl
    | some n => exact hfilter (fun v => v = q) n
  rw [findPkgInDict, findPkgInDict]
  cases request pkg with
  | pattern =>
    simp only [matchPkgByPattern]
    cases pkgpatternName pkg with
    | none =>
      simp only
      split
      · exact hver pkg
      · exact Or.inl rfl
    | some n => exact hfilter (fun v => pkgpatternMatch v pkg) n
  | pkgver => exact hver pkg
  | pkgname => exact hget pkg

/-- Setting the state of a package that has one changes nothing that the configuration of an
entry depends on. -/
theorem configured_setPkgState {xhp : Handle} {p : Str} {d : PkgDict}
    (hd : pkgdbGetPkg xhp p = some d) (hs : d.state ≠ none) (e : PkgDict) :
    (HasState (xhp.setPkgState p .installed) e ↔ HasState xhp e) ∧
      installRun (xhp.setPkgState p .installed) e = installRun xhp e := by
  rw [HasState, HasState, installRun, installRun, configured, configured, Handle.setPkgState]
  cases hk : findKeyInDict xhp.pkgdb p with
  | none => exact ⟨Iff.rfl, rfl⟩
  | some k =>
    have hget : xhp.pkgdb.get k = some d := by
      obtain ⟨key, hkey, hget⟩ := findPkgInDict_key hd
      have hsome : (findPkgInDict xhp.pkgdb p).isSome = true := Option.isSome_iff_exists.mpr ⟨d, hd⟩
      rw [findKeyInDict, if_pos hsome, hkey] at hk
      rwa [Option.some.inj hk] at hget
    simp only [pkgdbGetPkg]
    obtain h | ⟨a, ha, hak, h⟩ := findPkgInDict_modify xhp.pkgdb k
      (fun a => (rfl : (setInstalled a).pkgver = a.pkgver)) ((pkgName e.pkgver).getD e.pkgver)
    · have h' : findPkgInDict (xhp.pkgdb.modify k fun d => { d with state := some .installed })
          ((pkgName e.pkgver).getD e.pkgver) = _ := h
      rw [h']
      exact ⟨Iff.rfl, rfl⟩
    · have h' : findPkgInDict (xhp.pkgdb.modify k fun d => { d with state := some .installed })
          ((pkgName e.pkgver).getD e.pkgver) = _ := h
      obtain rfl := Option.some.inj (hget.symm.trans hak)
      rw [h', ha]
      refine ⟨⟨fun _ => ⟨d, rfl, hs⟩, fun _ => ⟨_, rfl, by simp [setInstalled]⟩⟩, rfl⟩

/-- What the last pass has done to one entry. -/
structure CommitState.Configures (c c' : CommitState) (e : PkgDict) : Prop where
  runs : c'.runs = c.runs ++ (installRun c.xhp e).toList
  hasState : ∀ e', HasState c'.xhp e' ↔ HasState c.xhp e'
  installRun : ∀ e', installRun c'.xhp e' = installRun c.xhp e'

/-- The package of an entry is configured once its script has ended with 0. -/
theorem configurePkg_eq (env : PassesEnv) {c : CommitState} {e d : PkgDict}
    (hd : configured c.xhp e = some d) (hs : d.state ≠ none) :
    configurePkg env c e.pkgver false (e.transaction = .update) =
      match installRun c.xhp e with
      | none => ({ c with xhp := c.xhp.setPkgState ((pkgName e.pkgver).getD e.pkgver) .installed },
          .ok)
      | some run =>
        if env.exec c.runs run ≠ 0 then
          ({ c with runs := c.runs ++ [run] }, .script (env.exec c.runs run))
        else
          ({ xhp := c.xhp.setPkgState ((pkgName e.pkgver).getD e.pkgver) .installed,
             runs := c.runs ++ [run] }, .ok) := by
  obtain ⟨state, hstate⟩ := Option.ne_none_iff_exists'.mp hs
  have hrun : installRun c.xhp e =
      d.installScript.map fun _ => ⟨d.pkgver, .install, .post, e.transaction = .update⟩ := by
    rw [installRun, hd, Option.bind_some]
  rw [configured] at hd
  rw [configurePkg]
  simp only [hd, hstate, Bool.false_eq_true, false_and, if_false]
  cases hi : d.installScript with
  | none =>
    rw [hrun, hi, CommitState.execScript, PkgDict.script, hi]
    rfl
  | some text =>
    rw [hrun, hi, CommitState.execScript, PkgDict.script, hi]
    rfl

/-- One entry of the last pass is configured if its record has a state and its script ends
with 0. -/
theorem configurePkg_cases (env : PassesEnv) (c : CommitState) (e : PkgDict) :
    (HasState c.xhp e ∧ env.Succeed c.runs (installRun c.xhp e).toList ∧
      ∃ c', configurePkg env c e.pkgver false (e.transaction = .update) = (c', .ok) ∧
        c.Configures c' e) ∨
    (¬(HasState c.xhp e ∧ env.Succeed c.runs (installRun c.xhp e).toList) ∧
      (configurePkg env c e.pkgver false (e.transaction = .update)).2 ≠ .ok) := by
  by_cases hstate : HasState c.xhp e
  · obtain ⟨d, hd, hs⟩ := hstate
    have hset := configured_setPkgState hd hs
    rw [configurePkg_eq env hd hs]
    cases hrun : installRun c.xhp e with
    | none =>
      refine Or.inl ⟨⟨d, hd, hs⟩, trivial, _, rfl, ?_⟩
      exact
        { runs := by rw [hrun]; exact (List.append_nil _).symm
          hasState := fun e' => (hset e').1
          installRun := fun e' => (hset e').2 }
    | some run =>
      simp only
      by_cases hcode : env.exec c.runs run = 0
      · rw [if_neg (not_not.mpr hcode)]
        refine Or.inl ⟨⟨d, hd, hs⟩, ⟨hcode, trivial⟩, _, rfl, ?_⟩
        exact
          { runs := by rw [hrun]; rfl
            hasState := fun e' => (hset e').1
            installRun := fun e' => (hset e').2 }
      · rw [if_pos hcode]
        exact Or.inr ⟨fun h => hcode h.2.1, by simp⟩
  · refine Or.inr ⟨fun h => hstate h.1, ?_⟩
    rw [configurePkg]
    cases hd : pkgdbGetPkg c.xhp ((pkgName e.pkgver).getD e.pkgver) with
    | none => simp
    | some d =>
      cases hs : d.state with
      | none => simp [hs]
      | some state => exact absurd ⟨d, hd, by simp [hs]⟩ hstate

theorem PassesEnv.Succeed.append_iff {env : PassesEnv} :
    ∀ {runs before after : List ScriptRun}, env.Succeed runs (before ++ after) ↔
      env.Succeed runs before ∧ env.Succeed (runs ++ before) after := by
  intro runs before
  induction before generalizing runs with
  | nil =>
    intro after
    rw [List.append_nil]
    exact ⟨fun h => ⟨trivial, h⟩, fun h => h.2⟩
  | cons run before ih =>
    intro after
    have h : env.Succeed (runs ++ [run]) (before ++ after) ↔ env.Succeed (runs ++ [run]) before ∧
        env.Succeed (runs ++ [run] ++ before) after := ih
    rw [List.append_assoc] at h
    exact ⟨fun hs => ⟨⟨hs.1, (h.mp hs.2).1⟩, (h.mp hs.2).2⟩,
      fun hs => ⟨hs.1.1, h.mpr ⟨hs.1.2, hs.2⟩⟩⟩

theorem installRuns_cons (xhp : Handle) {e : PkgDict} (pkgs : List PkgDict)
    (h : e.transaction.configures) :
    installRuns xhp (e :: pkgs) = (installRun xhp e).toList ++ installRuns xhp pkgs := by
  rw [installRuns, List.filter_cons_of_pos (by simpa using h), List.filterMap_cons, installRuns]
  cases installRun xhp e with
  | none => rfl
  | some run => rfl

theorem configurable_cons_iff {env : PassesEnv} {xhp : Handle} {e : PkgDict} {pkgs : List PkgDict}
    {runs : List ScriptRun} (h : e.transaction.configures) :
    Configurable env xhp (e :: pkgs) runs ↔
      (HasState xhp e ∧ env.Succeed runs (installRun xhp e).toList) ∧
        Configurable env xhp pkgs (runs ++ (installRun xhp e).toList) := by
  constructor
  · rintro ⟨hfound, hrun⟩
    rw [List.forall_mem_cons] at hfound
    rw [installRuns_cons xhp pkgs h, PassesEnv.Succeed.append_iff] at hrun
    exact ⟨⟨hfound.1 h, hrun.1⟩, hfound.2, hrun.2⟩
  · rintro ⟨⟨hstate, hrun⟩, hfound, hrest⟩
    refine ⟨List.forall_mem_cons.mpr ⟨fun _ => hstate, hfound⟩, ?_⟩
    rw [installRuns_cons xhp pkgs h, PassesEnv.Succeed.append_iff]
    exact ⟨hrun, hrest⟩

/-- The last pass returns 0 if all that is to be configured can be, and if there was something
or the result so far was 0.  It runs nothing but install-scripts. -/
theorem configureAll_ok_iff (env : PassesEnv) :
    ∀ (pkgs : List PkgDict) (c : CommitState) (rv : CommitRv),
      (configureAll env pkgs c rv).2 = .ok ↔
        (rv = .ok ∨ ∃ e ∈ pkgs, e.transaction.configures) ∧
          Configurable env c.xhp pkgs c.runs := by
  intro pkgs
  induction pkgs with
  | nil =>
    intro c rv
    rw [configureAll]
    refine ⟨fun h => ⟨Or.inl h, ⟨fun e he => (by cases he), trivial⟩⟩, ?_⟩
    rintro ⟨h | ⟨e, he, -⟩, -⟩
    · exact h
    · cases he
  | cons e pkgs ih =>
    intro c rv
    rw [configureAll]
    by_cases ht : e.transaction = .remove ∨ e.transaction = .hold
    · have hnot : ¬e.transaction.configures := fun h => ht.elim h.1 h.2
      rw [if_pos ht, ih]
      have hruns : installRuns c.xhp (e :: pkgs) = installRuns c.xhp pkgs := by
        rw [installRuns, List.filter_cons_of_neg (by simpa using hnot), installRuns]
      constructor
      · rintro ⟨hrv, hfound, hrun⟩
        refine ⟨hrv.imp_right ?_, ?_, ?_⟩
        · rintro ⟨e', he', hc⟩
          exact ⟨e', List.mem_cons_of_mem e he', hc⟩
        · exact List.forall_mem_cons.mpr ⟨fun h => absurd h hnot, hfound⟩
        · rwa [hruns]
      · rintro ⟨hrv, hfound, hrun⟩
        refine ⟨hrv.imp_right ?_, (List.forall_mem_cons.mp hfound).2, ?_⟩
        · rintro ⟨e', he', hc⟩
          rcases List.mem_cons.mp he' with rfl | he'
          · exact absurd hc hnot
          · exact ⟨e', he', hc⟩
        · rwa [hruns] at hrun
    · have hconf : e.transaction.configures := not_or.mp ht
      rw [if_neg ht, configurable_cons_iff hconf]
      obtain ⟨hstate, hrun, c', hc', hcfg⟩ | ⟨hnot, hne⟩ := configurePkg_cases env c e
      · rw [hc']
        simp only
        rw [ih, hcfg.runs]
        have hsame : Configurable env c'.xhp pkgs (c.runs ++ (installRun c.xhp e).toList) ↔
            Configurable env c.xhp pkgs (c.runs ++ (installRun c.xhp e).toList) := by
          have hruns : installRuns c'.xhp pkgs = installRuns c.xhp pkgs := by
            rw [installRuns, installRuns, funext hcfg.installRun]
          constructor
          · rintro ⟨hf, hs⟩
            exact ⟨fun e' he' hc => (hcfg.hasState e').mp (hf e' he' hc), hruns ▸ hs⟩
          · rintro ⟨hf, hs⟩
            exact ⟨fun e' he' hc => (hcfg.hasState e').mpr (hf e' he' hc), hruns.symm ▸ hs⟩
        rw [hsame]
        exact ⟨fun h => ⟨Or.inr ⟨e, List.mem_cons_self, hconf⟩, ⟨hstate, hrun⟩, h.2⟩,
          fun h => ⟨Or.inl rfl, h.2.2⟩⟩
      · -- the loop stops at the package that fails
        refine ⟨fun h => absurd ?_ hne, fun h => absurd h.2.1 hnot⟩
        generalize configurePkg env c e.pkgver false (e.transaction = .update) = r at h
        obtain ⟨c', rv'⟩ := r
        cases rv' with
        | ok => rfl
        | failed e => cases h
        | script code => cases h

theorem isPostRemove_installRun {xhp : Handle} {e : PkgDict} {run : ScriptRun}
    (h : installRun xhp e = some run) : run.isPostRemove = false := by
  obtain ⟨d, -, hd⟩ := Option.bind_eq_some_iff.mp h
  obtain ⟨text, -, rfl⟩ := Option.map_eq_some_iff.mp hd
  rfl

theorem configurePkg_runs (env : PassesEnv) (c : CommitState) (e : PkgDict) :
    ∃ more, (configurePkg env c e.pkgver false (e.transaction = .update)).1.runs =
      c.runs ++ more ∧ ∀ run ∈ more, run.isPostRemove = false := by
  have hsame : ∃ more, c.runs = c.runs ++ more ∧ ∀ run ∈ more, run.isPostRemove = false :=
    ⟨[], (List.append_nil _).symm, fun run h => by cases h⟩
  by_cases hstate : HasState c.xhp e
  · obtain ⟨d, hd, hs⟩ := hstate
    rw [configurePkg_eq env hd hs]
    cases hrun : installRun c.xhp e with
    | none => exact hsame
    | some run =>
      have hone : ∀ r ∈ [run], r.isPostRemove = false := by
        rintro r hr
        rw [List.mem_singleton.mp hr]
        exact isPostRemove_installRun hrun
      simp only
      split
      · exact ⟨[run], rfl, hone⟩
      · exact ⟨[run], rfl, hone⟩
  · rw [configurePkg]
    cases hd : pkgdbGetPkg c.xhp ((pkgName e.pkgver).getD e.pkgver) with
    | none => simpa only [hd] using hsame
    | some d =>
      cases hs : d.state with
      | none => simpa only [hd, hs] using hsame
      | some state => exact absurd ⟨d, hd, by simp [hs]⟩ hstate

/-- The runs of the last pass are no remove-scripts. -/
theorem configureAll_runs (env : PassesEnv) :
    ∀ (pkgs : List PkgDict) (c : CommitState) (rv : CommitRv),
      ∃ more, (configureAll env pkgs c rv).1.runs = c.runs ++ more ∧
        ∀ run ∈ more, run.isPostRemove = false := by
  intro pkgs
  induction pkgs with
  | nil => exact fun c rv => ⟨[], (List.append_nil _).symm, fun run h => by cases h⟩
  | cons e pkgs ih =>
    intro c rv
    rw [configureAll]
    split
    · exact ih c rv
    · obtain ⟨more, hmore, hone⟩ := configurePkg_runs env c e
      generalize configurePkg env c e.pkgver false (e.transaction = .update) = r at hmore
      obtain ⟨c', rv'⟩ := r
      cases rv' with
      | ok =>
        obtain ⟨rest, hrest, hall⟩ := ih c' .ok
        refine ⟨more ++ rest, ?_, fun run hrun => ?_⟩
        · rw [hrest, hmore, List.append_assoc]
        · rcases List.mem_append.mp hrun with h | h
          · exact hone run h
          · exact hall run h
      | failed e => exact ⟨more, hmore, hone⟩
      | script code => exact ⟨more, hmore, hone⟩

/-! ### Failures of removed packages -/

/-- One of the last two actions of a package that is removed. -/
def OfRemoved (xhp : Handle) (pkgs : List PkgDict) (run : ScriptRun) : Prop :=
  run.isPostRemove = true ∧ ∃ e ∈ pkgs, e.transaction = .remove ∧
    ∃ d, e.pkgname.bind (pkgdbGetPkg xhp) = some d ∧ d.pkgver = run.pkgver

/-- Among the second actions, run one after the other after the first, one of a removed package
has not ended with 0. -/
def RemovedFails (env : PassesEnv) (xhp : Handle) (pkgs : List PkgDict) :
    List ScriptRun → List ScriptRun → Prop
  | _, [] => False
  | runs, run :: rest =>
    (OfRemoved xhp pkgs run ∧ env.exec runs run ≠ 0) ∨
      RemovedFails env xhp pkgs (runs ++ [run]) rest

variable {env : PassesEnv} {xhp : Handle} {pkgs : List PkgDict}

theorem removedFails_append_iff {runs a b : List ScriptRun} :
    RemovedFails env xhp pkgs runs (a ++ b) ↔
      RemovedFails env xhp pkgs runs a ∨ RemovedFails env xhp pkgs (runs ++ a) b := by
  induction a generalizing runs with
  | nil =>
    rw [List.append_nil]
    exact ⟨Or.inr, fun h => h.resolve_left id⟩
  | cons run a ih =>
    have h : RemovedFails env xhp pkgs (runs ++ [run]) (a ++ b) ↔
        RemovedFails env xhp pkgs (runs ++ [run]) a ∨
          RemovedFails env xhp pkgs (runs ++ [run] ++ a) b := ih
    rw [List.append_assoc] at h
    rw [List.cons_append, RemovedFails, RemovedFails, h, or_assoc]
    rfl

theorem not_removedFails {runs a : List ScriptRun} (h : ∀ run ∈ a, run.isPostRemove = false) :
    ¬RemovedFails env xhp pkgs runs a := by
  induction a generalizing runs with
  | nil => exact id
  | cons run a ih =>
    rw [List.forall_mem_cons] at h
    rintro (⟨⟨hrun, -⟩, -⟩ | hrest)
    · rw [h.1] at hrun
      cases hrun
    · exact ih h.2 hrest

theorem PassesEnv.Succeed.not_removedFails {runs a : List ScriptRun} (h : env.Succeed runs a) :
    ¬RemovedFails env xhp pkgs runs a := by
  induction a generalizing runs with
  | nil => exact id
  | cons run a ih =>
    rintro (⟨-, hne⟩ | hrest)
    · exact hne h.1
    · exact ih h.2 hrest

/-- There is one first action that fails. -/
theorem PassesEnv.Succeed.first_unique {runs a b a' b' : List ScriptRun} {r r' : ScriptRun}
    (h : env.Succeed runs a) (h' : env.Succeed runs a') (hr : env.exec (runs ++ a) r ≠ 0)
    (hr' : env.exec (runs ++ a') r' ≠ 0) (heq : a ++ r :: b = a' ++ r' :: b') :
    a = a' ∧ r = r' := by
  rcases List.append_eq_append_iff.mp heq with ⟨c, rfl, hc⟩ | ⟨c, rfl, hc⟩
  · cases c with
    | nil => exact ⟨(List.append_nil a).symm, (List.cons.inj hc).1⟩
    | cons x c =>
      obtain ⟨rfl, -⟩ := List.cons.inj hc
      exact absurd h'.exec hr
  · cases c with
    | nil => exact ⟨List.append_nil a', (List.cons.inj hc).1.symm⟩
    | cons x c =>
      obtain ⟨rfl, -⟩ := List.cons.inj hc
      exact absurd h.exec hr'

/-- The scripts that a commit has collected, and its state, when it gets to run them. -/
def beforeScripts (env : PassesEnv) (totals : Bool) (xhp : Handle) (pkgs : List PkgDict) :
    Option (List Str × CommitState) :=
  if env.fetchError = none ∧ xhp.flags.downloadOnly = false ∧ env.checkError = none then
    match preRemove env pkgs { xhp } [] with
    | (c, scripts, .ok) =>
      match preInstall env pkgs c with
      | (c, .ok) =>
        match commitEntries env pkgs c with
        | (c, .ok) =>
          if totals = false ∨ env.crossArch = true ∨ c.xhp.flags.unpackOnly = true ∨
            env.flushError ≠ none then none
          else some (scripts, c)
        | _ => none
      | _ => none
    | _ => none
  else none

/-- The commit goes on after the failure of one of the last two actions of a removed package,
and returns 0 in the end: the first action that has failed is such a one, its code is positive,
something is left to configure, all of it can be, and the database is written. -/
structure LosesFailure (env : PassesEnv) (xhp : Handle) (pkgs : List PkgDict) (scripts : List Str)
    (c : CommitState) : Prop where
  first : ∃ before run after, scripts.flatMap postActions = before ++ run :: after ∧
    env.Succeed c.runs before ∧ 0 < env.exec (c.runs ++ before) run ∧ OfRemoved xhp pkgs run ∧
    Configurable env c.xhp pkgs (c.runs ++ before ++ [run])
  configures : ∃ e ∈ pkgs, e.transaction.configures
  written : env.lastFlushError = none

theorem commitOut_fst (env : PassesEnv) (r : CommitState × CommitRv) :
    (commitOut env r).1 = r.1 := by
  obtain ⟨c, rv⟩ := r
  cases rv with
  | ok =>
    rw [commitOut]
    cases env.lastFlushError with
    | none => rfl
    | some e => rfl
  | failed e => rfl
  | script code => rfl

theorem commitOut_ok_iff (env : PassesEnv) (r : CommitState × CommitRv) :
    (commitOut env r).2 = .ok ↔ r.2 = .ok ∧ env.lastFlushError = none := by
  obtain ⟨c, rv⟩ := r
  cases rv with
  | ok =>
    rw [commitOut]
    cases env.lastFlushError with
    | none => exact ⟨fun _ => ⟨rfl, rfl⟩, fun _ => rfl⟩
    | some e => exact ⟨fun h => (by cases h), fun h => (by cases h.2)⟩
  | failed e => exact ⟨fun h => (by cases h), fun h => (by cases h.1)⟩
  | script code => exact ⟨fun h => (by cases h), fun h => (by cases h.1)⟩

/-- From the collected scripts on: all actions are run, or those up to the first that fails; the
commit returns 0 after that one if its code is positive, something is left to configure, all of
it can be, and the database is written. -/
theorem commitConfigure_ran (pkgs : List PkgDict) (scripts : List Str) (c : CommitState)
    (hflush : env.flushError = none) :
    (env.Succeed c.runs (scripts.flatMap postActions) ∧
      ∃ more, (commitOut env (commitConfigure env pkgs scripts c)).1.runs =
          c.runs ++ scripts.flatMap postActions ++ more ∧
        ∀ run ∈ more, run.isPostRemove = false) ∨
    ∃ before run after, scripts.flatMap postActions = before ++ run :: after ∧
      env.Succeed c.runs before ∧ env.exec (c.runs ++ before) run ≠ 0 ∧
      (∃ more, (commitOut env (commitConfigure env pkgs scripts c)).1.runs =
          c.runs ++ (before ++ [run]) ++ more ∧ ∀ run ∈ more, run.isPostRemove = false) ∧
      ((commitOut env (commitConfigure env pkgs scripts c)).2 = .ok ↔
        0 < env.exec (c.runs ++ before) run ∧ (∃ e ∈ pkgs, e.transaction.configures) ∧
          Configurable env c.xhp pkgs (c.runs ++ before ++ [run]) ∧
          env.lastFlushError = none) := by
  rw [commitOut_fst, commitOut_ok_iff, commitConfigure, hflush]
  simp only
  have hx : (runPostRemoveScripts env scripts c).1.xhp = c.xhp :=
    (runPostRemoveScripts_spec env scripts rfl).1
  have hruns := runPostRemoveScripts_runs env scripts c
  generalize runPostRemoveScripts env scripts c = r at hx hruns
  obtain ⟨c₁, code⟩ := r
  simp only at hx hruns ⊢
  obtain ⟨rfl, hall, hr⟩ | ⟨before, run, after, hplan, hall, hne, rfl, hr⟩ := hruns
  · rw [if_neg (lt_irrefl 0), if_pos rfl, ← hr]
    exact Or.inl ⟨hall, configureAll_runs env pkgs c₁ .ok⟩
  · rw [List.append_assoc] at hr
    refine Or.inr ⟨before, run, after, hplan, hall, hne, ?_⟩
    by_cases hneg : env.exec (c.runs ++ before) run < 0
    · rw [if_pos hneg]
      refine ⟨⟨[], by rw [hr, List.append_nil], fun r h => by cases h⟩, fun h => ?_, fun h => ?_⟩
      · cases h.1
      · exact absurd h.1 hneg.not_gt
    · -- a positive code is kept until a package is configured
      have hpos : 0 < env.exec (c.runs ++ before) run := lt_of_le_of_ne (not_lt.mp hneg) hne.symm
      rw [if_neg hneg, if_neg hne, configureAll_ok_iff, hx, hr, ← List.append_assoc]
      refine ⟨?_, ?_⟩
      · have hmore := configureAll_runs env pkgs c₁ (.script (env.exec (c.runs ++ before) run))
        rwa [hr, ← List.append_assoc] at hmore
      · constructor
        · rintro ⟨⟨hconf, hcfg⟩, hlast⟩
          exact ⟨hpos, hconf.resolve_left (by simp), hcfg, hlast⟩
        · rintro ⟨-, hconf, hcfg, hlast⟩
          exact ⟨⟨Or.inr hconf, hcfg⟩, hlast⟩

theorem commitLoop_flags {env : CommitEnv} :
    ∀ {pkgs : List PkgDict} {xhp xhp' : Handle}, commitLoop env xhp pkgs = .ok xhp' →
      xhp'.flags = xhp.flags := by
  intro pkgs
  induction pkgs with
  | nil =>
    intro xhp xhp' h
    obtain rfl := Except.ok.inj h
    rfl
  | cons obj pkgs ih =>
    intro xhp xhp' h
    obtain ⟨xhp₁, h₁, h₂⟩ := bind_eq_ok h
    exact (ih h₂).trans (commitEntry_flags h₁)

/-- A commit runs the collected scripts, or ends without any of the last two actions. -/
theorem transactionCommit_beforeScripts (env : PassesEnv) (totals : Bool) (xhp : Handle)
    (pkgs : List PkgDict) :
    (∃ scripts c, beforeScripts env totals xhp pkgs = some (scripts, c) ∧ env.flushError = none ∧
      c.postRemoves = [] ∧
      transactionCommit env totals xhp pkgs = commitOut env (commitConfigure env pkgs scripts c)) ∨
    (beforeScripts env totals xhp pkgs = none ∧
      (transactionCommit env totals xhp pkgs).1.postRemoves = [] ∧
      (totals = true → xhp.flags.downloadOnly = false → env.crossArch = false →
        xhp.flags.unpackOnly = false → (transactionCommit env totals xhp pkgs).2 ≠ .ok)) := by
  have hearly : ∀ {c : CommitState} {rv : CommitRv}, rv ≠ .ok → (commitOut env (c, rv)).2 ≠ .ok :=
    fun hrv h => hrv ((commitOut_ok_iff env _).mp h).1
  rw [transactionCommit, beforeScripts, commitOut_fst]
  cases hfetch : env.fetchError with
  | some e => exact Or.inr ⟨by simp, rfl, fun _ _ _ _ => hearly (by simp)⟩
  | none =>
    cases hload : xhp.flags.downloadOnly with
    | true => exact Or.inr ⟨by simp, by simp [CommitState.postRemoves], fun _ h => by cases h⟩
    | false =>
      cases hcheck : env.checkError with
      | some e =>
        exact Or.inr ⟨by simp, by simp [CommitState.postRemoves], fun _ _ _ _ => hearly (by simp)⟩
      | none =>
        simp only [and_self, if_true, Bool.false_eq_true, if_false]
        obtain ⟨⟨c₁, scripts, rv₁⟩, hpre⟩ : ∃ r, preRemove env pkgs { xhp } [] = r := ⟨_, rfl⟩
        have hsame₁ := (preRemove_spec env pkgs hpre).1
        have hp₁ : c₁.postRemoves = [] := hsame₁.postRemoves
        rw [hpre]
        cases rv₁ with
        | failed e => exact Or.inr ⟨rfl, hp₁, fun _ _ _ _ => hearly (by simp)⟩
        | script code => exact Or.inr ⟨rfl, hp₁, fun _ _ _ _ => hearly (by simp)⟩
        | ok =>
          simp only
          have hsame₂ := preInstall_spec env pkgs c₁
          have hp₂ : (preInstall env pkgs c₁).1.postRemoves = [] := hsame₂.postRemoves.trans hp₁
          have hx₂ : (preInstall env pkgs c₁).1.xhp = xhp := hsame₂.xhp.trans hsame₁.xhp
          generalize preInstall env pkgs c₁ = r at hp₂ hx₂
          obtain ⟨c₂, rv₂⟩ := r
          cases rv₂ with
          | failed e => exact Or.inr ⟨rfl, hp₂, fun _ _ _ _ => hearly (by simp)⟩
          | script code => exact Or.inr ⟨rfl, hp₂, fun _ _ _ _ => hearly (by simp)⟩
          | ok =>
            simp only at hp₂ hx₂ ⊢
            obtain ⟨⟨c₃, rv₃⟩, hent⟩ : ∃ r, commitEntries env pkgs c₂ = r := ⟨_, rfl⟩
            obtain ⟨hruns, hloop⟩ := commitEntries_spec env pkgs hent
            have hp₃ : c₃.postRemoves = [] := by
              rw [CommitState.postRemoves, hruns]
              exact hp₂
            rw [hent]
            cases rv₃ with
            | failed e => exact Or.inr ⟨rfl, hp₃, fun _ _ _ _ => hearly (by simp)⟩
            | script code => exact Or.inr ⟨rfl, hp₃, fun _ _ _ _ => hearly (by simp)⟩
            | ok =>
              simp only
              -- the transaction ends here unless there is something to configure
              by_cases hdone : totals = false ∨ env.crossArch = true ∨
                  c₃.xhp.flags.unpackOnly = true
              · rw [if_pos hdone, if_pos (by tauto)]
                refine Or.inr ⟨rfl, hp₃, fun htotals _ harch hunpack => ?_⟩
                rw [commitLoop_flags (hloop rfl), hx₂, htotals, harch, hunpack] at hdone
                simp at hdone
              · rw [if_neg hdone]
                cases hflush : env.flushError with
                | some e =>
                  rw [if_pos (by simp), commitConfigure, hflush]
                  exact Or.inr ⟨rfl, hp₃, fun _ _ _ _ => hearly (by simp)⟩
                | none =>
                  rw [if_neg (by simpa using hdone)]
                  exact Or.inl ⟨scripts, c₃, rfl, rfl, hp₃, rfl⟩

/-! ### Which removed packages get their turn -/

/-- One of the last two actions is run for a package that stays: all actions before it end
with 0. -/
def RunsKept (env : PassesEnv) (xhp : Handle) (pkgs : List PkgDict) (scripts : List Str)
    (c : CommitState) : Prop :=
  ∃ before run after, scripts.flatMap postActions = before ++ run :: after ∧
    env.Succeed c.runs before ∧
    ∃ e ∈ pkgs, e.transaction ≠ .remove ∧ collected xhp e = some run.pkgver

/-- A removed package does not get its turn, and the commit returns 0 in the end: an action of
its script comes after the first that fails, whose code is positive, something is left to
configure, all of it can be, and the database is written. -/
structure SkipsRemoved (env : PassesEnv) (xhp : Handle) (pkgs : List PkgDict) (scripts : List Str)
    (c : CommitState) : Prop where
  first : ∃ before run after, scripts.flatMap postActions = before ++ run :: after ∧
    env.Succeed c.runs before ∧ 0 < env.exec (c.runs ++ before) run ∧
    (∃ later ∈ after, ∃ e ∈ pkgs, e.transaction = .remove ∧
      collected xhp e = some later.pkgver) ∧
    Configurable env c.xhp pkgs (c.runs ++ before ++ [run])
  configures : ∃ e ∈ pkgs, e.transaction.configures
  written : env.lastFlushError = none

/-- What is collected when the scripts are run, and what the entries have done by then. -/
theorem unpacked_of_beforeScripts {totals : Bool} {scripts : List Str} {c : CommitState}
    (h : beforeScripts env totals xhp pkgs = some (scripts, c)) :
    Unpacked env xhp pkgs scripts c := by
  have hnil : c.postRemoves = [] := by
    obtain ⟨scripts', c', hb, -, hnil, -⟩ | ⟨hb, -⟩ :=
      transactionCommit_beforeScripts env totals xhp pkgs
    · obtain ⟨-, rfl⟩ := Prod.mk.inj (Option.some.inj (h.symm.trans hb))
      exact hnil
    · rw [hb] at h
      cases h
  rw [beforeScripts] at h
  split at h
  · split at h
    · next c₁ scripts₁ hpre =>
      obtain ⟨hsame₁, hscripts⟩ := preRemove_spec env pkgs hpre
      split at h
      · next c₂ hins =>
        have hsame₂ := preInstall_spec env pkgs c₁
        rw [hins] at hsame₂
        split at h
        · next c₃ hent =>
          split at h
          · cases h
          · obtain ⟨rfl, rfl⟩ := Prod.mk.inj (Option.some.inj h)
            have hloop := (commitEntries_spec env pkgs hent).2 rfl
            rw [hsame₂.xhp, hsame₁.xhp] at hloop
            exact ⟨hscripts rfl, hnil, hloop⟩
        · cases h
      · cases h
    · cases h
  · cases h

/-- The runs of a commit before, with and after the collected scripts. -/
theorem postRemoves_of_runs {c : CommitState} {runs plan more : List ScriptRun}
    (h : c.runs = runs ++ plan ++ more) (hruns : ∀ run ∈ runs, run.isPostRemove = false)
    (hplan : ∀ run ∈ plan, run.isPostRemove = true)
    (hmore : ∀ run ∈ more, run.isPostRemove = false) : c.postRemoves = plan := by
  rw [CommitState.postRemoves, h, List.filter_append, List.filter_append,
    List.filter_eq_nil_iff.mpr fun run hrun => by simp [hruns run hrun],
    List.filter_eq_self.mpr hplan,
    List.filter_eq_nil_iff.mpr fun run hrun => by simp [hmore run hrun], List.nil_append,
    List.append_nil]

/-- What is in the plan of the collected scripts. -/
theorem mem_plan {scripts : List Str} {run : ScriptRun} (h : run ∈ scripts.flatMap postActions) :
    run.pkgver ∈ scripts ∧ run.isPostRemove = true := by
  obtain ⟨v, hv, hact⟩ := List.mem_flatMap.mp h
  obtain ⟨hver, hpost⟩ := isPostRemove_of_mem hact
  exact ⟨hver ▸ hv, hpost⟩

/-- The actions that a commit runs, from the collected scripts on. -/
theorem commitConfigure_postRemoves (pkgs : List PkgDict) (scripts : List Str) (c : CommitState)
    (hflush : env.flushError = none) (hnone : ∀ run ∈ c.runs, run.isPostRemove = false) :
    (env.Succeed c.runs (scripts.flatMap postActions) ∧
      (commitOut env (commitConfigure env pkgs scripts c)).1.postRemoves =
        scripts.flatMap postActions) ∨
    ∃ before run after, scripts.flatMap postActions = before ++ run :: after ∧
      env.Succeed c.runs before ∧ env.exec (c.runs ++ before) run ≠ 0 ∧
      (commitOut env (commitConfigure env pkgs scripts c)).1.postRemoves = before ++ [run] ∧
      ((commitOut env (commitConfigure env pkgs scripts c)).2 = .ok ↔
        0 < env.exec (c.runs ++ before) run ∧ (∃ e ∈ pkgs, e.transaction.configures) ∧
          Configurable env c.xhp pkgs (c.runs ++ before ++ [run]) ∧
          env.lastFlushError = none) := by
  obtain ⟨hall, more, hr, hmore⟩ | ⟨before, run, after, hplan, hall, hne, ⟨more, hr, hmore⟩, hok⟩ :=
    commitConfigure_ran pkgs scripts c hflush
  · exact Or.inl ⟨hall, postRemoves_of_runs hr hnone (fun r h => (mem_plan h).2) hmore⟩
  · refine Or.inr ⟨before, run, after, hplan, hall, hne, ?_, hok⟩
    have hran : ∀ r ∈ before ++ [run], r ∈ scripts.flatMap postActions := by
      intro r h
      rw [hplan, List.append_cons]
      exact List.mem_append_left after h
    exact postRemoves_of_runs hr hnone (fun r h => (mem_plan (hran r h)).2) hmore

/-- An action is run if all before it end with 0. -/
theorem commitConfigure_mem_iff (pkgs : List PkgDict) (scripts : List Str) (c : CommitState)
    (hflush : env.flushError = none) (hnone : ∀ run ∈ c.runs, run.isPostRemove = false)
    {run : ScriptRun} :
    run ∈ (commitOut env (commitConfigure env pkgs scripts c)).1.postRemoves ↔
      ∃ before after, scripts.flatMap postActions = before ++ run :: after ∧
        env.Succeed c.runs before := by
  obtain ⟨hall, hp⟩ | ⟨pre, r, post, hplan, hall, hne, hp, -⟩ :=
    commitConfigure_postRemoves pkgs scripts c hflush hnone
  · rw [hp]
    constructor
    · intro h
      obtain ⟨before, after, hsplit⟩ := List.append_of_mem h
      rw [hsplit, PassesEnv.Succeed.append_iff] at hall
      exact ⟨before, after, hsplit, hall.1⟩
    · rintro ⟨before, after, hsplit, -⟩
      rw [hsplit]
      exact List.mem_append_right before List.mem_cons_self
  · rw [hp]
    constructor
    · rintro h
      rcases List.mem_append.mp h with h | h
      · obtain ⟨before, a, rfl⟩ := List.append_of_mem h
        rw [PassesEnv.Succeed.append_iff] at hall
        exact ⟨before, a ++ r :: post, by rw [hplan, List.append_assoc, List.cons_append], hall.1⟩
      · rw [List.mem_singleton.mp h]
        exact ⟨pre, post, hplan, hall⟩
    · rintro ⟨before, after, hsplit, hbefore⟩
      rcases List.append_eq_append_iff.mp (hplan.symm.trans hsplit) with ⟨a, rfl, ha⟩ | ⟨a, rfl, ha⟩
      · cases a with
        | nil =>
          rw [(List.cons.inj ha).1]
          exact List.mem_append_right pre List.mem_cons_self
        | cons x a =>
          -- the action that fails would be one of those before
          obtain ⟨rfl, -⟩ := List.cons.inj ha
          exact absurd hbefore.exec hne
      · cases a with
        | nil =>
          rw [← (List.cons.inj ha).1, List.append_nil]
          exact List.mem_append_right before List.mem_cons_self
        | cons x a =>
          rw [(List.cons.inj ha).1]
          exact List.mem_append_left [r] (List.mem_append_right before List.mem_cons_self)

/-- The entry of the script that an action belongs to. -/
theorem exists_collected {scripts : List Str} (hscripts : scripts = pkgs.filterMap (collected xhp))
    {run : ScriptRun} (h : run ∈ scripts.flatMap postActions) :
    ∃ e ∈ pkgs, collected xhp e = some run.pkgver := by
  have hv := (mem_plan h).1
  rw [hscripts] at hv
  exact List.mem_filterMap.mp hv

/-- Entries with plain names for which the same script is collected are the same. -/
theorem collected_inj (hkeys : KeysNamed xhp) (hplain : ∀ e ∈ pkgs, PlainNamed e)
    (hdist : pkgs.Pairwise fun a b => a.pkgname ≠ b.pkgname) {e e' : PkgDict} (he : e ∈ pkgs)
    (he' : e' ∈ pkgs) {n : Str} {d : PkgDict} {v : Str} (hcol : collected xhp e = some v)
    (hn : e'.pkgname = some n) (hd : xhp.pkgdb.get n = some d) (hdv : d.pkgver = v) : e' = e := by
  obtain ⟨m, d', hm, hd', hdv', -⟩ := collected_some (hplain e he) hcol
  have hnm : n = m := hkeys.key_eq hd hd' (by rw [hdv, hdv'])
  by_contra hee
  have : Std.Symm fun a b : PkgDict => a.pkgname ≠ b.pkgname := ⟨fun _ _ h => h.symm⟩
  exact hdist.forall he' he hee (by rw [hn, hm, hnm])

/-- The first half: the actions are run for packages that go away. -/
theorem removed_iff (hkeys : KeysNamed xhp) (hplain : ∀ e ∈ pkgs, PlainNamed e)
    (hdist : pkgs.Pairwise fun a b => a.pkgname ≠ b.pkgname)
    (hupd : ∀ e ∈ pkgs, e.removeAndUpdate ≠ some true) {scripts : List Str} {c : CommitState}
    (hunp : Unpacked env xhp pkgs scripts c) (hflush : env.flushError = none)
    (hnone : ∀ run ∈ c.runs, run.isPostRemove = false) {r : CommitState × CommitRv}
    (hr : commitOut env (commitConfigure env pkgs scripts c) = r) :
    (∀ run ∈ r.1.runs, run.isPostRemove = true → ∃ e ∈ pkgs, e.transaction = .remove ∧
        ∃ n d, e.pkgname = some n ∧ xhp.pkgdb.get n = some d ∧ d.pkgver = run.pkgver ∧
          r.1.xhp.pkgdb.get n = none) ↔
      ¬RunsKept env xhp pkgs scripts c := by
  have hmem : ∀ {run : ScriptRun}, run ∈ r.1.postRemoves ↔ ∃ before after,
      scripts.flatMap postActions = before ++ run :: after ∧ env.Succeed c.runs before := by
    intro run
    rw [← hr]
    exact commitConfigure_mem_iff pkgs scripts c hflush hnone
  constructor
  · rintro hok ⟨before, run, after, hplan, hbefore, e, he, hne, hcol⟩
    obtain ⟨hrun, hpost⟩ := List.mem_filter.mp (hmem.mpr ⟨before, after, hplan, hbefore⟩)
    obtain ⟨e', he', ht', n, d, hn, hd, hdv, -⟩ := hok run hrun hpost
    exact hne (collected_inj hkeys hplain hdist he he' hcol hn hd hdv ▸ ht')
  · intro hkept run hrun hpost
    obtain ⟨before, after, hplan, hbefore⟩ := hmem.mp (List.mem_filter.mpr ⟨hrun, hpost⟩)
    have hin : run ∈ scripts.flatMap postActions := by
      rw [hplan]
      exact List.mem_append_right before List.mem_cons_self
    obtain ⟨e, he, hcol⟩ := exists_collected hunp.scripts hin
    have ht : e.transaction = .remove := by
      by_contra hne
      exact hkept ⟨before, run, after, hplan, hbefore, e, he, hne, hcol⟩
    obtain ⟨n, d, hn, hd, hdv, -⟩ := collected_some (hplain e he) hcol
    refine ⟨e, he, ht, n, d, hn, hd, hdv, ?_⟩
    -- nothing that is configured later is there again
    obtain ⟨-, -, hplanned⟩ := commitLoop_planned hplain hdist hunp.loop
    have hgone := hplanned e he n hn
    rw [Planned, ht] at hgone
    obtain ⟨-, -, -, -, -, hor, -, -⟩ := commitConfigure_spec hplain hr
    rcases hor n with hget | hget
    · rw [hget, hgone (hupd e he)]
    · rw [hget, hgone (hupd e he)]
      rfl

/-- The script of a removed package that has one is among those collected. -/
theorem mem_scripts_of_remove (hplain : ∀ e ∈ pkgs, PlainNamed e) {scripts : List Str}
    (hscripts : scripts = pkgs.filterMap (collected xhp)) {e d : PkgDict} {n : Str} (he : e ∈ pkgs)
    (ht : e.transaction = .remove) (hn : e.pkgname = some n) (hd : xhp.pkgdb.get n = some d)
    (hs : d.removeScript ≠ none) : collected xhp e = some d.pkgver ∧ d.pkgver ∈ scripts := by
  have hcol := collected_of_remove (hplain e he) ht hn hd hs
  rw [hscripts]
  exact ⟨hcol, List.mem_filterMap.mpr ⟨e, he, hcol⟩⟩

/-- An action of the plan is the `post` or the `purge` action of its package. -/
theorem eq_of_mem_plan {scripts : List Str} {run : ScriptRun}
    (h : run ∈ scripts.flatMap postActions) :
    ∃ action : Action, (action = .post ∨ action = .purge) ∧
      run = ⟨run.pkgver, .remove, action, false⟩ := by
  obtain ⟨w, -, hact⟩ := List.mem_flatMap.mp h
  simp only [postActions, List.mem_cons, List.not_mem_nil, or_false] at hact
  rcases hact with rfl | rfl
  · exact ⟨.post, Or.inl rfl, rfl⟩
  · exact ⟨.purge, Or.inr rfl, rfl⟩

/-- Each action is in the plan once: it is run, or it is among those that come after the one that
fails. -/
theorem count_runs_add {scripts : List Str} {after : List ScriptRun} {c : CommitState}
    (hnodup : scripts.Nodup) (hplan : scripts.flatMap postActions = c.postRemoves ++ after)
    {action : Action} (ha : action = .post ∨ action = .purge) {v : Str} (hv : v ∈ scripts) :
    c.runs.count ⟨v, .remove, action, false⟩ + after.count ⟨v, .remove, action, false⟩ = 1 := by
  have hruns : c.runs.count ⟨v, .remove, action, false⟩ =
      c.postRemoves.count ⟨v, .remove, action, false⟩ := by
    refine (List.count_filter ?_).symm
    rcases ha with rfl | rfl
    · rfl
    · rfl
  rw [hruns, ← List.count_append, ← hplan, count_postActions ha]
  exact List.count_eq_one_of_mem hnodup hv

/-- The second half: if the commit returns 0, the actions of all removed packages were run. -/
theorem once_iff (hkeys : KeysNamed xhp) (hplain : ∀ e ∈ pkgs, PlainNamed e)
    (hdist : pkgs.Pairwise fun a b => a.pkgname ≠ b.pkgname) {scripts : List Str} {c : CommitState}
    (hscripts : scripts = pkgs.filterMap (collected xhp)) (hflush : env.flushError = none)
    (hnone : ∀ run ∈ c.runs, run.isPostRemove = false) {r : CommitState × CommitRv}
    (hr : commitOut env (commitConfigure env pkgs scripts c) = r) :
    (r.2 = .ok → ∀ e ∈ pkgs, e.transaction = .remove → ∀ n d, e.pkgname = some n →
        xhp.pkgdb.get n = some d → d.removeScript ≠ none →
        r.1.runs.count ⟨d.pkgver, .remove, .post, false⟩ = 1 ∧
          r.1.runs.count ⟨d.pkgver, .remove, .purge, false⟩ = 1) ↔
      ¬SkipsRemoved env xhp pkgs scripts c := by
  have hnodup : scripts.Nodup := by
    rw [hscripts]
    exact nodup_collected hkeys hplain hdist
  have hcases := commitConfigure_postRemoves pkgs scripts c hflush hnone
  rw [hr] at hcases
  obtain ⟨hall, hp⟩ | ⟨before, run, after, hplan, hall, hne, hp, hok⟩ := hcases
  · constructor
    · rintro - ⟨⟨before, run, after, hplan, -, hpos, -⟩, -, -⟩
      rw [hplan] at hall
      rw [hall.exec] at hpos
      exact lt_irrefl 0 hpos
    · intro _ _ e he ht n d hn hd hs
      have hv := (mem_scripts_of_remove hplain hscripts he ht hn hd hs).2
      have hplan : scripts.flatMap postActions = r.1.postRemoves ++ [] := by
        rw [hp, List.append_nil]
      exact ⟨count_runs_add hnodup hplan (Or.inl rfl) hv,
        count_runs_add hnodup hplan (Or.inr rfl) hv⟩
  · have hcount : ∀ {v : Str} {action : Action}, action = .post ∨ action = .purge → v ∈ scripts →
        r.1.runs.count ⟨v, .remove, action, false⟩ +
          after.count ⟨v, .remove, action, false⟩ = 1 := by
      intro v action ha hv
      refine count_runs_add hnodup ?_ ha hv
      rw [hp, List.append_assoc, List.singleton_append]
      exact hplan
    constructor
    · rintro honce ⟨⟨before', run', after', hplan', hall', hpos, hlater, hcfg⟩, hconf, hlast⟩
      obtain ⟨rfl, rfl⟩ := hall.first_unique hall' hne hpos.ne' (hplan.symm.trans hplan')
      obtain rfl : after = after' := by simpa using hplan.symm.trans hplan'
      obtain ⟨later, hmem, e, he, ht, hcol⟩ := hlater
      obtain ⟨n, d, hn, hd, hdv, hs⟩ := collected_some (hplain e he) hcol
      have hones := honce (hok.mpr ⟨hpos, hconf, hcfg, hlast⟩) e he ht n d hn hd hs
      have hv := (mem_scripts_of_remove hplain hscripts he ht hn hd hs).2
      obtain ⟨action, ha, heq⟩ := eq_of_mem_plan
        (hplan ▸ List.mem_append_right before (List.mem_cons_of_mem run hmem))
      -- the action that comes later was run, too
      have hone : r.1.runs.count ⟨d.pkgver, .remove, action, false⟩ = 1 := by
        rcases ha with rfl | rfl
        · exact hones.1
        · exact hones.2
      have hafter : 0 < after.count ⟨d.pkgver, .remove, action, false⟩ := by
        rw [hdv, ← heq]
        exact List.count_pos_iff.mpr hmem
      have htwo := hcount ha hv
      omega
    · intro hskip hrv e he ht n d hn hd hs
      obtain ⟨hcol, hv⟩ := mem_scripts_of_remove hplain hscripts he ht hn hd hs
      obtain ⟨hpos, hconf, hcfg, hlast⟩ := hok.mp hrv
      have hafter : ∀ action, after.count ⟨d.pkgver, .remove, action, false⟩ = 0 := by
        intro action
        refine List.count_eq_zero.mpr fun hmem => hskip ⟨⟨before, run, after, hplan, hall, hpos,
          ⟨_, hmem, e, he, ht, hcol⟩, hcfg⟩, hconf, hlast⟩
      have hpost := hcount (Or.inl rfl) hv
      have hpurge := hcount (Or.inr rfl) hv
      rw [hafter] at hpost hpurge
      exact ⟨hpost, hpurge⟩

/-- The first action of a script ends with code 1. -/
def passesFails : PassesEnv :=
  { installDate := some []
    exec := fun _ run => if run.pkgver = "r-1_1".toList ∧ run.action = .post then 1 else 0 }

/-- From the collected scripts on: the failure of a removed package goes with the result 0 if
the commit loses it. -/
theorem commitConfigure_lost_iff {scripts : List Str} {c : CommitState}
    (hflush : env.flushError = none) (hnone : ∀ run ∈ c.runs, run.isPostRemove = false) :
    (RemovedFails env xhp pkgs [] (commitOut env (commitConfigure env pkgs scripts c)).1.runs ∧
        (commitOut env (commitConfigure env pkgs scripts c)).2 = .ok) ↔
      LosesFailure env xhp pkgs scripts c := by
  obtain ⟨hall, more, hr, hmore⟩ | ⟨before, run, after, hplan, hall, hne, ⟨more, hr, hmore⟩, hok⟩ :=
    commitConfigure_ran pkgs scripts c hflush
  · -- no action has failed
    rw [hr, removedFails_append_iff, removedFails_append_iff, List.nil_append]
    constructor
    · rintro ⟨(h | h) | h, -⟩
      · exact absurd h (not_removedFails hnone)
      · exact absurd h hall.not_removedFails
      · exact absurd h (not_removedFails hmore)
    · rintro ⟨⟨before, run, after, hplan, -, hpos, -⟩, -, -⟩
      rw [hplan] at hall
      rw [hall.exec] at hpos
      exact absurd hpos (lt_irrefl 0)
  · rw [hr, hok, removedFails_append_iff, removedFails_append_iff, removedFails_append_iff,
      List.nil_append]
    constructor
    · rintro ⟨(h | h | h) | h, hpos, hconf, hcfg, hlast⟩
      · exact absurd h (not_removedFails hnone)
      · exact absurd h hall.not_removedFails
      · obtain ⟨hof, -⟩ := h.resolve_right id
        exact ⟨⟨before, run, after, hplan, hall, hpos, hof, hcfg⟩, hconf, hlast⟩
      · exact absurd h (not_removedFails hmore)
    · rintro ⟨⟨before', run', after', hplan', hall', hpos, hof, hcfg⟩, hconf, hlast⟩
      obtain ⟨rfl, rfl⟩ := hall.first_unique hall' hne hpos.ne' (hplan.symm.trans hplan')
      exact ⟨Or.inl (Or.inr (Or.inr (Or.inl ⟨hof, hne⟩))), hpos, hconf, hcfg, hlast⟩

/-- The failure of the `post` or `purge` action of a removed package is in the result of the
commit, unless the commit loses it. -/
theorem transactionCommit_reported_iff (env : PassesEnv) (totals : Bool) (xhp : Handle)
    (pkgs : List PkgDict) :
    (RemovedFails env xhp pkgs [] (transactionCommit env totals xhp pkgs).1.runs →
        (transactionCommit env totals xhp pkgs).2 ≠ .ok) ↔
      ∀ scripts c, beforeScripts env totals xhp pkgs = some (scripts, c) →
        ¬LosesFailure env xhp pkgs scripts c := by
  obtain ⟨scripts, c, hb, hflush, hnil, heq⟩ | ⟨hb, hnil, -⟩ :=
    transactionCommit_beforeScripts env totals xhp pkgs
  · have hnone : ∀ run ∈ c.runs, run.isPostRemove = false := by
      simpa [CommitState.postRemoves, List.filter_eq_nil_iff] using hnil
    rw [heq, ← not_and, commitConfigure_lost_iff hflush hnone, hb]
    constructor
    · rintro h scripts' c' hs
      obtain ⟨rfl, rfl⟩ := Prod.mk.inj (Option.some.inj hs)
      exact h
    · exact fun h => h scripts c rfl
  · have hnone : ∀ run ∈ (transactionCommit env totals xhp pkgs).1.runs,
        run.isPostRemove = false := by
      simpa [CommitState.postRemoves, List.filter_eq_nil_iff] using hnil
    rw [hb]
    exact ⟨fun _ scripts c h => (by cases h), fun _ h => absurd h (not_removedFails hnone)⟩

/-- Two packages are removed and one is installed. -/
def lostPkgs : List PkgDict :=
  [passesPkg "r" "r-1_1" .remove .installed true, passesPkg "u" "u-1_1" .remove .installed true,
    passesPkg "a" "a-1_1" .install .notInstalled false]

/-- The `post` action of the first package ends with code 1: the commit goes on with the
configuration of the last, and returns 0. -/
theorem transactionCommit_loses :
    RemovedFails passesFails passesDemo lostPkgs []
        (transactionCommit passesFails true passesDemo lostPkgs).1.runs ∧
      (transactionCommit passesFails true passesDemo lostPkgs).2 = .ok := by
  have hruns : (transactionCommit passesFails true passesDemo lostPkgs).1.runs =
      [⟨"r-1_1".toList, .remove, .pre, false⟩, ⟨"u-1_1".toList, .remove, .pre, false⟩,
        ⟨"r-1_1".toList, .remove, .post, false⟩] := by decide +kernel
  have hof : OfRemoved passesDemo lostPkgs ⟨"r-1_1".toList, .remove, .post, false⟩ :=
    ⟨rfl, _, List.mem_cons_self, rfl, passesPkg "r" "r-1_1" .unknown .installed true,
      by decide +kernel, rfl⟩
  rw [hruns]
  exact ⟨Or.inr (Or.inr (Or.inl ⟨hof, by decide⟩)), by decide +kernel⟩

end Flappy
