/-
The passes of a commit (`lib/transaction_commit.c`, `lib/package_configure.c`,
`lib/package_script.c`).

A commit goes over the entries of the transaction four times: it runs the
pre-remove actions and collects the remove-scripts, runs the pre-install actions,
removes and unpacks packages, and configures what it has unpacked.  Between the
last two it runs the rest of the collected scripts.

What the outside does (downloads, files, scripts, the file of the database) is a
parameter; the actions that are run are recorded.

* `transactionCommit` — all of it, as far as database and scripts are concerned;
* `transactionCommit_cases` — a commit ends early, or gets to configure what it has
  unpacked;
* `transactionCommit_planned` — a commit that returns 0 has reached the planned state.
-/
import Flappy.Commit

open CStr

namespace Flappy

/-! ### Scripts -/

/-- The scripts of a package. -/
inductive Script where
  | install
  | remove
deriving DecidableEq, Repr

/-- The action a script is called with. -/
inductive Action where
  | pre
  | post
  | purge
deriving DecidableEq, Repr

/-- A call of a script. -/
structure ScriptRun where
  pkgver : Str
  script : Script
  action : Action
  update : Bool
deriving DecidableEq, Repr

/-- What the outside gives to a commit, with the passes before and after the loop. -/
structure PassesEnv extends CommitEnv where
  /-- The error that downloading and verifying ends with. -/
  fetchError : Option Errno := none
  /-- The error that one of the other preparations ends with. -/
  checkError : Option Errno := none
  /-- The code of a call, after these calls. -/
  exec : List ScriptRun → ScriptRun → Int := fun _ _ => 0
  /-- The errors that writing the database ends with, before and after the configuration. -/
  flushError : Option Errno := none
  lastFlushError : Option Errno := none
  /-- The packages are for another architecture, so that nothing is configured. -/
  crossArch : Bool := false

/-- How a commit ends: with 0, with an error, or with the code of a script. -/
inductive CommitRv where
  | ok
  | failed (rv : Rv)
  | script (code : Int)
deriving DecidableEq, Repr

/-- The database, and the scripts that were run. -/
structure CommitState where
  xhp : Handle
  runs : List ScriptRun := []

/-- `flappy_pkg_exec_buffer`. -/
def CommitState.execBuffer (env : PassesEnv) (c : CommitState) (run : ScriptRun) :
    CommitState × Int :=
  ({ c with runs := c.runs ++ [run] }, env.exec c.runs run)

/-- The text of a script. -/
def PkgDict.script (d : PkgDict) : Script → Option Str
  | .install => d.installScript
  | .remove => d.removeScript

/-- `flappy_pkg_exec_script`. -/
def CommitState.execScript (env : PassesEnv) (c : CommitState) (d : PkgDict) (script : Script)
    (action : Action) (update : Bool) : CommitState × Int :=
  match d.script script with
  | none => (c, 0)
  | some _ => c.execBuffer env ⟨d.pkgver, script, action, update⟩

/-! ### The passes -/

/-- The first pass: the pre-remove actions.  It collects the pkgvers of the installed packages
whose remove-scripts are to be run to their end. -/
def preRemove (env : PassesEnv) :
    List PkgDict → CommitState → List Str → CommitState × List Str × CommitRv
  | [], c, scripts => (c, scripts, .ok)
  | obj :: pkgs, c, scripts =>
    if obj.transaction = .install ∨ obj.transaction = .hold ∨ obj.transaction = .configure then
      preRemove env pkgs c scripts
    else
      match obj.pkgname with
      | none => (c, scripts, .failed .abort)
      | some pkgname =>
        match pkgdbGetPkg c.xhp pkgname with
        | none =>
          if obj.replaced = some true then preRemove env pkgs c scripts
          else (c, scripts, .failed (.err .enoent))
        | some pkgd =>
          if pkgd.removeScript = none then preRemove env pkgs c scripts
          else
            let update : Bool := obj.transaction = .update
            let (c, rv) := c.execScript env pkgd .remove .pre update
            if rv ≠ 0 then (c, scripts, .script rv)
            else preRemove env pkgs c (if update then scripts else scripts ++ [pkgd.pkgver])

/-- The second pass: the pre-install actions. -/
def preInstall (env : PassesEnv) : List PkgDict → CommitState → CommitState × CommitRv
  | [], c => (c, .ok)
  | obj :: pkgs, c =>
    if obj.transaction = .remove ∨ obj.transaction = .hold then preInstall env pkgs c
    else
      let (c, rv) := c.execScript env obj .install .pre (obj.transaction = .update)
      if rv ≠ 0 then (c, .script rv) else preInstall env pkgs c

/-- The third pass: remove and unpack. -/
def commitEntries (env : PassesEnv) : List PkgDict → CommitState → CommitState × CommitRv
  | [], c => (c, .ok)
  | obj :: pkgs, c =>
    match commitEntry env.toCommitEnv c.xhp obj with
    | .error rv => (c, .failed rv)
    | .ok xhp => commitEntries env pkgs { c with xhp }

/-- `run_post_remove_scripts`. -/
def runPostRemoveScripts (env : PassesEnv) : List Str → CommitState → CommitState × Int
  | [], c => (c, 0)
  | pkgver :: scripts, c =>
    let (c, rv) := c.execBuffer env ⟨pkgver, .remove, .post, false⟩
    if rv ≠ 0 then (c, rv)
    else
      let (c, rv) := c.execBuffer env ⟨pkgver, .remove, .purge, false⟩
      if rv ≠ 0 then (c, rv) else runPostRemoveScripts env scripts c

/-- `flappy_set_pkg_state_dictionary` on the package that a lookup finds. -/
def Handle.setPkgState (xhp : Handle) (pkg : Str) (state : PkgState) : Handle :=
  match findKeyInDict xhp.pkgdb pkg with
  | none => xhp
  | some key => { xhp with pkgdb := xhp.pkgdb.modify key fun d => { d with state := some state } }

/-- `flappy_configure_pkg`. -/
def configurePkg (env : PassesEnv) (c : CommitState) (pkgver : Str) (checkState update : Bool) :
    CommitState × CommitRv :=
  let p := (pkgName pkgver).getD pkgver
  match pkgdbGetPkg c.xhp p with
  | none => (c, .failed (.err .enoent))
  | some pkgd =>
    match pkgd.state with
    | none => (c, .failed (.err .einval))
    | some state =>
      if checkState = true ∧ state = .installed ∧ c.xhp.flags.forceConfigure = false then (c, .ok)
      else if checkState = true ∧ state ≠ .installed ∧ state ≠ .unpacked then
        (c, .failed (.err .einval))
      else
        let (c, rv) := c.execScript env pkgd .install .post update
        if rv ≠ 0 then (c, .script rv)
        else ({ c with xhp := c.xhp.setPkgState p .installed }, .ok)

/-- The last pass.  `rv` is the result so far, which is returned if there is nothing to
configure. -/
def configureAll (env : PassesEnv) :
    List PkgDict → CommitState → CommitRv → CommitState × CommitRv
  | [], c, rv => (c, rv)
  | obj :: pkgs, c, rv =>
    if obj.transaction = .remove ∨ obj.transaction = .hold then configureAll env pkgs c rv
    else
      match configurePkg env c obj.pkgver false (obj.transaction = .update) with
      | (c, .ok) => configureAll env pkgs c .ok
      | (c, rv) => (c, rv)

/-- The end of `flappy_transaction_commit`: the database is written again, and reads back as it
was written. -/
def commitOut (env : PassesEnv) : CommitState × CommitRv → CommitState × CommitRv
  | (c, .ok) =>
    match env.lastFlushError with
    | none => (c, .ok)
    | some e => (c, .failed (.err e))
  | r => r

/-- From the collected scripts on. -/
def commitConfigure (env : PassesEnv) (pkgs : List PkgDict) (scripts : List Str)
    (c : CommitState) : CommitState × CommitRv :=
  match env.flushError with
  | some e => (c, .failed (.err e))
  | none =>
    let (c, rv) := runPostRemoveScripts env scripts c
    -- the code of a script that has failed is positive
    if rv < 0 then (c, .script (-rv))
    else configureAll env pkgs c (if rv = 0 then .ok else .script rv)

/-- `flappy_transaction_commit`.  `totals`: the transaction has its numbers of packages to
install or update, as every prepared one does. -/
def transactionCommit (env : PassesEnv) (totals : Bool) (xhp : Handle) (pkgs : List PkgDict) :
    CommitState × CommitRv :=
  commitOut env <|
    match env.fetchError with
    | some e => ({ xhp }, .failed (.err e))
    | none =>
      if xhp.flags.downloadOnly then ({ xhp }, .ok)
      else
        match env.checkError with
        | some e => ({ xhp }, .failed (.err e))
        | none =>
          match preRemove env pkgs { xhp } [] with
          | (c, scripts, .ok) =>
            match preInstall env pkgs c with
            | (c, .ok) =>
              match commitEntries env pkgs c with
              | (c, .ok) =>
                -- if there are no packages to install or update we are done
                if totals = false ∨ env.crossArch = true ∨ c.xhp.flags.unpackOnly = true then
                  (c, .ok)
                else commitConfigure env pkgs scripts c
              | r => r
            | r => r
          | (c, _, rv) => (c, rv)

/-! ### What the passes leave alone -/

/-- A `post` or `purge` action of a remove-script. -/
def ScriptRun.isPostRemove (run : ScriptRun) : Bool := run.script = .remove && run.action ≠ .pre

/-- The `post` and `purge` actions of remove-scripts so far. -/
def CommitState.postRemoves (c : CommitState) : List ScriptRun :=
  c.runs.filter ScriptRun.isPostRemove

/-- A pass that leaves the database alone and runs no such action. -/
structure CommitState.Same (c c' : CommitState) : Prop where
  xhp : c'.xhp = c.xhp
  postRemoves : c'.postRemoves = c.postRemoves

theorem CommitState.Same.refl (c : CommitState) : c.Same c := ⟨rfl, rfl⟩

theorem CommitState.Same.trans {a b c : CommitState} (h : a.Same b) (h' : b.Same c) : a.Same c :=
  ⟨h'.xhp.trans h.xhp, h'.postRemoves.trans h.postRemoves⟩

theorem CommitState.execScript_same (env : PassesEnv) (c : CommitState) (d : PkgDict)
    (script : Script) (action : Action) (update : Bool)
    (h : ∀ pkgver, (⟨pkgver, script, action, update⟩ : ScriptRun).isPostRemove = false) :
    c.Same (c.execScript env d script action update).1 := by
  rw [CommitState.execScript]
  split
  · exact CommitState.Same.refl c
  · refine ⟨rfl, ?_⟩
    rw [CommitState.execBuffer, CommitState.postRemoves, CommitState.postRemoves,
      List.filter_append, List.filter_cons_of_neg (by simp [h]), List.filter_nil, List.append_nil]

/-- The pkgver that the first pass collects for an entry. -/
def collected (xhp : Handle) (obj : PkgDict) : Option Str :=
  if obj.transaction = .install ∨ obj.transaction = .hold ∨ obj.transaction = .configure ∨
    obj.transaction = .update then none
  else
    (obj.pkgname.bind (pkgdbGetPkg xhp)).bind fun pkgd =>
      if pkgd.removeScript = none then none else some pkgd.pkgver

theorem preRemove_spec (env : PassesEnv) :
    ∀ (pkgs : List PkgDict) {c c' : CommitState} {scripts scripts' : List Str} {rv : CommitRv},
      preRemove env pkgs c scripts = (c', scripts', rv) →
      c.Same c' ∧ (rv = .ok → scripts' = scripts ++ pkgs.filterMap (collected c.xhp)) := by
  intro pkgs
  induction pkgs with
  | nil =>
    intro c c' scripts scripts' rv h
    simp only [preRemove, Prod.mk.injEq] at h
    obtain ⟨rfl, rfl, rfl⟩ := h
    exact ⟨CommitState.Same.refl c, fun _ => by simp⟩
  | cons obj pkgs ih =>
    intro c c' scripts scripts' rv h
    rw [preRemove] at h
    by_cases ht : obj.transaction = .install ∨ obj.transaction = .hold ∨
        obj.transaction = .configure
    · rw [if_pos ht] at h
      obtain ⟨hsame, hok⟩ := ih h
      have hnone : collected c.xhp obj = none := if_pos (by tauto)
      exact ⟨hsame, fun hrv => by rw [hok hrv, List.filterMap_cons_none hnone]⟩
    · rw [if_neg ht] at h
      cases hn : obj.pkgname with
      | none =>
        simp only [hn, Prod.mk.injEq] at h
        obtain ⟨rfl, -, rfl⟩ := h
        exact ⟨CommitState.Same.refl c, fun hrv => by cases hrv⟩
      | some pkgname =>
        simp only [hn] at h
        cases hg : pkgdbGetPkg c.xhp pkgname with
        | none =>
          simp only [hg] at h
          split at h
          · obtain ⟨hsame, hok⟩ := ih h
            have hnone : collected c.xhp obj = none := by simp [collected, hn, hg]
            exact ⟨hsame, fun hrv => by rw [hok hrv, List.filterMap_cons_none hnone]⟩
          · simp only [Prod.mk.injEq] at h
            obtain ⟨rfl, -, rfl⟩ := h
            exact ⟨CommitState.Same.refl c, fun hrv => by cases hrv⟩
        | some pkgd =>
          simp only [hg] at h
          by_cases hs : pkgd.removeScript = none
          · rw [if_pos hs] at h
            obtain ⟨hsame, hok⟩ := ih h
            have hnone : collected c.xhp obj = none := by simp [collected, hn, hg, hs]
            exact ⟨hsame, fun hrv => by rw [hok hrv, List.filterMap_cons_none hnone]⟩
          · rw [if_neg hs] at h
            -- the script is run; its package is collected unless it is updated
            have hexec := c.execScript_same env pkgd .remove .pre
              (decide (obj.transaction = .update)) fun _ => rfl
            generalize c.execScript env pkgd .remove .pre (decide (obj.transaction = .update)) = r
              at h hexec
            obtain ⟨c₁, code⟩ := r
            simp only at h hexec
            split at h
            · simp only [Prod.mk.injEq] at h
              obtain ⟨rfl, -, rfl⟩ := h
              exact ⟨hexec, fun hrv => by cases hrv⟩
            · obtain ⟨hsame, hok⟩ := ih h
              refine ⟨hexec.trans hsame, fun hrv => ?_⟩
              rw [hok hrv, hexec.xhp]
              by_cases hu : obj.transaction = .update
              · have hnone : collected c.xhp obj = none := if_pos (by tauto)
                rw [List.filterMap_cons_none hnone]
                simp [hu]
              · have hsome : collected c.xhp obj = some pkgd.pkgver := by
                  rw [collected, if_neg (by tauto), hn, Option.bind_some, hg, Option.bind_some,
                    if_neg hs]
                rw [List.filterMap_cons_some hsome]
                simp [hu]

theorem preInstall_spec (env : PassesEnv) :
    ∀ (pkgs : List PkgDict) (c : CommitState), c.Same (preInstall env pkgs c).1 := by
  intro pkgs
  induction pkgs with
  | nil => exact CommitState.Same.refl
  | cons obj pkgs ih =>
    intro c
    rw [preInstall]
    split
    · exact ih c
    · have hexec := c.execScript_same env obj .install .pre
        (decide (obj.transaction = .update)) fun _ => rfl
      simp only
      split
      · exact hexec
      · exact hexec.trans (ih _)

theorem commitEntries_spec (env : PassesEnv) :
    ∀ (pkgs : List PkgDict) {c c' : CommitState} {rv : CommitRv},
      commitEntries env pkgs c = (c', rv) → c'.runs = c.runs ∧
        (rv = .ok → commitLoop env.toCommitEnv c.xhp pkgs = .ok c'.xhp) := by
  intro pkgs
  induction pkgs with
  | nil =>
    intro c c' rv h
    simp only [commitEntries, Prod.mk.injEq] at h
    obtain ⟨rfl, rfl⟩ := h
    exact ⟨rfl, fun _ => rfl⟩
  | cons obj pkgs ih =>
    intro c c' rv h
    rw [commitEntries] at h
    cases he : commitEntry env.toCommitEnv c.xhp obj with
    | error e =>
      simp only [he, Prod.mk.injEq] at h
      obtain ⟨rfl, rfl⟩ := h
      exact ⟨rfl, fun hrv => by cases hrv⟩
    | ok xhp =>
      simp only [he] at h
      obtain ⟨hruns, hok⟩ := ih h
      refine ⟨hruns, fun hrv => ?_⟩
      rw [commitLoop, he]
      exact hok hrv

/-- The actions that are run for the collected scripts. -/
def postActions (pkgver : Str) : List ScriptRun :=
  [⟨pkgver, .remove, .post, false⟩, ⟨pkgver, .remove, .purge, false⟩]

theorem postRemoves_execBuffer (env : PassesEnv) (c : CommitState) {run : ScriptRun}
    (h : run.isPostRemove = true) :
    (c.execBuffer env run).1.xhp = c.xhp ∧
      (c.execBuffer env run).1.postRemoves = c.postRemoves ++ [run] := by
  refine ⟨rfl, ?_⟩
  rw [CommitState.execBuffer, CommitState.postRemoves, CommitState.postRemoves,
    List.filter_append, List.filter_cons_of_pos h, List.filter_nil]

/-- The collected scripts are run one after the other, up to the first that fails. -/
theorem runPostRemoveScripts_spec (env : PassesEnv) :
    ∀ (scripts : List Str) {c c' : CommitState} {rv : Int},
      runPostRemoveScripts env scripts c = (c', rv) → c'.xhp = c.xhp ∧
        ∃ more, c'.postRemoves = c.postRemoves ++ more ∧
          more <+: scripts.flatMap postActions ∧ (rv = 0 → more = scripts.flatMap postActions) := by
  intro scripts
  induction scripts with
  | nil =>
    intro c c' rv h
    simp only [runPostRemoveScripts, Prod.mk.injEq] at h
    obtain ⟨rfl, rfl⟩ := h
    exact ⟨rfl, [], by simp, List.nil_prefix, fun _ => rfl⟩
  | cons pkgver scripts ih =>
    intro c c' rv h
    rw [runPostRemoveScripts] at h
    obtain ⟨hx₁, hp₁⟩ := postRemoves_execBuffer env c
      (rfl : (⟨pkgver, .remove, .post, false⟩ : ScriptRun).isPostRemove = true)
    generalize c.execBuffer env ⟨pkgver, .remove, .post, false⟩ = r₁ at h hx₁ hp₁
    obtain ⟨c₁, rv₁⟩ := r₁
    simp only at h hx₁ hp₁
    -- the first script fails: a prefix of the plan has run
    by_cases h₁ : rv₁ ≠ 0
    · rw [if_pos h₁, Prod.mk.injEq] at h
      obtain ⟨rfl, rfl⟩ := h
      refine ⟨hx₁, _, hp₁, ?_, fun hrv => absurd hrv h₁⟩
      exact ⟨⟨pkgver, .remove, .purge, false⟩ :: scripts.flatMap postActions, rfl⟩
    · rw [if_neg h₁] at h
      obtain ⟨hx₂, hp₂⟩ := postRemoves_execBuffer env c₁
        (rfl : (⟨pkgver, .remove, .purge, false⟩ : ScriptRun).isPostRemove = true)
      generalize c₁.execBuffer env ⟨pkgver, .remove, .purge, false⟩ = r₂ at h hx₂ hp₂
      obtain ⟨c₂, rv₂⟩ := r₂
      simp only at h hx₂ hp₂
      have hp : c₂.postRemoves = c.postRemoves ++ postActions pkgver := by
        rw [hp₂, hp₁, List.append_assoc]
        rfl
      by_cases h₂ : rv₂ ≠ 0
      · rw [if_pos h₂, Prod.mk.injEq] at h
        obtain ⟨rfl, rfl⟩ := h
        refine ⟨hx₂.trans hx₁, _, hp, ?_, fun hrv => absurd hrv h₂⟩
        exact ⟨scripts.flatMap postActions, rfl⟩
      · rw [if_neg h₂] at h
        obtain ⟨hx, more, hmore, hpre, hall⟩ := ih h
        refine ⟨hx.trans (hx₂.trans hx₁), postActions pkgver ++ more, ?_, ?_, fun hrv => ?_⟩
        · rw [hmore, hp, List.append_assoc]
        · exact (List.prefix_append_right_inj _).mpr hpre
        · rw [hall hrv, List.flatMap_cons]

/-! ### Configuration -/

/-- A package whose state is set to installed. -/
def setInstalled (d : PkgDict) : PkgDict := { d with state := some .installed }

/-- Is the package of an entry of this type configured? -/
def TransType.configures (ttype : TransType) : Prop := ttype ≠ .remove ∧ ttype ≠ .hold

theorem setInstalled_setInstalled (o : Option PkgDict) :
    (o.map setInstalled).map setInstalled = o.map setInstalled := by
  cases o with
  | none => rfl
  | some d => rfl

/-- Being installed twice is being installed once. -/
theorem map_setInstalled_eq {o o' : Option PkgDict} (h : o' = o ∨ o' = o.map setInstalled) :
    o'.map setInstalled = o.map setInstalled ∧ o'.isSome = o.isSome := by
  rcases h with rfl | rfl
  · exact ⟨rfl, rfl⟩
  · exact ⟨setInstalled_setInstalled o, Option.isSome_map⟩

/-- Configuring a package with a plain name. -/
theorem configurePkg_spec {env : PassesEnv} {c c' : CommitState} {pkgver n : Str} {update : Bool}
    {rv : CommitRv} (hn : pkgName pkgver = some n) (hreq : request n = .pkgname)
    (h : configurePkg env c pkgver false update = (c', rv)) :
    c'.postRemoves = c.postRemoves ∧ (∀ m, m ≠ n → c'.xhp.pkgdb.get m = c.xhp.pkgdb.get m) ∧
      ((rv ≠ .ok ∧ c'.xhp = c.xhp) ∨ (rv = .ok ∧ (c.xhp.pkgdb.get n).isSome ∧
        c'.xhp.pkgdb.get n = (c.xhp.pkgdb.get n).map setInstalled)) := by
  have hget : pkgdbGetPkg c.xhp n = c.xhp.pkgdb.get n := by rw [pkgdbGetPkg, findPkgInDict, hreq]
  simp only [configurePkg, hn, Option.getD_some, hget] at h
  cases hd : c.xhp.pkgdb.get n with
  | none =>
    simp only [hd, Prod.mk.injEq] at h
    obtain ⟨rfl, rfl⟩ := h
    exact ⟨rfl, fun _ _ => rfl, Or.inl ⟨by simp, rfl⟩⟩
  | some d =>
    simp only [hd] at h
    cases hs : d.state with
    | none =>
      simp only [hs, Prod.mk.injEq] at h
      obtain ⟨rfl, rfl⟩ := h
      exact ⟨rfl, fun _ _ => rfl, Or.inl ⟨by simp, rfl⟩⟩
    | some state =>
      simp only [hs, Bool.false_eq_true, false_and, if_false] at h
      have hexec := c.execScript_same env d .install .post update fun _ => rfl
      generalize c.execScript env d .install .post update = r at h hexec
      obtain ⟨c₁, code⟩ := r
      simp only at h hexec
      by_cases hcode : code ≠ 0
      · rw [if_pos hcode, Prod.mk.injEq] at h
        obtain ⟨rfl, rfl⟩ := h
        refine ⟨hexec.postRemoves, fun m _ => ?_, Or.inl ⟨by simp, hexec.xhp⟩⟩
        rw [hexec.xhp]
      · rw [if_neg hcode, Prod.mk.injEq] at h
        obtain ⟨rfl, rfl⟩ := h
        have hkey : findKeyInDict c.xhp.pkgdb n = some n := by
          rw [findKeyInDict, if_pos (by rw [findPkgInDict, hreq]; simp [hd]), requestKey, hreq]
        -- only the state of this package is stored
        have hset : (c₁.xhp.setPkgState n .installed).pkgdb =
            c.xhp.pkgdb.modify n setInstalled := by
          rw [hexec.xhp, Handle.setPkgState, hkey]
          rfl
        refine ⟨hexec.postRemoves, fun m hm => ?_, Or.inr ⟨rfl, rfl, ?_⟩⟩
        · simp only
          rw [hset]
          exact Dict.get_modify_ne _ _ hm
        · simp only
          rw [hset, Dict.get_modify_self, hd]

theorem configurePkg_installs {env : PassesEnv} {c c' : CommitState} {pkgver n : Str}
    {update : Bool} {rv : CommitRv} (hn : pkgName pkgver = some n) (hreq : request n = .pkgname)
    (h : configurePkg env c pkgver false update = (c', rv)) (m : Str) :
    c'.xhp.pkgdb.get m = c.xhp.pkgdb.get m ∨
      c'.xhp.pkgdb.get m = (c.xhp.pkgdb.get m).map setInstalled := by
  obtain ⟨-, hother, hself⟩ := configurePkg_spec hn hreq h
  by_cases hm : m = n
  · subst hm
    rcases hself with ⟨-, hx⟩ | ⟨-, -, hget⟩
    · rw [hx]
      exact Or.inl rfl
    · exact Or.inr hget
  · exact Or.inl (hother m hm)

/-- The last pass sets the state of the packages it configures, and does nothing else to the
database. -/
theorem configureAll_spec (env : PassesEnv) :
    ∀ (pkgs : List PkgDict), (∀ e ∈ pkgs, PlainNamed e) →
      ∀ {c c' : CommitState} {rv rv' : CommitRv}, configureAll env pkgs c rv = (c', rv') →
        c'.postRemoves = c.postRemoves ∧
        (∀ n, c'.xhp.pkgdb.get n = c.xhp.pkgdb.get n ∨
          c'.xhp.pkgdb.get n = (c.xhp.pkgdb.get n).map setInstalled) ∧
        (∀ n, (∀ e ∈ pkgs, e.transaction.configures → e.pkgname ≠ some n) →
          c'.xhp.pkgdb.get n = c.xhp.pkgdb.get n) ∧
        (rv' = .ok → ∀ e ∈ pkgs, e.transaction.configures → ∀ n, e.pkgname = some n →
          (c.xhp.pkgdb.get n).isSome ∧
            c'.xhp.pkgdb.get n = (c.xhp.pkgdb.get n).map setInstalled) := by
  intro pkgs
  induction pkgs with
  | nil =>
    intro _ c c' rv rv' h
    simp only [configureAll, Prod.mk.injEq] at h
    obtain ⟨rfl, rfl⟩ := h
    exact ⟨rfl, fun _ => Or.inl rfl, fun _ _ => rfl, fun _ e he => by cases he⟩
  | cons obj pkgs ih =>
    intro hplain c c' rv rv' h
    rw [List.forall_mem_cons] at hplain
    rw [configureAll] at h
    by_cases ht : obj.transaction = .remove ∨ obj.transaction = .hold
    · rw [if_pos ht] at h
      obtain ⟨hp, hor, hframe, hok⟩ := ih hplain.2 h
      refine ⟨hp, hor, fun n hn => hframe n fun e he => hn e (List.mem_cons_of_mem obj he), ?_⟩
      intro hrv e he hc
      rcases List.mem_cons.mp he with rfl | he
      · rcases ht with ht | ht
        · exact absurd ht hc.1
        · exact absurd ht hc.2
      · exact hok hrv e he hc
    · rw [if_neg ht] at h
      rw [not_or] at ht
      obtain ⟨n, hname, hver, hreq⟩ := hplain.1
      cases hcfg : configurePkg env c obj.pkgver false (decide (obj.transaction = .update)) with
      | mk c₁ rv₁ =>
        obtain ⟨hp₁, hother, hself⟩ := configurePkg_spec hver hreq hcfg
        simp only [hcfg] at h
        -- an earlier entry may have configured the same package
        have hor₁ := configurePkg_installs hver hreq hcfg
        by_cases hrv₁ : rv₁ = .ok
        · subst hrv₁
          simp only at h
          obtain ⟨hp, hor, hframe, hok⟩ := ih hplain.2 h
          obtain ⟨-, hsome, hget⟩ := hself.resolve_left fun hne => hne.1 rfl
          refine ⟨hp.trans hp₁, fun m => ?_, fun m hm => ?_, fun hrv e he hc m hm => ?_⟩
          · rcases hor m with h₂ | h₂
            · rw [h₂]
              exact hor₁ m
            · exact Or.inr (h₂.trans (map_setInstalled_eq (hor₁ m)).1)
          · rw [List.forall_mem_cons] at hm
            rw [hframe m hm.2]
            refine hother m ?_
            rintro rfl
            exact hm.1 ht hname
          · rcases List.mem_cons.mp he with rfl | he
            · obtain rfl := Option.some.inj (hname.symm.trans hm)
              refine ⟨hsome, ?_⟩
              rcases hor n with h₂ | h₂
              · exact h₂.trans hget
              · exact h₂.trans (map_setInstalled_eq (Or.inr hget)).1
            · obtain ⟨hs, hg⟩ := hok hrv e he hc m hm
              obtain ⟨hmap, hisSome⟩ := map_setInstalled_eq (hor₁ m)
              exact ⟨hisSome ▸ hs, hg.trans hmap⟩
        · have hfail : (c₁, rv₁) = (c', rv') := by
            cases rv₁ with
            | ok => exact absurd rfl hrv₁
            | failed e => exact h
            | script code => exact h
          obtain ⟨rfl, rfl⟩ := Prod.mk.inj hfail
          obtain ⟨-, hx⟩ := hself.resolve_right fun heq => hrv₁ heq.1
          exact ⟨hp₁, hor₁, fun m _ => by rw [hx], fun hrv => absurd hrv hrv₁⟩

/-! ### The planned state -/

/-- What the third pass makes of the record of an entry's package. -/
def Planned (env : CommitEnv) (flags : Flags) (e : PkgDict) (n : Str)
    (before after : Option PkgDict) : Prop :=
  match e.transaction with
  | .remove => e.removeAndUpdate ≠ some true → after = none
  | .configure | .hold => after = before
  | .install | .reinstall | .update | .download | .unknown =>
    after = some (registeredDict env flags { e with state := some .unpacked } n)

theorem commitEntry_flags {env : CommitEnv} {xhp xhp' : Handle} {obj : PkgDict}
    (h : commitEntry env xhp obj = .ok xhp') : xhp'.flags = xhp.flags := by
  rw [commitEntry] at h
  split at h
  · split at h
    · obtain rfl := Except.ok.inj h
      rfl
    · exact (removePkg_spec h).1
  · obtain ⟨xhp₁, h₁, h₂⟩ := bind_eq_ok h
    exact (commitUnpack_spec h₂).1.trans (removePkg_spec h₁).1
  · obtain rfl := Except.ok.inj h
    rfl
  · obtain rfl := Except.ok.inj h
    rfl
  · exact (commitUnpack_spec h).1
  · exact (commitUnpack_spec h).1
  · exact (commitUnpack_spec h).1
  · exact (commitUnpack_spec h).1

/-- A removal that is not part of an update leaves no record. -/
theorem removePkg_absent {env : CommitEnv} {xhp xhp' : Handle} {obj : PkgDict} {n : Str}
    (hn : pkgName obj.pkgver = some n) (h : removePkg env xhp obj false = .ok xhp') :
    xhp'.pkgdb.get n = none := by
  rw [removePkg, hn] at h
  simp only at h
  split at h
  · cases h
  · split at h
    · cases h
    · cases h
    · rw [if_neg (by simp)] at h
      obtain rfl := Except.ok.inj h
      exact Dict.get_erase_self _ _

/-- One entry of the third pass. -/
theorem commitEntry_planned {env : CommitEnv} {xhp xhp' : Handle} {obj : PkgDict} {n : Str}
    (hplain : PlainNamed obj) (hn : obj.pkgname = some n)
    (h : commitEntry env xhp obj = .ok xhp') :
    Planned env xhp.flags obj n (xhp.pkgdb.get n) (xhp'.pkgdb.get n) := by
  obtain ⟨n', hn', hver, hreq⟩ := hplain
  obtain rfl := Option.some.inj (hn.symm.trans hn')
  rw [Planned]
  split
  · next ht =>
    intro hupd
    rw [commitEntry, ht] at h
    simp only at h
    split at h
    · next hrep =>
      obtain rfl := Except.ok.inj h
      rw [hn, Option.bind_some, pkgdbGetPkg, findPkgInDict, hreq] at hrep
      exact Option.isNone_iff_eq_none.mp hrep.2
    · have hfalse : obj.removeAndUpdate.getD false = false := by
        cases hr : obj.removeAndUpdate with
        | none => rfl
        | some b =>
          cases b with
          | false => rfl
          | true => exact absurd hr hupd
      rw [hfalse] at h
      exact removePkg_absent hver h
  · next ht =>
    rw [commitEntry, ht] at h
    obtain rfl := Except.ok.inj h
    rfl
  · next ht =>
    rw [commitEntry, ht] at h
    obtain rfl := Except.ok.inj h
    rfl
  · next ht => exact (commitEntry_unpacks h hn (by simp [ht])).2
  · next ht => exact (commitEntry_unpacks h hn (by simp [ht])).2
  · next ht => exact (commitEntry_unpacks h hn (by simp [ht])).2
  · next ht => exact (commitEntry_unpacks h hn (by simp [ht])).2
  · next ht => exact (commitEntry_unpacks h hn (by simp [ht])).2

theorem PlainNamed.touches {e : PkgDict} (h : PlainNamed e) {n : Str} (ht : Touches n e) :
    e.pkgname = some n := by
  obtain ⟨m, hm, hver, -⟩ := h
  rcases ht.2.2 with hn | hn
  · rw [hver] at hn
    exact hm.trans hn
  · exact hn

/-- The third pass, for entries with distinct names: each does to its package what is planned,
and nothing happens to other packages. -/
theorem commitLoop_planned {env : CommitEnv} :
    ∀ {pkgs : List PkgDict} {xhp xhp' : Handle}, (∀ e ∈ pkgs, PlainNamed e) →
      pkgs.Pairwise (fun a b => a.pkgname ≠ b.pkgname) → commitLoop env xhp pkgs = .ok xhp' →
      xhp'.flags = xhp.flags ∧
        (∀ n, (∀ e ∈ pkgs, e.pkgname ≠ some n) → xhp'.pkgdb.get n = xhp.pkgdb.get n) ∧
        ∀ e ∈ pkgs, ∀ n, e.pkgname = some n →
          Planned env xhp.flags e n (xhp.pkgdb.get n) (xhp'.pkgdb.get n) := by
  intro pkgs
  induction pkgs with
  | nil =>
    intro xhp xhp' _ _ h
    obtain rfl := Except.ok.inj h
    exact ⟨rfl, fun _ _ => rfl, fun e he => by cases he⟩
  | cons obj pkgs ih =>
    intro xhp xhp' hplain hdist h
    rw [List.forall_mem_cons] at hplain
    rw [List.pairwise_cons] at hdist
    obtain ⟨xhp₁, h₁, h₂⟩ := bind_eq_ok h
    obtain ⟨hflags, hframe, hplan⟩ := ih hplain.2 hdist.2 h₂
    have hflags₁ := commitEntry_flags h₁
    have hframe₁ : ∀ n, obj.pkgname ≠ some n → xhp₁.pkgdb.get n = xhp.pkgdb.get n := fun n hn =>
      (commitEntry_frame h₁ fun ht => hn (hplain.1.touches ht)).2
    refine ⟨hflags.trans hflags₁, fun n hn => ?_, fun e he n hn => ?_⟩
    · rw [List.forall_mem_cons] at hn
      rw [hframe n hn.2, hframe₁ n hn.1]
    · rcases List.mem_cons.mp he with rfl | he
      · -- later entries have other names
        rw [hframe n fun e' he' heq => hdist.1 e' he' (hn.trans heq.symm)]
        exact commitEntry_planned hplain.1 hn h₁
      · rw [← hframe₁ n fun heq => hdist.1 e he (heq.trans hn.symm), ← hflags₁]
        exact hplan e he n hn

/-! ### All passes -/

/-- The first three passes. -/
structure Unpacked (env : PassesEnv) (xhp : Handle) (pkgs : List PkgDict) (scripts : List Str)
    (c : CommitState) : Prop where
  scripts : scripts = pkgs.filterMap (collected xhp)
  postRemoves : c.postRemoves = []
  loop : commitLoop env.toCommitEnv xhp pkgs = .ok c.xhp

/-- A commit ends early, without any of the collected scripts, or gets to configure what it has
unpacked. -/
theorem transactionCommit_cases {env : PassesEnv} {xhp : Handle} {pkgs : List PkgDict}
    (hload : xhp.flags.downloadOnly = false) (hunpack : xhp.flags.unpackOnly = false)
    (harch : env.crossArch = false) (hplain : ∀ e ∈ pkgs, PlainNamed e)
    (hdist : pkgs.Pairwise fun a b => a.pkgname ≠ b.pkgname) :
    ((transactionCommit env true xhp pkgs).2 ≠ .ok ∧
      (transactionCommit env true xhp pkgs).1.postRemoves = []) ∨
    ∃ scripts c, Unpacked env xhp pkgs scripts c ∧
      transactionCommit env true xhp pkgs = commitOut env (commitConfigure env pkgs scripts c) := by
  -- a commit that ends before the last pass has run no post-remove script
  have hearly : ∀ {c : CommitState} {rv : CommitRv}, rv ≠ .ok → c.postRemoves = [] →
      (commitOut env (c, rv)).2 ≠ .ok ∧ (commitOut env (c, rv)).1.postRemoves = [] := by
    intro c rv hrv hp
    cases rv with
    | ok => exact absurd rfl hrv
    | failed e => exact ⟨hrv, hp⟩
    | script code => exact ⟨hrv, hp⟩
  rw [transactionCommit]
  cases env.fetchError with
  | some e => exact Or.inl (hearly (by simp) rfl)
  | none =>
    simp only [hload, Bool.false_eq_true, if_false]
    cases env.checkError with
    | some e => exact Or.inl (hearly (by simp) rfl)
    | none =>
      simp only
      cases hpre : preRemove env pkgs { xhp } [] with
      | mk c₁ r₁ =>
        obtain ⟨scripts, rv₁⟩ := r₁
        obtain ⟨hsame₁, hscripts⟩ := preRemove_spec env pkgs hpre
        have hp₁ : c₁.postRemoves = [] := hsame₁.postRemoves
        by_cases hrv₁ : rv₁ = .ok
        · subst hrv₁
          simp only
          have hsame₂ := preInstall_spec env pkgs c₁
          cases hins : preInstall env pkgs c₁ with
          | mk c₂ rv₂ =>
            rw [hins] at hsame₂
            have hp₂ : c₂.postRemoves = [] := hsame₂.postRemoves.trans hp₁
            by_cases hrv₂ : rv₂ = .ok
            · subst hrv₂
              simp only
              cases hent : commitEntries env pkgs c₂ with
              | mk c₃ rv₃ =>
                obtain ⟨hruns, hloop⟩ := commitEntries_spec env pkgs hent
                have hp₃ : c₃.postRemoves = [] := by
                  rw [CommitState.postRemoves, hruns]
                  exact hp₂
                by_cases hrv₃ : rv₃ = .ok
                · subst hrv₃
                  have hloop' := hloop rfl
                  rw [hsame₂.xhp, hsame₁.xhp] at hloop'
                  have hflags := (commitLoop_planned hplain hdist hloop').1
                  right
                  refine ⟨scripts, c₃, ⟨?_, hp₃, hloop'⟩, ?_⟩
                  · exact hscripts rfl
                  · simp [harch, hflags, hunpack]
                · left
                  cases rv₃ with
                  | ok => exact absurd rfl hrv₃
                  | failed e => exact hearly (by simp) hp₃
                  | script code => exact hearly (by simp) hp₃
            · left
              cases rv₂ with
              | ok => exact absurd rfl hrv₂
              | failed e => exact hearly (by simp) hp₂
              | script code => exact hearly (by simp) hp₂
        · left
          cases rv₁ with
          | ok => exact absurd rfl hrv₁
          | failed e => exact hearly (by simp) hp₁
          | script code => exact hearly (by simp) hp₁

/-- The end of a commit: the scripts that were run, and the last pass. -/
theorem commitConfigure_spec {env : PassesEnv} {pkgs : List PkgDict} {scripts : List Str}
    {c c' : CommitState} {rv : CommitRv} (hplain : ∀ e ∈ pkgs, PlainNamed e)
    (h : commitOut env (commitConfigure env pkgs scripts c) = (c', rv)) :
    ∃ (c₁ : CommitState) (code : Int), (c₁ = c ∧ rv ≠ .ok ∨
        runPostRemoveScripts env scripts c = (c₁, code) ∧ (rv = .ok → 0 ≤ code)) ∧
      c₁.xhp = c.xhp ∧ c'.postRemoves = c₁.postRemoves ∧
      (∀ n, c'.xhp.pkgdb.get n = c.xhp.pkgdb.get n ∨
        c'.xhp.pkgdb.get n = (c.xhp.pkgdb.get n).map setInstalled) ∧
      (∀ n, (∀ e ∈ pkgs, e.transaction.configures → e.pkgname ≠ some n) →
        c'.xhp.pkgdb.get n = c.xhp.pkgdb.get n) ∧
      (rv = .ok → ∀ e ∈ pkgs, e.transaction.configures → ∀ n, e.pkgname = some n →
        (c.xhp.pkgdb.get n).isSome ∧
          c'.xhp.pkgdb.get n = (c.xhp.pkgdb.get n).map setInstalled) := by
  -- writing the database at the end changes the result only
  have hout : ∀ {r : CommitState × CommitRv}, commitOut env r = (c', rv) →
      r.1 = c' ∧ (rv = .ok → r.2 = .ok) := by
    intro r hr
    obtain ⟨c₂, rv₂⟩ := r
    cases rv₂ with
    | ok =>
      rw [commitOut] at hr
      split at hr
      · obtain ⟨rfl, rfl⟩ := Prod.mk.inj hr
        exact ⟨rfl, fun _ => rfl⟩
      · obtain ⟨rfl, rfl⟩ := Prod.mk.inj hr
        exact ⟨rfl, fun _ => rfl⟩
    | failed e =>
      obtain ⟨rfl, rfl⟩ := Prod.mk.inj hr
      exact ⟨rfl, fun hrv => hrv⟩
    | script code =>
      obtain ⟨rfl, rfl⟩ := Prod.mk.inj hr
      exact ⟨rfl, fun hrv => hrv⟩
  obtain ⟨hc', hrv⟩ := hout h
  clear h hout
  rw [commitConfigure] at hc' hrv
  cases hflush : env.flushError with
  | some e =>
    simp only [hflush] at hc' hrv
    subst hc'
    have hne : rv ≠ .ok := fun heq => by cases hrv heq
    exact ⟨c, 0, Or.inl ⟨rfl, hne⟩, rfl, rfl, fun _ => Or.inl rfl, fun _ _ => rfl,
      fun heq => absurd heq hne⟩
  | none =>
    simp only [hflush] at hc' hrv
    cases hrun : runPostRemoveScripts env scripts c with
    | mk c₁ code =>
      have hx := (runPostRemoveScripts_spec env scripts hrun).1
      simp only [hrun] at hc' hrv
      by_cases hneg : code < 0
      · simp only [if_pos hneg] at hc' hrv
        subst hc'
        have hne : rv ≠ .ok := fun heq => by cases hrv heq
        refine ⟨c₁, code, Or.inr ⟨rfl, fun heq => absurd heq hne⟩, hx, rfl, fun n => Or.inl ?_,
          fun n _ => ?_, fun heq => absurd heq hne⟩
        · rw [hx]
        · rw [hx]
      · simp only [if_neg hneg] at hc' hrv
        cases hall : configureAll env pkgs c₁ (if code = 0 then .ok else .script code) with
        | mk c₂ rv₂ =>
          rw [hall] at hc' hrv
          obtain ⟨hp, hor, hframe, hok⟩ := configureAll_spec env pkgs hplain hall
          simp only at hc' hrv
          subst hc'
          rw [hx] at hor hframe hok
          exact ⟨c₁, code, Or.inr ⟨rfl, fun _ => not_lt.mp hneg⟩, hx, hp, hor, hframe,
            fun heq => hok (hrv heq)⟩

/-- A commit that returns 0 has reached the planned state: what was to be unpacked is
installed, what was to be configured too, what was to be removed is gone, and all other
packages are as they were. -/
theorem transactionCommit_planned (env : PassesEnv) (xhp : Handle) (pkgs : List PkgDict)
    (hload : xhp.flags.downloadOnly = false) (hunpack : xhp.flags.unpackOnly = false)
    (harch : env.crossArch = false) (hplain : ∀ e ∈ pkgs, PlainNamed e)
    (hdist : pkgs.Pairwise fun a b => a.pkgname ≠ b.pkgname)
    (hupd : ∀ e ∈ pkgs, e.removeAndUpdate ≠ some true) (c : CommitState)
    (h : transactionCommit env true xhp pkgs = (c, .ok)) :
    (∀ e ∈ pkgs, e.transaction.unpacks = true → ∃ n d, e.pkgname = some n ∧
      c.xhp.pkgdb.get n = some d ∧ d.pkgver = e.pkgver ∧ d.state = some .installed) ∧
    (∀ e ∈ pkgs, e.transaction = .configure → ∃ n d, e.pkgname = some n ∧
      c.xhp.pkgdb.get n = some d ∧ d.state = some .installed) ∧
    (∀ e ∈ pkgs, e.transaction = .remove → ∀ n, e.pkgname = some n →
      c.xhp.pkgdb.get n = none) ∧
    ∀ n, (∀ e ∈ pkgs, e.pkgname ≠ some n) → c.xhp.pkgdb.get n = xhp.pkgdb.get n := by
  have hcases := transactionCommit_cases hload hunpack harch hplain hdist
  rw [h] at hcases
  obtain ⟨hne, -⟩ | ⟨scripts, c₃, hunp, heq⟩ := hcases
  · exact absurd rfl hne
  · obtain ⟨c₁, code, -, -, -, hor, hframe, hok⟩ := commitConfigure_spec hplain heq.symm
    obtain ⟨-, hother, hplan⟩ := commitLoop_planned hplain hdist hunp.loop
    refine ⟨fun e he ht => ?_, fun e he ht => ?_, fun e he ht n hn => ?_, fun n hn => ?_⟩
    · obtain ⟨n, hn, -⟩ := hplain e he
      have hcfg : e.transaction.configures := by
        constructor
        · intro heq
          rw [heq] at ht
          cases ht
        · intro heq
          rw [heq] at ht
          cases ht
      have hp := hplan e he n hn
      -- the loop has registered what it unpacked
      have hreg : c₃.xhp.pkgdb.get n =
          some (registeredDict env.toCommitEnv xhp.flags { e with state := some .unpacked } n) := by
        rw [Planned] at hp
        cases htt : e.transaction with
        | install => rwa [htt] at hp
        | reinstall => rwa [htt] at hp
        | update => rwa [htt] at hp
        | configure => rw [htt] at ht; cases ht
        | remove => rw [htt] at ht; cases ht
        | hold => rw [htt] at ht; cases ht
        | download => rw [htt] at ht; cases ht
        | unknown => rw [htt] at ht; cases ht
      obtain ⟨-, hget⟩ := hok rfl e he hcfg n hn
      rw [hreg] at hget
      exact ⟨n, _, hn, hget, rfl, rfl⟩
    · obtain ⟨n, hn, -⟩ := hplain e he
      have hcfg : e.transaction.configures := by
        rw [ht]
        exact ⟨by simp, by simp⟩
      obtain ⟨hsome, hget⟩ := hok rfl e he hcfg n hn
      obtain ⟨d, hd⟩ := Option.isSome_iff_exists.mp hsome
      rw [hd] at hget
      exact ⟨n, _, hn, hget, rfl⟩
    · -- what was removed is not there to be configured
      have hp := hplan e he n hn
      rw [Planned, ht] at hp
      rcases hor n with hget | hget
      · rw [hget, hp (hupd e he)]
      · rw [hget, hp (hupd e he)]
        rfl
    · rw [hframe n fun e he _ => hn e he, hother n hn]

/-- An installed or queued package. -/
def passesPkg (name pkgver : String) (ttype : TransType) (state : PkgState) (script : Bool) :
    PkgDict :=
  { pkgver := pkgver.toList, pkgname := some name.toList, transaction := ttype, state := some state
    removeScript := if script then some [] else none }

/-- A database with four packages; one of them was only unpacked. -/
def passesDemo : Handle :=
  { pkgdb := ⟨[("b".toList, passesPkg "b" "b-1_1" .unknown .installed false),
      ("d".toList, passesPkg "d" "d-1_1" .unknown .unpacked false),
      ("r".toList, passesPkg "r" "r-1_1" .unknown .installed true),
      ("u".toList, passesPkg "u" "u-1_1" .unknown .installed true)], by decide⟩ }

/-- All calls succeed. -/
def passesEnv : PassesEnv := { installDate := some [] }

/-- One entry of each kind. -/
def passesPkgs : List PkgDict :=
  [passesPkg "r" "r-1_1" .remove .installed true, passesPkg "u" "u-2_1" .update .installed true,
    passesPkg "a" "a-1_1" .install .notInstalled false,
    passesPkg "d" "d-1_1" .configure .unpacked false]

/-- The pkgvers and states of a database. -/
def passesState (xhp : Handle) : List (Str × Str × Option PkgState) :=
  xhp.pkgdb.entries.map fun e => (e.1, e.2.pkgver, e.2.state)

theorem transactionCommit_planned_passesDemo :
    (∀ n, (∀ e ∈ passesPkgs, e.pkgname ≠ some n) →
      (transactionCommit passesEnv true passesDemo passesPkgs).1.xhp.pkgdb.get n =
        passesDemo.pkgdb.get n) ∧
      passesState (transactionCommit passesEnv true passesDemo passesPkgs).1.xhp =
        [("a".toList, "a-1_1".toList, some .installed), ("b".toList, "b-1_1".toList, some .installed),
          ("d".toList, "d-1_1".toList, some .installed),
          ("u".toList, "u-2_1".toList, some .installed)] := by
  have hok : (transactionCommit passesEnv true passesDemo passesPkgs).2 = .ok := by decide +kernel
  exact ⟨(transactionCommit_planned passesEnv passesDemo passesPkgs rfl rfl rfl (by decide)
    (by decide) (by decide) _ (Prod.ext rfl hok)).2.2.2, by decide +kernel⟩

/-- The package `b-1_1` is installed; the new one is called `b-1_1`, in version 2.  Looking its
name up finds the other package, which is configured in its place. -/
theorem transactionCommit_unpacked :
    pkgName "b-1_1-2_1".toList = some "b-1_1".toList ∧
      (transactionCommit passesEnv true passesDemo
        [passesPkg "b-1_1" "b-1_1-2_1" .install .notInstalled false]).2 = .ok ∧
      ((transactionCommit passesEnv true passesDemo
        [passesPkg "b-1_1" "b-1_1-2_1" .install .notInstalled false]).1.xhp.pkgdb.get
          "b-1_1".toList).map PkgDict.state = some (some .unpacked) := by
  decide +kernel

end Flappy
