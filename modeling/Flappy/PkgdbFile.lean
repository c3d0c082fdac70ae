/-
The package database in memory and its file (`lib/pkgdb.c`).

The database is read from a file and gets its `pkgname` properties once, when it
is initialised.  Later it is changed in memory, written, and read again; what
`flappy_register_pkg` puts into it has no `pkgname`.

* `PkgdbState.step` — one operation on the database;
* `EntriesNamed` — every package is under its own name and has it as `pkgname`;
* `entriesNamed_run` — in a run that registers nothing and reads no other file than
  it has written, that holds in every state; registering a package breaks it.
-/
import Flappy.Commit

open CStr

namespace Flappy

/-- The database in memory (`none` for a `NULL` pointer), the file, and the result of the
last attempt to read it that failed. -/
structure PkgdbState where
  flags : Flags := {}
  pkgdb : Option (Dict Str PkgDict) := none
  /-- What reading the file gives. -/
  plist : Except Errno (Dict Str PkgDict)
  cachedRv : Option Errno := none

/-- The part of `flappy_pkgdb_update` that reads the file. -/
def PkgdbState.read (s : PkgdbState) : PkgdbState × Option Errno :=
  match s.plist with
  | .ok pkgdb => ({ s with pkgdb := some pkgdb }, none)
  | .error e =>
    ({ s with pkgdb := if e = .enoent then some Dict.empty else none, cachedRv := some e }, some e)

/-- The part of `flappy_pkgdb_update` that writes the file, if the database is to be flushed;
`failed` is the error that writing ends with. -/
def PkgdbState.write (s : PkgdbState) (failed : Option Errno) (flush : Bool) :
    PkgdbState × Option Errno :=
  match s.pkgdb with
  | none => (s, none)
  | some pkgdb =>
    if flush = false then (s, none)
    else
      match failed with
      | some e => (s, some e)
      | none => ({ s with pkgdb := none, plist := .ok pkgdb, cachedRv := none }, none)

/-- `flappy_pkgdb_update`. -/
def PkgdbState.update (s : PkgdbState) (failed : Option Errno) (flush update : Bool) :
    PkgdbState × Option Errno :=
  if s.cachedRv.isSome ∧ flush = false then (s, s.cachedRv)
  else
    match s.write failed flush with
    | (s, some e) => (s, some e)
    | (s, none) => if update then s.read else (s, none)

/-- The loop of `pkgdb_map_names`; it ends at a package without a name. -/
def mapNames : List (Str × PkgDict) → List (Str × PkgDict) × Option Errno
  | [] => ([], none)
  | (key, pkgd) :: entries =>
    match pkgName pkgd.pkgver with
    | none => ((key, pkgd) :: entries, some .einval)
    | some pkgname =>
      let (entries, rv) := mapNames entries
      ((key, { pkgd with pkgname := some pkgname }) :: entries, rv)

theorem map_fst_mapNames (entries : List (Str × PkgDict)) :
    (mapNames entries).1.map Prod.fst = entries.map Prod.fst := by
  fun_induction mapNames entries with
  | case1 => rfl
  | case2 => rfl
  | case3 key pkgd entries pkgname hn entries' rv heq ih =>
    rw [heq] at ih
    simpa using ih

/-- `pkgdb_map_names`. -/
def pkgdbMapNames (pkgdb : Dict Str PkgDict) : Dict Str PkgDict × Option Errno :=
  (⟨(mapNames pkgdb.entries).1, map_fst_mapNames pkgdb.entries ▸ pkgdb.nodup⟩,
    (mapNames pkgdb.entries).2)

/-- `flappy_pkgdb_init`. -/
def PkgdbState.init (s : PkgdbState) : PkgdbState × Option Errno :=
  match s.pkgdb with
  | some _ => (s, none)
  | none =>
    match s.update none false true with
    | (s, some e) => (s, some e)
    | (s, none) =>
      match s.pkgdb with
      | none => (s, none)
      | some pkgdb =>
        let (pkgdb, rv) := pkgdbMapNames pkgdb
        ({ s with pkgdb := some pkgdb }, rv)

/-- An operation on the database, with what the outside gives to it. -/
inductive PkgdbOp where
  | init
  | register (env : CommitEnv) (pkgrd : PkgDict)
  | remove (env : CommitEnv) (obj : PkgDict) (update : Bool)
  | update (failed : Option Errno) (flush update : Bool)

/-- The handle with this database. -/
def PkgdbState.handle (s : PkgdbState) (pkgdb : Dict Str PkgDict) : Handle :=
  { flags := s.flags, pkgdb }

/-- The database after an operation on the handle; a failed one leaves it alone. -/
def PkgdbState.put (s : PkgdbState) : Except Rv Handle → PkgdbState
  | .ok xhp => { s with pkgdb := some xhp.pkgdb }
  | .error _ => s

/-- One operation. -/
def PkgdbState.step (s : PkgdbState) : PkgdbOp → PkgdbState
  | .init => s.init.1
  | .register env pkgrd =>
    match s.pkgdb with
    | none => s
    | some pkgdb => s.put (registerPkg env (s.handle pkgdb) pkgrd)
  | .remove env obj update =>
    -- the package is looked up, which initialises the database
    match s.init with
    | (s, some _) => s
    | (s, none) =>
      match s.pkgdb with
      | none => s
      | some pkgdb => s.put (removePkg env (s.handle pkgdb) obj update)
  | .update failed flush update => (s.update failed flush update).1

/-- A run. -/
def PkgdbState.run (s : PkgdbState) (ops : List PkgdbOp) : PkgdbState := ops.foldl step s

/-! ### Well-formed entries -/

/-- Every package is under the name in its pkgver. -/
def Keyed (pkgdb : Dict Str PkgDict) : Prop :=
  ∀ e ∈ pkgdb.entries, pkgName e.2.pkgver = some e.1

/-- And has it as its `pkgname`. -/
def EntriesOk (pkgdb : Dict Str PkgDict) : Prop :=
  ∀ e ∈ pkgdb.entries, pkgName e.2.pkgver = some e.1 ∧ e.2.pkgname = some e.1

/-- The entries of the database in memory are well-formed. -/
def EntriesNamed (s : PkgdbState) : Prop := ∀ pkgdb, s.pkgdb = some pkgdb → EntriesOk pkgdb

/-- If the database is about to be initialised, the file is keyed by names. -/
def InitOk (s : PkgdbState) : Prop :=
  s.pkgdb = none → s.cachedRv = none → ∀ pkgdb, s.plist = .ok pkgdb → Keyed pkgdb

/-- The operation registers no package, and what it reads is well-formed: what it reads in
order to initialise the database, up to the `pkgname`s. -/
def OpOk (s : PkgdbState) : PkgdbOp → Prop
  | .init | .remove _ _ _ => InitOk s
  | .register env _ =>
    s.pkgdb = none ∨ (s.flags.installRepro = false ∧ env.installDate = none)
  | .update _ flush update =>
    update = true → (s.cachedRv = none ∨ flush = true) → (s.pkgdb = none ∨ flush = false) →
      ∀ pkgdb, s.plist = .ok pkgdb → EntriesOk pkgdb

/-- Every operation of the run is one of these, in the state before it. -/
def RunOk (s : PkgdbState) : List PkgdbOp → Prop
  | [] => True
  | op :: ops => OpOk s op ∧ RunOk (s.step op) ops

/-- Packages under their names get these names. -/
theorem mapNames_named {entries : List (Str × PkgDict)}
    (h : ∀ e ∈ entries, pkgName e.2.pkgver = some e.1) :
    ∀ e ∈ (mapNames entries).1, pkgName e.2.pkgver = some e.1 ∧ e.2.pkgname = some e.1 := by
  fun_induction mapNames entries with
  | case1 => exact fun e he => by cases he
  | case2 key pkgd entries hn =>
    have := h (key, pkgd) List.mem_cons_self
    rw [hn] at this
    cases this
  | case3 key pkgd entries pkgname hn entries' rv heq ih =>
    have hkey : pkgName pkgd.pkgver = some key := h (key, pkgd) List.mem_cons_self
    obtain rfl := Option.some.inj (hn.symm.trans hkey)
    rw [heq] at ih
    rw [List.forall_mem_cons]
    exact ⟨⟨hn, rfl⟩, ih fun e he => h e (List.mem_cons_of_mem _ he)⟩

theorem EntriesNamed.read {s : PkgdbState} (h : ∀ pkgdb, s.plist = .ok pkgdb → EntriesOk pkgdb) :
    EntriesNamed s.read.1 := by
  rw [PkgdbState.read]
  cases hp : s.plist with
  | ok pkgdb =>
    intro pkgdb' heq
    obtain rfl := Option.some.inj heq
    exact h pkgdb hp
  | error e =>
    intro pkgdb' heq
    simp only at heq
    split at heq
    · obtain rfl := Option.some.inj heq
      exact fun e he => by cases he
    · cases heq

theorem EntriesNamed.update {s : PkgdbState} (hs : EntriesNamed s) {failed : Option Errno}
    {flush update : Bool} (h : OpOk s (.update failed flush update)) :
    EntriesNamed (s.update failed flush update).1 := by
  rw [PkgdbState.update]
  by_cases hc : s.cachedRv.isSome ∧ flush = false
  · rw [if_pos hc]
    exact hs
  · rw [if_neg hc]
    have hcached : s.cachedRv = none ∨ flush = true := by
      cases hrv : s.cachedRv with
      | none => exact Or.inl rfl
      | some e => exact Or.inr (by simpa [hrv] using hc)
    -- what is read afterwards is what was written
    have hwrite : EntriesNamed (s.write failed flush).1 ∧
        ((s.write failed flush).2 = none → update = true →
          ∀ pkgdb, (s.write failed flush).1.plist = .ok pkgdb → EntriesOk pkgdb) := by
      rw [PkgdbState.write]
      cases hp : s.pkgdb with
      | none => exact ⟨hs, fun _ hu => h hu hcached (Or.inl hp)⟩
      | some pkgdb =>
        simp only
        by_cases hf : flush = false
        · rw [if_pos hf]
          exact ⟨hs, fun _ hu => h hu hcached (Or.inr hf)⟩
        · rw [if_neg hf]
          cases failed with
          | some e => exact ⟨hs, fun hrv => by cases hrv⟩
          | none =>
            refine ⟨fun pkgdb' heq => (by cases heq), fun _ _ pkgdb' heq => ?_⟩
            rw [← Except.ok.inj heq]
            exact hs pkgdb hp
    generalize s.write failed flush = r at hwrite
    obtain ⟨s', rv⟩ := r
    cases rv with
    | some e => exact hwrite.1
    | none =>
      cases hu : update with
      | false => exact hwrite.1
      | true => exact EntriesNamed.read (hwrite.2 rfl hu)

/-- A removal adds no entries. -/
theorem removePkg_entries {env : CommitEnv} {xhp xhp' : Handle} {obj : PkgDict} {update : Bool}
    (h : removePkg env xhp obj update = .ok xhp') {e : Str × PkgDict}
    (he : e ∈ xhp'.pkgdb.entries) : e ∈ xhp.pkgdb.entries := by
  rw [removePkg] at h
  split at h
  · cases h
  · split at h
    · cases h
    · split at h
      · cases h
      · cases h
      · split at h
        · obtain rfl := Except.ok.inj h
          exact he
        · obtain rfl := Except.ok.inj h
          exact List.mem_of_mem_filter he

/-- What an update that only reads leaves. -/
theorem PkgdbState.update_read (s : PkgdbState) (hc : s.cachedRv = none) :
    s.update none false true = s.read := by
  rw [PkgdbState.update, if_neg (by simp [hc]), PkgdbState.write]
  cases s.pkgdb with
  | none => rfl
  | some pkgdb => rfl

theorem EntriesNamed.init {s : PkgdbState} (hs : EntriesNamed s) (h : InitOk s) :
    EntriesNamed s.init.1 := by
  rw [PkgdbState.init]
  cases hp : s.pkgdb with
  | some pkgdb => exact hs
  | none =>
    simp only
    cases hc : s.cachedRv with
    | some e =>
      rw [PkgdbState.update, if_pos ⟨by simp [hc], rfl⟩]
      simp only [hc]
      exact hs
    | none =>
      rw [s.update_read hc, PkgdbState.read]
      cases hf : s.plist with
      | ok pkgdb =>
        intro pkgdb' heq
        obtain rfl := Option.some.inj heq
        exact mapNames_named (h hp hc pkgdb hf)
      | error e =>
        intro pkgdb' heq
        simp only at heq
        split at heq
        · obtain rfl := Option.some.inj heq
          exact fun e he => by cases he
        · cases heq

/-- An operation that registers nothing leaves well-formed entries. -/
theorem EntriesNamed.step {s : PkgdbState} (hs : EntriesNamed s) {op : PkgdbOp} (h : OpOk s op) :
    EntriesNamed (s.step op) := by
  cases op with
  | init => exact hs.init h
  | update failed flush update => exact hs.update h
  | register env pkgrd =>
    rw [PkgdbState.step]
    cases hp : s.pkgdb with
    | none => exact hs
    | some pkgdb =>
      rcases h with h | h
      · rw [hp] at h
        cases h
      · have hfail : registerPkg env (s.handle pkgdb) pkgrd = .error (.err .einval) := if_pos h
        simp only [hfail]
        exact hs
  | remove env obj update =>
    rw [PkgdbState.step]
    have hi := hs.init h
    generalize s.init = r at hi
    obtain ⟨s', rv⟩ := r
    cases rv with
    | some e => exact hi
    | none =>
      simp only
      cases hp : s'.pkgdb with
      | none => exact hi
      | some pkgdb =>
        simp only
        cases hr : removePkg env (s'.handle pkgdb) obj update with
        | error rv => exact hi
        | ok xhp =>
          intro pkgdb' heq
          obtain rfl := Option.some.inj heq
          -- no entry is new
          exact fun e he => hi pkgdb hp e (removePkg_entries hr he)

/-- In every run whose operations register no package and read well-formed entries, the
entries are well-formed in every state.  Registering a package always breaks that. -/
theorem entriesNamed_run (s : PkgdbState) (hs : s.pkgdb = none) (ops : List PkgdbOp)
    (h : RunOk s ops) :
    (∀ before after, ops = before ++ after → EntriesNamed (s.run before)) ∧
      ∀ (s' : PkgdbState) (pkgdb : Dict Str PkgDict) (env : CommitEnv) (pkgrd : PkgDict)
        (xhp : Handle), s'.pkgdb = some pkgdb →
        registerPkg env (s'.handle pkgdb) pkgrd = .ok xhp →
        ¬ EntriesNamed (s'.step (.register env pkgrd)) := by
  have hstart : EntriesNamed s := fun pkgdb hp => by
    rw [hs] at hp
    cases hp
  constructor
  · intro before
    clear hs
    induction before generalizing s ops with
    | nil => exact fun _ _ => hstart
    | cons op before ih =>
      intro after heq
      subst heq
      exact ih (s.step op) (before ++ after) h.2 (hstart.step h.1) after rfl
  · intro s' pkgdb env pkgrd xhp hp hr hnamed
    rw [PkgdbState.step, hp] at hnamed
    simp only [hr] at hnamed
    obtain ⟨-, pkgname, -, hdb⟩ := registerPkg_spec hr
    have hmem : (pkgname, registeredDict env (s'.handle pkgdb).flags pkgrd pkgname) ∈
        xhp.pkgdb.entries := by
      rw [Dict.mem_entries_iff, hdb]
      exact Dict.get_set_self _ _ _
    cases (hnamed xhp.pkgdb rfl _ hmem).2

/-- A package to be registered. -/
def registerDemo : PkgDict :=
  { pkgver := "a-1_1".toList, pkgname := some "a".toList, state := some .unpacked }

/-- An installed package, as the file has it: without a `pkgname`. -/
def pkgdbFileDemo : PkgdbState :=
  { plist := .ok ⟨[("b".toList, { pkgver := "b-1_1".toList, state := some .installed })],
      List.nodup_singleton _⟩ }

theorem entriesNamed_run_pkgdbFileDemo :
    EntriesNamed (pkgdbFileDemo.run [.init, .update none true true]) ∧
      (pkgdbFileDemo.run [.init, .update none true true]).pkgdb.map
        (fun pkgdb => pkgdb.entries.map fun e => (e.1, e.2.pkgname)) =
          some [("b".toList, some "b".toList)] := by
  have hok : RunOk pkgdbFileDemo [.init, .update none true true] := by
    refine ⟨fun _ _ pkgdb heq => ?_, fun _ _ h => ?_, trivial⟩
    · obtain rfl := Except.ok.inj heq
      unfold Keyed
      decide
    · rcases h with h | h
      · cases h
      · cases h
  exact ⟨(entriesNamed_run pkgdbFileDemo rfl _ hok).1 _ [] rfl, by decide⟩

/-- A package is registered, and the database is written and read again.  The package has no
`pkgname`, so that another transaction cannot store it. -/
theorem registered_unnamed :
    ¬ EntriesNamed (pkgdbFileDemo.run [.init, .register { installDate := some [] } registerDemo,
        .update none true true]) ∧
      (pkgdbFileDemo.run [.init, .register { installDate := some [] } registerDemo,
        .update none true true]).pkgdb.map
          (fun pkgdb => pkgdb.entries.map fun e => (e.1, e.2.pkgname)) =
            some [("a".toList, none), ("b".toList, some "b".toList)] ∧
      ((pkgdbFileDemo.run [.init, .register { installDate := some [] } registerDemo,
        .update none true true]).pkgdb.bind fun pkgdb => (pkgdb.get "a".toList).map fun pkgd =>
          (transactionStore [] pkgd false).isSome) = some false := by
  refine ⟨fun h => ?_, by decide, by decide⟩
  have hget : ∃ pkgd, (pkgdbFileDemo.run [.init, .register { installDate := some [] } registerDemo,
      .update none true true]).pkgdb.map (fun pkgdb => pkgdb.get "a".toList) = some (some pkgd) ∧
      pkgd.pkgname = none := ⟨_, rfl, rfl⟩
  obtain ⟨pkgd, hpkgd, hnone⟩ := hget
  obtain ⟨pkgdb, hp, hpkgd⟩ := Option.map_eq_some_iff.mp hpkgd
  have hname := (h pkgdb hp _ (Dict.mem_entries_iff.mpr hpkgd)).2
  rw [hnone] at hname
  cases hname

end Flappy
