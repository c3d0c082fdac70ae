/-
The alternatives groups (`lib/package_alternatives.c`).

The package database has a dictionary from groups to package names; the first name of
a group is its current alternative.  Registering, updating and removing a package and
choosing an alternative all edit these arrays, next to the links on disk, and nothing
checks afterwards that they still say what the packages say.

* `AltState` — the database, the groups and the links on disk;
* `AltInv` — the groups are what the packages provide;
* `run_altInv` — the invariant holds after every run in which packages go by their own
  names and no removal stops half way.
-/
import Flappy.Alternatives.Links
import Flappy.Lib.Run
import Flappy.Rpool

open CStr Run

namespace Flappy

/-- A package dictionary, as far as the alternatives are concerned. -/
structure AltPkg where
  pkgver : Str
  pkgname : Str
  runDepends : List Str := []
  shlibRequires : List Str := []
  /-- From groups to lists of links. -/
  alternatives : Dict Str (List Str) := Dict.empty
  /-- `alternatives-update`. -/
  update : Bool := false
deriving DecidableEq

/-- What a lookup sees of a package. -/
def AltPkg.dict (d : AltPkg) : PkgDict where
  pkgver := d.pkgver
  pkgname := some d.pkgname
  runDepends := some d.runDepends
  shlibRequires := some d.shlibRequires

/-- The state of the alternatives. -/
structure AltState (Place : Type*) where
  pkgdb : Dict Str AltPkg := Dict.empty
  /-- `_FLAPPY_ALTERNATIVES_`. -/
  alternatives : Option (Dict Str (List Str)) := none
  fs : Place → Option Node
  /-- The groups whose links `switch_alt_group` has created, with the list of these. -/
  switched : List (Str × List Str) := []

variable {Place : Type*}

/-- The groups; a missing dictionary has none. -/
def AltState.groups (s : AltState Place) : Dict Str (List Str) := s.alternatives.getD Dict.empty

/-- The database as a lookup sees it. -/
def AltState.dicts (s : AltState Place) : Dict Str PkgDict where
  entries := s.pkgdb.entries.map fun e => (e.1, e.2.dict)
  nodup := by
    rw [List.map_map]
    exact s.pkgdb.nodup

/-- `flappy_pkgdb_get_pkg`. -/
def AltState.getPkg (s : AltState Place) (pkg : Str) : Option AltPkg :=
  (findKeyInDict s.dicts pkg).bind s.pkgdb.get

/-- The `alternatives` of a package. -/
def AltState.altsOf (s : AltState Place) (pkgn : Str) : Dict Str (List Str) :=
  ((s.getPkg pkgn).map AltPkg.alternatives).getD Dict.empty

def AltState.setGroup (s : AltState Place) (keyname : Str) (array : List Str) : AltState Place :=
  { s with alternatives := some (s.groups.set keyname array) }

def AltState.eraseGroup (s : AltState Place) (keyname : Str) : AltState Place :=
  { s with alternatives := some (s.groups.erase keyname) }

/-- A missing array of links is empty. -/
def linksOf (alternatives : Dict Str (List Str)) (keyname : Str) : List Str :=
  (alternatives.get keyname).getD []

section Operations

variable [DecidableEq Place]

/-- The loop of `flappy_alternatives_set`; `none` if the process ends.  An array of the
dictionary is never empty, so `prevpkgname` is always that of the group. -/
def setGroups (env : AltEnv Place) (pkgname : Str) (group : Option Str)
    (pkgAlternatives : Dict Str (List Str)) :
    List Str → AltState Place → Option (AltState Place × Option Errno)
  | [], s => some (s, none)
  | keyname :: keys, s =>
    if group.any (· ≠ keyname) then setGroups env pkgname group pkgAlternatives keys s
    else
      match s.groups.get keyname with
      | none => setGroups env pkgname group pkgAlternatives keys s
      | some array =>
        let previous : List Str :=
          match array.head? with
          | none => []
          | some prevpkgname =>
            if pkgname ≠ prevpkgname then linksOf (s.altsOf prevpkgname) keyname else []
        match removeSymlinks env s.fs previous with
        | none => none
        | some fs =>
          let s := { s with fs := fs }
          let s := s.setGroup keyname (pkgname :: removeStringFromArray array pkgname)
          let (fs, rv) := createSymlinks env s.fs (linksOf pkgAlternatives keyname)
          let s := { s with fs := fs }
          if rv.isSome ∨ group.isSome then some (s, rv)
          else setGroups env pkgname group pkgAlternatives keys s

/-- `flappy_alternatives_set`. -/
def alternativesSet (env : AltEnv Place) (s : AltState Place) (pkgname : Str)
    (group : Option Str) : Option (AltState Place × Option Errno) :=
  if s.alternatives = none then some (s, some .enoent)
  else
    match s.getPkg pkgname with
    | none => some (s, some .enoent)
    | some pkgd =>
      if pkgd.alternatives.keys = [] then some (s, some .enoent)
      else if group.any fun group => (pkgd.alternatives.get group).isNone then
        some (s, some .enoent)
      else setGroups env pkgname group pkgd.alternatives pkgd.alternatives.keys s

/-- The links of `switch_alt_group`, once its lookup has found the package. -/
def AltState.createGroup (env : AltEnv Place) (s : AltState Place) (grpn : Str)
    (pkgalts : Dict Str (List Str)) : AltState Place × Option Errno :=
  let a := linksOf pkgalts grpn
  let (fs, rv) := createSymlinks env s.fs a
  ({ s with
      fs := fs
      switched := if rv.isNone then s.switched ++ [(grpn, a)] else s.switched }, rv)

/-- `switch_alt_group`; `none` if its assertion ends the process, because no package is
found. -/
def AltState.switchAltGroup (env : AltEnv Place) (s : AltState Place) (grpn pkgn : Str) :
    Option (AltState Place × Option Errno) :=
  (s.getPkg pkgn).map fun curpkgd => s.createGroup env grpn curpkgd.alternatives

/-- The loop of `flappy_alternatives_unregister`.  The variable `pkg_alternatives` is
an argument, because a switch changes it. -/
def unregisterGroups (env : AltEnv Place) (pkgname : Str) (update : Bool) :
    List Str → Dict Str (List Str) → AltState Place → Option (AltState Place)
  | [], _, s => some s
  | keyname :: keys, pkgAlternatives, s =>
    match s.groups.get keyname with
    | none => unregisterGroups env pkgname update keys pkgAlternatives s
    -- `strcmp` would get a null pointer
    | some [] => none
    | some (first :: rest) =>
      match
        if pkgname = first then removeSymlinks env s.fs (linksOf pkgAlternatives keyname)
        else some s.fs with
      | none => none
      | some fs =>
        let s := { s with fs := fs }
        match if update then first :: rest else removeStringFromArray (first :: rest) pkgname with
        | [] => unregisterGroups env pkgname update keys pkgAlternatives (s.eraseGroup keyname)
        | first' :: rest' =>
          let s := s.setGroup keyname (first' :: rest')
          if update = true ∨ pkgname ≠ first then
            unregisterGroups env pkgname update keys pkgAlternatives s
          else
            match s.switchAltGroup env keyname first' with
            | none => none
            -- the loop ends here, and the return value is still 0
            | some (s, some _) => some s
            | some (s, none) => unregisterGroups env pkgname update keys (s.altsOf first') s

/-- `flappy_alternatives_unregister`, which returns 0 whenever it returns. -/
def alternativesUnregister (env : AltEnv Place) (s : AltState Place) (pkgd : AltPkg) :
    Option (AltState Place) :=
  if s.alternatives = none ∨ pkgd.alternatives.keys = [] then some s
  else
    unregisterGroups env pkgd.pkgname pkgd.update pkgd.alternatives.keys pkgd.alternatives s

/-- `prune_altgroup`. -/
def pruneAltgroup (env : AltEnv Place) (s : AltState Place) (repod : AltPkg) (keyname : Str) :
    Option (AltState Place) :=
  match s.groups.get keyname with
  | none | some [] => none
  | some (curpkg :: rest) =>
    match removeStringFromArray (curpkg :: rest) repod.pkgname with
    | [] => some (s.eraseGroup keyname)
    | newpkg :: others =>
      let array := newpkg :: others
      if repod.pkgname ≠ curpkg then some (s.setGroup keyname array)
      else if repod.runDepends = [] ∧ repod.shlibRequires = [] then
        ((s.setGroup keyname array).switchAltGroup env keyname newpkg).map Prod.fst
      else
        let newpkg := array.getLast (List.cons_ne_nil _ _)
        ((s.setGroup keyname (newpkg :: removeStringFromArray array newpkg)).switchAltGroup
          env keyname newpkg).map Prod.fst

/-- The removal of links in `remove_obsoletes`. -/
def removeObsoleteLinks (env : AltEnv Place) (s : AltState Place) (repod : AltPkg)
    (array : List Str) (keyname : Str) : Option (AltState Place) :=
  if repod.alternatives.get keyname = some array then some s
  else
    match s.groups.get keyname with
    | none => some s
    | some [] => none
    | some (first :: _) =>
      if repod.pkgname = first then
        (removeSymlinks env s.fs (linksOf repod.alternatives keyname)).map fun fs =>
          { s with fs := fs }
      else some s

/-- The loop of `remove_obsoletes`, over the alternatives of the installed package. -/
def removeObsoleteGroups (env : AltEnv Place) (repod : AltPkg) :
    List (Str × List Str) → AltState Place → Option (AltState Place)
  | [], s => some s
  | (keyname, array) :: entries, s =>
    (removeObsoleteLinks env s repod array keyname).bind fun s =>
      if linksOf repod.alternatives keyname = [] then
        (pruneAltgroup env s repod keyname).bind (removeObsoleteGroups env repod entries)
      else removeObsoleteGroups env repod entries s

/-- `remove_obsoletes`. -/
def removeObsoletes (env : AltEnv Place) (s : AltState Place) (repod : AltPkg) :
    Option (AltState Place) :=
  match s.getPkg repod.pkgname with
  | none => some s
  | some pkgd => removeObsoleteGroups env repod pkgd.alternatives.entries s

/-- The loop of `flappy_alternatives_register`. -/
def registerGroups (env : AltEnv Place) (repod : AltPkg) :
    List Str → AltState Place → AltState Place × Option Errno
  | [], s => (s, none)
  | keyname :: keys, s =>
    match s.groups.get keyname with
    | some array =>
      if matchStringInArray array repod.pkgname then
        if array.head? ≠ some repod.pkgname then registerGroups env repod keys s
        else
          match createSymlinks env s.fs (linksOf repod.alternatives keyname) with
          | (fs, some e) => ({ s with fs := fs }, some e)
          | (fs, none) => registerGroups env repod keys { s with fs := fs }
      else registerGroups env repod keys (s.setGroup keyname (array ++ [repod.pkgname]))
    | none =>
      let s := s.setGroup keyname [repod.pkgname]
      match createSymlinks env s.fs (linksOf repod.alternatives keyname) with
      | (fs, some e) => ({ s with fs := fs }, some e)
      | (fs, none) => registerGroups env repod keys { s with fs := fs }

/-- `flappy_alternatives_register`. -/
def alternativesRegister (env : AltEnv Place) (s : AltState Place) (repod : AltPkg) :
    Option (AltState Place × Option Errno) :=
  (removeObsoletes env { s with alternatives := some s.groups } repod).map fun s =>
    registerGroups env repod repod.alternatives.keys s

/-! ### Runs -/

/-- What happens to the alternatives. -/
inductive AltEvent where
  /-- A package is unpacked and registered. -/
  | register (repod : AltPkg)
  /-- `flappy_remove_pkg` before an update. -/
  | update (pkgname : Str)
  /-- `flappy_remove_pkg` of a package that goes. -/
  | remove (pkgname : Str)
  /-- `flappy_alternatives_set`. -/
  | set (pkgname : Str) (group : Option Str)

/-- One event; it is impossible if the registration fails or the process ends. -/
def AltState.step (env : AltEnv Place) (s : AltState Place) : AltEvent → Option (AltState Place)
  | .register repod =>
    match alternativesRegister env s repod with
    | some (s, none) => some { s with pkgdb := s.pkgdb.set repod.pkgname repod }
    | _ => none
  | .update pkgname =>
    (s.getPkg pkgname).bind fun pkgd =>
      let pkgd := { pkgd with update := true }
      alternativesUnregister env { s with pkgdb := s.pkgdb.modify pkgd.pkgname fun _ => pkgd } pkgd
  | .remove pkgname =>
    (s.getPkg pkgname).bind fun pkgd =>
      (alternativesUnregister env s pkgd).map fun s => { s with pkgdb := s.pkgdb.erase pkgname }
  | .set pkgname group => (alternativesSet env s pkgname group).map Prod.fst

end Operations

/-- A name finds the package of that name, or none. -/
def AltState.Named (s : AltState Place) (pkgname : Str) : Prop :=
  s.getPkg pkgname = s.pkgdb.get pkgname

instance AltState.decidableNamed (s : AltState Place) (pkgname : Str) :
    Decidable (s.Named pkgname) :=
  inferInstanceAs (Decidable (_ = _))

/-- The package to which a group is switched when its current one goes. -/
def AltState.successor (s : AltState Place) (keyname pkgname : Str) : Option Str :=
  match s.groups.get keyname with
  | some (first :: rest) =>
    if pkgname = first then (removeStringFromArray (first :: rest) pkgname).head? else none
  | _ => none

/-- The links of the successor of a package can be created. -/
def AltState.switchable (env : AltEnv Place) (s : AltState Place) (pkgname keyname : Str) : Bool :=
  (s.successor keyname pkgname).all fun first =>
    (linksOf (s.altsOf first) keyname).all env.creatable

/-- The packages of an event go by their names, no switch of a removal fails before the
last group, and no update is pending for the removed package. -/
def AltState.Proper (env : AltEnv Place) (s : AltState Place) : AltEvent → Prop
  | .register repod => s.Named repod.pkgname
  | .update pkgname => s.Named pkgname
  | .remove pkgname =>
    s.Named pkgname ∧ ∀ pkgd ∈ s.getPkg pkgname, pkgd.update = false ∧
      ∀ keyname ∈ pkgd.alternatives.keys.dropLast, s.switchable env pkgname keyname = true
  | .set pkgname _ => (s.getPkg pkgname).isSome → s.Named pkgname

instance AltState.decidableProper [DecidableEq Place] (env : AltEnv Place) (s : AltState Place)
    (e : AltEvent) :
    Decidable (s.Proper env e) :=
  match e with
  | .register repod => inferInstanceAs (Decidable (s.Named repod.pkgname))
  | .update pkgname => inferInstanceAs (Decidable (s.Named pkgname))
  | .remove pkgname =>
    inferInstanceAs (Decidable (s.Named pkgname ∧ ∀ pkgd ∈ s.getPkg pkgname,
      pkgd.update = false ∧
        ∀ keyname ∈ pkgd.alternatives.keys.dropLast, s.switchable env pkgname keyname = true))
  | .set pkgname _ => inferInstanceAs (Decidable ((s.getPkg pkgname).isSome → s.Named pkgname))

/-- A package name is in the array of a group. -/
def AltState.Provides (s : AltState Place) (g n : Str) : Prop :=
  ∃ names, s.groups.get g = some names ∧ n ∈ names

/-- Arrays are not empty and have no duplicates. -/
def AltState.ArraysOk (s : AltState Place) : Prop :=
  ∀ g names, s.groups.get g = some names → names ≠ [] ∧ names.Nodup

/-- The groups are what the packages provide. -/
structure AltInv (s : AltState Place) : Prop where
  arrays : s.ArraysOk
  provided : ∀ g n, s.Provides g n ↔
    ∃ d, s.pkgdb.get n = some d ∧ g ∈ d.alternatives.keys
  named : ∀ n d, s.pkgdb.get n = some d → d.pkgname = n

/-! ### Lookups -/

theorem AltState.dicts_get (s : AltState Place) (k : Str) :
    s.dicts.get k = (s.pkgdb.get k).map AltPkg.dict := by
  rw [Dict.get, Dict.get, AltState.dicts, List.find?_map, Option.map_map, Option.map_map]
  rfl

/-- The lookup is that of the library. -/
theorem AltState.getPkg_dict (s : AltState Place) (pkg : Str) :
    (s.getPkg pkg).map AltPkg.dict = findPkgInDict s.dicts pkg := by
  rw [AltState.getPkg, findKeyInDict]
  cases hf : findPkgInDict s.dicts pkg with
  | none => rfl
  | some pkgd =>
    obtain ⟨key, hkey, hget⟩ := findPkgInDict_key hf
    rw [Option.isSome_some, if_pos rfl, hkey, Option.bind_some, ← s.dicts_get, hget]

/-! ### Editing a group -/

@[simp] theorem AltState.groups_setGroup (s : AltState Place) (g : Str) (names : List Str) :
    (s.setGroup g names).groups = s.groups.set g names := rfl

@[simp] theorem AltState.groups_eraseGroup (s : AltState Place) (g : Str) :
    (s.eraseGroup g).groups = s.groups.erase g := rfl

/-- How the groups differ after an operation that leaves the packages alone. -/
structure Regrouped (s s' : AltState Place) (P : Str → Str → Prop) : Prop where
  pkgdb : s'.pkgdb = s.pkgdb
  arrays : s'.ArraysOk
  provides : ∀ g n, s'.Provides g n ↔ P g n

theorem Regrouped.refl {s : AltState Place} (h : s.ArraysOk) : Regrouped s s s.Provides :=
  ⟨rfl, h, fun _ _ => Iff.rfl⟩

/-- The links on disk do not matter. -/
theorem Regrouped.frame {s s' s'' : AltState Place} {P : Str → Str → Prop}
    (h : Regrouped s s' P) (hdb : s''.pkgdb = s'.pkgdb) (hg : s''.groups = s'.groups) :
    Regrouped s s'' P := by
  refine ⟨hdb.trans h.pkgdb, ?_, fun g n => ?_⟩
  · rw [AltState.ArraysOk, hg]
    exact h.arrays
  · rw [AltState.Provides, hg]
    exact h.provides g n

theorem Regrouped.trans {s s' s'' : AltState Place} {P Q : Str → Str → Prop}
    (h : Regrouped s s' P) (h' : Regrouped s' s'' Q) : Regrouped s s'' Q :=
  ⟨h'.pkgdb.trans h.pkgdb, h'.arrays, h'.provides⟩

theorem Regrouped.congr {s s' : AltState Place} {P Q : Str → Str → Prop}
    (h : Regrouped s s' P) (hPQ : ∀ g n, P g n ↔ Q g n) : Regrouped s s' Q :=
  ⟨h.pkgdb, h.arrays, fun g n => (h.provides g n).trans (hPQ g n)⟩

theorem Regrouped.setGroup {s : AltState Place} (h : s.ArraysOk) {g : Str} {names : List Str}
    (hne : names ≠ []) (hnd : names.Nodup) :
    Regrouped s (s.setGroup g names) fun g' n => if g' = g then n ∈ names else s.Provides g' n := by
  refine ⟨rfl, fun g' names' hget => ?_, fun g' n => ?_⟩
  · rw [AltState.groups_setGroup] at hget
    by_cases hg : g' = g
    · subst hg
      rw [Dict.get_set_self] at hget
      cases hget
      exact ⟨hne, hnd⟩
    · rw [Dict.get_set_ne _ _ hg] at hget
      exact h g' names' hget
  · rw [AltState.Provides, AltState.groups_setGroup]
    by_cases hg : g' = g
    · subst hg
      simp
    · rw [Dict.get_set_ne _ _ hg, if_neg hg]
      rfl

theorem Regrouped.eraseGroup {s : AltState Place} (h : s.ArraysOk) (g : Str) :
    Regrouped s (s.eraseGroup g) fun g' n => g' ≠ g ∧ s.Provides g' n := by
  refine ⟨rfl, fun g' names' hget => ?_, fun g' n => ?_⟩
  · rw [AltState.groups_eraseGroup] at hget
    by_cases hg : g' = g
    · subst hg
      rw [Dict.get_erase_self] at hget
      cases hget
    · rw [Dict.get_erase_ne _ hg] at hget
      exact h g' names' hget
  · rw [AltState.Provides, AltState.groups_eraseGroup]
    by_cases hg : g' = g
    · subst hg
      simp
    · rw [Dict.get_erase_ne _ hg]
      exact (and_iff_right hg).symm

theorem provides_of_get {s : AltState Place} {g : Str} {names : List Str}
    (h : s.groups.get g = some names) (n : Str) : s.Provides g n ↔ n ∈ names := by
  simp [AltState.Provides, h]

theorem mem_removeStringFromArray {names : List Str} (h : names.Nodup) (n m : Str) :
    m ∈ removeStringFromArray names n ↔ m ∈ names ∧ m ≠ n := by
  have hp : removeStringFromArray names n = names.erase n := by
    rw [removeStringFromArray, List.erase_eq_eraseP']
    congr 1
    funext s
    exact (Bool.beq_eq_decide_eq _ _).symm
  rw [hp, h.mem_erase_iff, and_comm]

theorem removeStringFromArray_nodup {names : List Str} (h : names.Nodup) (n : Str) :
    (removeStringFromArray names n).Nodup :=
  h.sublist List.eraseP_sublist

/-- Moving a name to the front of an array. -/
theorem moveToFront {names : List Str} (h : names.Nodup) {n : Str} (hn : n ∈ names) :
    (n :: removeStringFromArray names n).Nodup ∧
      ∀ m, m ∈ n :: removeStringFromArray names n ↔ m ∈ names := by
  have hmem := mem_removeStringFromArray h n
  refine ⟨List.nodup_cons.mpr ⟨by simp [hmem], removeStringFromArray_nodup h n⟩, fun m => ?_⟩
  rw [List.mem_cons, hmem]
  by_cases hm : m = n
  · simp [hm, hn]
  · simp [hm]

/-- An array with the same names. -/
theorem Regrouped.setSame {s : AltState Place} (h : s.ArraysOk) {g : Str} {names names' : List Str}
    (hget : s.groups.get g = some names) (hne : names' ≠ []) (hnd : names'.Nodup)
    (hmem : ∀ m, m ∈ names' ↔ m ∈ names) : Regrouped s (s.setGroup g names') s.Provides := by
  refine (Regrouped.setGroup h hne hnd).congr fun g' m => ?_
  by_cases hg : g' = g
  · subst hg
    rw [if_pos rfl, provides_of_get hget, hmem]
  · rw [if_neg hg]

/-- An array with the same names but one. -/
theorem Regrouped.setWithout {s : AltState Place} (h : s.ArraysOk) {g n : Str}
    {names names' : List Str} (hget : s.groups.get g = some names) (hne : names' ≠ [])
    (hnd : names'.Nodup) (hmem : ∀ m, m ∈ names' ↔ m ∈ names ∧ m ≠ n) :
    Regrouped s (s.setGroup g names') fun g' m => s.Provides g' m ∧ ¬ (g' = g ∧ m = n) := by
  refine (Regrouped.setGroup h hne hnd).congr fun g' m => ?_
  by_cases hg : g' = g
  · subst hg
    rw [if_pos rfl, provides_of_get hget, hmem]
    simp
  · simp [hg]

/-- Take a name out of the array of a group, and the group out of the dictionary if it
was the last one. -/
def AltState.dropName (s : AltState Place) (g n : Str) (names : List Str) : AltState Place :=
  if removeStringFromArray names n = [] then s.eraseGroup g
  else s.setGroup g (removeStringFromArray names n)

theorem Regrouped.dropName {s : AltState Place} (h : s.ArraysOk) {g : Str} {names : List Str}
    (hget : s.groups.get g = some names) (n : Str) :
    Regrouped s (s.dropName g n names) fun g' m => s.Provides g' m ∧ ¬ (g' = g ∧ m = n) := by
  rw [AltState.dropName]
  obtain ⟨hne, hnd⟩ := h g names hget
  have hmem := mem_removeStringFromArray hnd n
  by_cases hr : removeStringFromArray names n = []
  · rw [if_pos hr]
    refine (Regrouped.eraseGroup h g).congr fun g' m => ?_
    by_cases hg : g' = g
    · subst hg
      have := hmem m
      simp only [hr, List.not_mem_nil, false_iff, not_and, not_not] at this
      rw [provides_of_get hget]
      simpa using this
    · simp [hg]
  · rw [if_neg hr]
    exact Regrouped.setWithout h hget hr (removeStringFromArray_nodup hnd n) hmem

theorem dropName_frame (s : AltState Place) (g n : Str) (names : List Str) :
    (s.dropName g n names).pkgdb = s.pkgdb ∧ (s.dropName g n names).fs = s.fs ∧
      (s.dropName g n names).switched = s.switched ∧
      ∀ g' ≠ g, (s.dropName g n names).groups.get g' = s.groups.get g' := by
  rw [AltState.dropName]
  split
  · exact ⟨rfl, rfl, rfl, fun g' h => Dict.get_erase_ne _ h⟩
  · exact ⟨rfl, rfl, rfl, fun g' h => Dict.get_set_ne _ _ h⟩

theorem successor_congr {s s' : AltState Place} {g : Str} (hg : s'.groups.get g = s.groups.get g)
    (n : Str) : s'.successor g n = s.successor g n := by
  rw [AltState.successor, AltState.successor, hg]

theorem getPkg_congr {s s' : AltState Place} (hdb : s'.pkgdb = s.pkgdb) (n : Str) :
    s'.getPkg n = s.getPkg n := by
  cases s
  cases s'
  cases hdb
  rfl

theorem altsOf_congr {s s' : AltState Place} (hdb : s'.pkgdb = s.pkgdb) (n : Str) :
    s'.altsOf n = s.altsOf n := by
  rw [AltState.altsOf, AltState.altsOf, getPkg_congr hdb]

theorem switchable_congr {env : AltEnv Place} {s s' : AltState Place} {g : Str} (hdb : s'.pkgdb = s.pkgdb)
    (hg : s'.groups.get g = s.groups.get g) (n : Str) :
    s'.switchable env n g = s.switchable env n g := by
  rw [AltState.switchable, AltState.switchable, successor_congr hg]
  simp only [altsOf_congr hdb]

/-- Flagging a package for an update changes nothing that the invariant is about. -/
theorem AltInv.flag {s : AltState Place} {n : Str} {d : AltPkg} (h : AltInv s) (hd : s.pkgdb.get n = some d) :
    AltInv { s with pkgdb := s.pkgdb.modify d.pkgname fun _ => { d with update := true } } := by
  have hn := h.named n d hd
  refine ⟨h.arrays, fun g m => (h.provided g m).trans ?_, fun m d' hd' => ?_⟩
  · by_cases hm : m = d.pkgname
    · rw [hm, hn, hd, ← hn, Dict.get_modify_self, hn, hd]
      simp
    · rw [Dict.get_modify_ne _ _ hm]
  · by_cases hm : m = d.pkgname
    · subst hm
      rw [Dict.get_modify_self, hn, hd] at hd'
      cases hd'
      exact hn.symm
    · rw [Dict.get_modify_ne _ _ hm] at hd'
      exact h.named m d' hd'

theorem AltInv.empty (fs : Place → Option Node) : AltInv { fs := fs } := by
  refine ⟨fun g names h => ?_, fun g n => ⟨?_, ?_⟩, fun n d h => ?_⟩
  · cases h
  · rintro ⟨names, h, -⟩
    cases h
  · rintro ⟨d, h, -⟩
    cases h
  · cases h

/-! ### The operations -/

variable [DecidableEq Place] {env : AltEnv Place} {repod : AltPkg}

/-- Links that have been created are recorded. -/
theorem createGroup_none {s s₁ : AltState Place} {g : Str} {alts : Dict Str (List Str)}
    (h : s.createGroup env g alts = (s₁, none)) :
    createSymlinks env s.fs (linksOf alts g) = (s₁.fs, none) ∧ s₁.pkgdb = s.pkgdb ∧
      s₁.groups = s.groups ∧ s₁.switched = s.switched ++ [(g, linksOf alts g)] := by
  rw [AltState.createGroup] at h
  rcases hc : createSymlinks env s.fs (linksOf alts g) with ⟨fs, rv⟩
  simp only [hc, Prod.mk.injEq] at h
  obtain ⟨rfl, rfl⟩ := h
  exact ⟨rfl, rfl, rfl, rfl⟩

theorem createGroup_some {s s₁ : AltState Place} {g : Str} {alts : Dict Str (List Str)} {e : Errno}
    (h : s.createGroup env g alts = (s₁, some e)) : s₁.switched = s.switched := by
  rw [AltState.createGroup] at h
  rcases hc : createSymlinks env s.fs (linksOf alts g) with ⟨fs, rv⟩
  simp only [hc, Prod.mk.injEq] at h
  obtain ⟨rfl, rfl⟩ := h
  rfl

theorem switchAltGroup_eq_some_iff {s : AltState Place} {grpn pkgn : Str}
    {r : AltState Place × Option Errno} : s.switchAltGroup env grpn pkgn = some r ↔
      (s.getPkg pkgn).isSome ∧ s.createGroup env grpn (s.altsOf pkgn) = r := by
  rw [AltState.switchAltGroup, AltState.altsOf]
  cases s.getPkg pkgn <;> simp

theorem switchAltGroup_frame {s s₁ : AltState Place} {grpn pkgn : Str} {rv : Option Errno}
    (h : s.switchAltGroup env grpn pkgn = some (s₁, rv)) :
    s₁.pkgdb = s.pkgdb ∧ s₁.groups = s.groups := by
  obtain ⟨-, heq⟩ := switchAltGroup_eq_some_iff.mp h
  cases heq
  exact ⟨rfl, rfl⟩

theorem Regrouped.switchAltGroup {s s' s₁ : AltState Place} {P : Str → Str → Prop}
    {grpn pkgn : Str} {rv : Option Errno} (h : Regrouped s s' P)
    (hr : s'.switchAltGroup env grpn pkgn = some (s₁, rv)) : Regrouped s s₁ P :=
  h.frame (switchAltGroup_frame hr).1 (switchAltGroup_frame hr).2

theorem Regrouped.pruneAltgroup {s s' : AltState Place} {g : Str} (h : s.ArraysOk)
    (hs' : pruneAltgroup env s repod g = some s') :
    Regrouped s s' fun g' m => s.Provides g' m ∧ ¬ (g' = g ∧ m = repod.pkgname) := by
  rw [Flappy.pruneAltgroup] at hs'
  cases hget : s.groups.get g with
  | none => simp [hget] at hs'
  | some names =>
    cases names with
    | nil => simp [hget] at hs'
    | cons curpkg rest =>
      simp only [hget] at hs'
      obtain ⟨-, hnd⟩ := h g _ hget
      have hrem := Regrouped.dropName h hget repod.pkgname
      rw [AltState.dropName] at hrem
      have hnd' := removeStringFromArray_nodup hnd repod.pkgname
      cases hr : removeStringFromArray (curpkg :: rest) repod.pkgname with
      | nil =>
        simp only [hr, if_true] at hs' hrem
        exact Option.some.inj hs' ▸ hrem
      | cons newpkg others =>
        simp only [hr, reduceCtorEq, if_false] at hs' hrem hnd'
        split at hs'
        · exact Option.some.inj hs' ▸ hrem
        split at hs'
        · obtain ⟨r, hsw, rfl⟩ := Option.map_eq_some_iff.mp hs'
          exact hrem.switchAltGroup hsw
        · -- the last package of the array comes to its front
          obtain ⟨r, hsw, rfl⟩ := Option.map_eq_some_iff.mp hs'
          have hfront := moveToFront hnd' (List.getLast_mem (List.cons_ne_nil newpkg others))
          exact (Regrouped.setWithout h hget (List.cons_ne_nil _ _) hfront.1 fun m => by
            rw [hfront.2, ← hr, mem_removeStringFromArray hnd]).switchAltGroup hsw

theorem removeObsoleteLinks_frame {s s' : AltState Place} {g : Str} {array : List Str}
    (h : removeObsoleteLinks env s repod array g = some s') :
    s'.pkgdb = s.pkgdb ∧ s'.groups = s.groups := by
  rw [removeObsoleteLinks] at h
  split at h
  · cases h
    exact ⟨rfl, rfl⟩
  · cases hget : s.groups.get g with
    | none =>
      simp only [hget, Option.some.injEq] at h
      exact h ▸ ⟨rfl, rfl⟩
    | some names =>
      cases names with
      | nil => simp [hget] at h
      | cons first rest =>
        simp only [hget] at h
        split at h
        · obtain ⟨fs, -, rfl⟩ := Option.map_eq_some_iff.mp h
          exact ⟨rfl, rfl⟩
        · cases h
          exact ⟨rfl, rfl⟩

theorem Regrouped.removeObsoleteGroups {s s' : AltState Place} {entries : List (Str × List Str)}
    (h : s.ArraysOk) (hs' : removeObsoleteGroups env repod entries s = some s') :
    Regrouped s s' fun g m => s.Provides g m ∧ ¬ (m = repod.pkgname ∧
      g ∈ entries.map Prod.fst ∧ linksOf repod.alternatives g = []) := by
  induction entries generalizing s with
  | nil =>
    cases hs'
    exact (Regrouped.refl h).congr fun g m => by simp
  | cons e entries ih =>
    obtain ⟨g₀, array⟩ := e
    rw [Flappy.removeObsoleteGroups] at hs'
    obtain ⟨s₁, h₁, hs'⟩ := Option.bind_eq_some_iff.mp hs'
    obtain ⟨hdb, hg⟩ := removeObsoleteLinks_frame h₁
    have hreg₁ := (Regrouped.refl h).frame hdb hg
    by_cases hempty : linksOf repod.alternatives g₀ = []
    · rw [if_pos hempty] at hs'
      obtain ⟨s₂, h₂, hs'⟩ := Option.bind_eq_some_iff.mp hs'
      have hreg₂ := Regrouped.pruneAltgroup hreg₁.arrays h₂
      have hreg := ih hreg₂.arrays hs'
      refine ⟨hreg.pkgdb.trans (hreg₂.pkgdb.trans hreg₁.pkgdb), hreg.arrays, fun g m => ?_⟩
      rw [hreg.provides, hreg₂.provides, hreg₁.provides, List.map_cons, List.mem_cons]
      by_cases hgg : g = g₀
      · subst hgg
        simp only [hempty]
        tauto
      · simp [hgg]
    · rw [if_neg hempty] at hs'
      have hreg := ih hreg₁.arrays hs'
      refine ⟨hreg.pkgdb.trans hreg₁.pkgdb, hreg.arrays, fun g m => ?_⟩
      rw [hreg.provides, hreg₁.provides, List.map_cons, List.mem_cons]
      by_cases hgg : g = g₀
      · subst hgg
        simp [hempty]
      · simp [hgg]

/-- After a registration without error the package is in all of its groups. -/
theorem Regrouped.registerGroups {s s' : AltState Place} {keys : List Str} (h : s.ArraysOk)
    (hs' : registerGroups env repod keys s = (s', none)) :
    Regrouped s s' fun g m => s.Provides g m ∨ (g ∈ keys ∧ m = repod.pkgname) := by
  induction keys generalizing s with
  | nil =>
    cases hs'
    exact (Regrouped.refl h).congr fun g m => by simp
  | cons g₀ keys ih =>
    rw [Flappy.registerGroups] at hs'
    -- what every branch does to the array, and what the rest of the loop adds
    have hrest : ∀ s₁, Regrouped s s₁ (fun g m => s.Provides g m ∨ (g = g₀ ∧ m = repod.pkgname)) →
        Flappy.registerGroups env repod keys s₁ = (s', none) →
        Regrouped s s' fun g m => s.Provides g m ∨ (g ∈ g₀ :: keys ∧ m = repod.pkgname) := by
      intro s₁ hreg₁ hs₁
      have hreg := ih hreg₁.arrays hs₁
      refine ⟨hreg.pkgdb.trans hreg₁.pkgdb, hreg.arrays, fun g m => ?_⟩
      rw [hreg.provides, hreg₁.provides, List.mem_cons]
      tauto
    cases hget : s.groups.get g₀ with
    | none =>
      simp only [hget] at hs'
      have hset : Regrouped s (s.setGroup g₀ [repod.pkgname]) fun g m =>
          s.Provides g m ∨ (g = g₀ ∧ m = repod.pkgname) := by
        refine (Regrouped.setGroup h (List.cons_ne_nil _ _) (List.nodup_singleton _)).congr
          fun g m => ?_
        by_cases hg : g = g₀
        · subst hg
          simp [AltState.Provides, hget]
        · simp [hg]
      rcases hc : createSymlinks env (s.setGroup g₀ [repod.pkgname]).fs
        (linksOf repod.alternatives g₀) with ⟨fs, rv⟩
      simp only [hc] at hs'
      cases rv with
      | some e => cases hs'
      | none => exact hrest { s.setGroup g₀ [repod.pkgname] with fs := fs } (hset.frame rfl rfl) hs'
    | some names =>
      simp only [hget] at hs'
      obtain ⟨-, hnd⟩ := h g₀ names hget
      by_cases hin : repod.pkgname ∈ names
      · have hsame : Regrouped s s fun g m => s.Provides g m ∨ (g = g₀ ∧ m = repod.pkgname) := by
          refine (Regrouped.refl h).congr fun g m => (or_iff_left_of_imp ?_).symm
          rintro ⟨rfl, rfl⟩
          exact (provides_of_get hget _).mpr hin
        rw [if_pos (by simpa [matchStringInArray] using hin)] at hs'
        split at hs'
        · exact hrest s hsame hs'
        · rcases hc : createSymlinks env s.fs (linksOf repod.alternatives g₀) with ⟨fs, rv⟩
          simp only [hc] at hs'
          cases rv with
          | some e => cases hs'
          | none => exact hrest { s with fs := fs } (hsame.frame rfl rfl) hs'
      · rw [if_neg (by simpa [matchStringInArray] using hin)] at hs'
        refine hrest _ ?_ hs'
        have hnd' : (names ++ [repod.pkgname]).Nodup :=
          List.nodup_append.mpr ⟨hnd, List.nodup_singleton _, by
            intro a ha b hb
            rw [List.mem_singleton] at hb
            rintro rfl
            exact hin (hb ▸ ha)⟩
        refine (Regrouped.setGroup h (by simp) hnd').congr fun g m => ?_
        by_cases hg : g = g₀
        · subst hg
          simp [provides_of_get hget]
        · simp [hg]

theorem Regrouped.removeObsoletes {s s' : AltState Place} (h : s.ArraysOk)
    (hnamed : s.Named repod.pkgname) (hs' : removeObsoletes env s repod = some s') :
    Regrouped s s' fun g m => s.Provides g m ∧ ¬ (m = repod.pkgname ∧
      (∃ d, s.pkgdb.get repod.pkgname = some d ∧ g ∈ d.alternatives.keys) ∧
      linksOf repod.alternatives g = []) := by
  rw [Flappy.removeObsoletes, hnamed] at hs'
  cases hd : s.pkgdb.get repod.pkgname with
  | none =>
    simp only [hd, Option.some.injEq] at hs'
    exact hs' ▸ (Regrouped.refl h).congr fun g m => by simp
  | some d =>
    simp only [hd] at hs'
    exact (Regrouped.removeObsoleteGroups h hs').congr fun g m => by simp [Dict.keys]

theorem Regrouped.alternativesRegister {s s' : AltState Place} (h : s.ArraysOk)
    (hnamed : s.Named repod.pkgname) (hs' : alternativesRegister env s repod = some (s', none)) :
    Regrouped s s' fun g m => (s.Provides g m ∧ ¬ (m = repod.pkgname ∧
      (∃ d, s.pkgdb.get repod.pkgname = some d ∧ g ∈ d.alternatives.keys) ∧
      linksOf repod.alternatives g = [])) ∨
        (g ∈ repod.alternatives.keys ∧ m = repod.pkgname) := by
  obtain ⟨s₁, h₁, h₂⟩ := Option.map_eq_some_iff.mp hs'
  have hreg₁ := Regrouped.removeObsoletes (s := { s with alternatives := some s.groups }) h hnamed h₁
  have hreg₂ := Regrouped.registerGroups hreg₁.arrays h₂
  refine ⟨hreg₂.pkgdb.trans hreg₁.pkgdb, hreg₂.arrays, fun g m => ?_⟩
  rw [hreg₂.provides, hreg₁.provides]
  rfl

/-- A registration leaves the groups as the new package has them. -/
theorem AltInv.register {s s' : AltState Place} (h : AltInv s) (hnamed : s.Named repod.pkgname)
    (hs' : Flappy.alternativesRegister env s repod = some (s', none)) :
    AltInv { s' with pkgdb := s'.pkgdb.set repod.pkgname repod } := by
  have hreg := Regrouped.alternativesRegister h.arrays hnamed hs'
  refine ⟨hreg.arrays, fun g n => ?_, fun n d hd => ?_⟩
  · refine (hreg.provides g n).trans ?_
    show _ ↔ ∃ d, (s'.pkgdb.set repod.pkgname repod).get n = some d ∧ _
    rw [hreg.pkgdb, h.provided]
    by_cases hn : n = repod.pkgname
    · subst hn
      simp only [Dict.get_set_self, true_and, and_true, Option.some.injEq, exists_eq_left']
      constructor
      · rintro (⟨hold, hnot⟩ | hnew)
        · by_contra hg
          exact hnot ⟨hold, by rw [linksOf, Dict.get_eq_none_iff.mpr hg]; rfl⟩
        · exact hnew
      · exact Or.inr
    · simp [hn, Dict.get_set_ne]
  · have hd' : (s'.pkgdb.set repod.pkgname repod).get n = some d := hd
    by_cases hn : n = repod.pkgname
    · subst hn
      rw [Dict.get_set_self] at hd'
      cases hd'
      rfl
    · rw [Dict.get_set_ne _ _ hn, hreg.pkgdb] at hd'
      exact h.named n d hd'

/-! ### Removing a package -/

/-- Switching a group succeeds iff the links of its new package can be created. -/
theorem switchAltGroup_rv_iff {s s' : AltState Place} {g q : Str}
    {r : AltState Place × Option Errno} (hdb : s'.pkgdb = s.pkgdb)
    (hr : s'.switchAltGroup env g q = some r) :
    r.2 = none ↔ (linksOf (s.altsOf q) g).all env.creatable = true := by
  obtain ⟨-, rfl⟩ := switchAltGroup_eq_some_iff.mp hr
  rw [List.all_eq_true, ← createSymlinks_eq_none_iff, ← altsOf_congr hdb]
  exact Iff.rfl

variable {n g first q : Str} {rest rest' keys : List Str} {alts : Dict Str (List Str)}
  {s s' : AltState Place}

/-- A group with another current package. -/
theorem unregisterGroups_other (hget : s.groups.get g = some (first :: rest)) (hcur : n ≠ first) :
    unregisterGroups env n false (g :: keys) alts s =
      unregisterGroups env n false keys alts (s.dropName g n (first :: rest)) := by
  rw [unregisterGroups, AltState.dropName]
  simp only [hget, if_neg hcur]
  cases hr : removeStringFromArray (first :: rest) n with
  | nil => rfl
  | cons first' rest' => simp [hcur]

/-- A group of which the package was the only one. -/
theorem unregisterGroups_last (hget : s.groups.get g = some (n :: rest))
    (hr : removeStringFromArray (n :: rest) n = []) :
    unregisterGroups env n false (g :: keys) alts s =
      (removeSymlinks env s.fs (linksOf alts g)).bind fun fs =>
        unregisterGroups env n false keys alts
          (AltState.dropName { s with fs := fs } g n (n :: rest)) := by
  rw [unregisterGroups]
  simp only [hget, if_true, AltState.dropName, hr]
  cases removeSymlinks env s.fs (linksOf alts g) <;> rfl

/-- A group that gets a new current package: the loop goes on with its alternatives. -/
theorem unregisterGroups_switch (hget : s.groups.get g = some (n :: rest))
    (hr : removeStringFromArray (n :: rest) n = q :: rest') :
    unregisterGroups env n false (g :: keys) alts s =
      (removeSymlinks env s.fs (linksOf alts g)).bind fun fs =>
        match (AltState.dropName { s with fs := fs } g n (n :: rest)).switchAltGroup env g q with
        | none => none
        | some (s, some _) => some s
        | some (s, none) => unregisterGroups env n false keys (s.altsOf q) s := by
  rw [unregisterGroups]
  simp only [hget, if_true, AltState.dropName, hr]
  cases removeSymlinks env s.fs (linksOf alts g) with
  | none => rfl
  | some fs => simp

/-- One round of the loop: the name is out of the array of the group, the other groups
are as before, and the loop goes on or ends at a switch that failed. -/
theorem unregisterGroups_cons {names : List Str} (h : s.ArraysOk)
    (hget : s.groups.get g = some names)
    (hs' : unregisterGroups env n false (g :: keys) alts s = some s') :
    ∃ s₁ alts', Regrouped s s₁ (fun g' m => s.Provides g' m ∧ ¬ (g' = g ∧ m = n)) ∧
      (∀ g' ≠ g, s₁.groups.get g' = s.groups.get g') ∧
      ((s.switchable env n g = false ∧ s' = s₁) ∨
        unregisterGroups env n false keys alts' s₁ = some s') := by
  obtain ⟨hne, -⟩ := h g names hget
  obtain ⟨first, rest, rfl⟩ := List.exists_cons_of_ne_nil hne
  have hreg : ∀ fs : Place → Option Node, Regrouped s (AltState.dropName { s with fs := fs } g n (first :: rest))
      fun g' m => s.Provides g' m ∧ ¬ (g' = g ∧ m = n) := by
    intro fs
    have h₁ : Regrouped s { s with fs := fs } s.Provides := (Regrouped.refl h).frame rfl rfl
    exact h₁.trans (Regrouped.dropName (s := { s with fs := fs }) h hget n)
  have hother : ∀ fs : Place → Option Node, ∀ g' ≠ g,
      (AltState.dropName { s with fs := fs } g n (first :: rest)).groups.get g' =
        s.groups.get g' := by
    intro fs
    exact (dropName_frame { s with fs := fs } g n (first :: rest)).2.2.2
  by_cases hcur : n = first
  · subst hcur
    cases hr : removeStringFromArray (n :: rest) n with
    | nil =>
      rw [unregisterGroups_last hget hr] at hs'
      obtain ⟨fs, -, hs'⟩ := Option.bind_eq_some_iff.mp hs'
      exact ⟨_, alts, hreg fs, hother fs, Or.inr hs'⟩
    | cons q rest' =>
      rw [unregisterGroups_switch hget hr] at hs'
      obtain ⟨fs, -, hs'⟩ := Option.bind_eq_some_iff.mp hs'
      rcases hres : (AltState.dropName { s with fs := fs } g n (n :: rest)).switchAltGroup env g q
        with _ | ⟨s₁, rv⟩
      · rw [hres] at hs'
        cases hs'
      have hsw : Regrouped s s₁ _ := (hreg fs).switchAltGroup hres
      have hother₁ : ∀ g' ≠ g, s₁.groups.get g' = s.groups.get g' := by
        intro g' hg'
        rw [(switchAltGroup_frame hres).2]
        exact hother fs g' hg'
      rw [hres] at hs'
      cases rv with
      | none => exact ⟨s₁, s₁.altsOf q, hsw, hother₁, Or.inr hs'⟩
      | some e =>
        refine ⟨s₁, alts, hsw, hother₁, Or.inl ⟨?_, (Option.some.inj hs').symm⟩⟩
        -- a switch fails only at links that cannot be created
        rw [AltState.switchable, AltState.successor, hget]
        simp only [if_true, hr, List.head?_cons, Option.all_some]
        refine eq_false_of_ne_true fun hall => ?_
        have hok := (switchAltGroup_rv_iff (hreg fs).pkgdb hres).mpr hall
        cases hok
  · rw [unregisterGroups_other hget hcur] at hs'
    exact ⟨_, alts, hreg s.fs, hother s.fs, Or.inr hs'⟩

/-- The loop takes the package out of all of its groups, unless a switch fails before
the last one. -/
theorem Regrouped.unregisterGroups {keys : List Str} {s s' : AltState Place}
    {alts : Dict Str (List Str)} (h : s.ArraysOk) (hnd : keys.Nodup)
    (hkeys : ∀ g ∈ keys, s.Provides g n)
    (hswitch : ∀ g ∈ keys.dropLast, s.switchable env n g = true)
    (hs' : unregisterGroups env n false keys alts s = some s') :
    Regrouped s s' fun g m => s.Provides g m ∧ ¬ (g ∈ keys ∧ m = n) := by
  induction keys generalizing s alts with
  | nil =>
    cases hs'
    exact (Regrouped.refl h).congr fun g m => by simp
  | cons g keys ih =>
    obtain ⟨hg, hnd⟩ := List.nodup_cons.mp hnd
    obtain ⟨names, hget, -⟩ := hkeys g (by simp)
    obtain ⟨s₁, alts', hreg₁, hother, hor⟩ := unregisterGroups_cons h hget hs'
    have hne : ∀ g' ∈ keys, g' ≠ g := fun g' hg' he => hg (he ▸ hg')
    rcases hor with ⟨hstop, rfl⟩ | hs'
    · -- the loop has ended, so this was the last group
      cases keys with
      | nil => exact hreg₁.congr fun g' m => by simp
      | cons g₂ keys => simp [hswitch g (by simp)] at hstop
    · have hreg := ih hreg₁.arrays hnd
        (fun g' hg' => (hreg₁.provides g' n).mpr
          ⟨hkeys g' (by simp [hg']), fun hc => hne g' hg' hc.1⟩)
        (fun g' hg' => by
          have hin := List.dropLast_subset _ hg'
          rw [switchable_congr hreg₁.pkgdb (hother g' (hne g' hin))]
          refine hswitch g' ?_
          rw [List.dropLast_cons_of_ne_nil (List.ne_nil_of_mem hin)]
          exact List.mem_cons_of_mem _ hg') hs'
      refine ⟨hreg.pkgdb.trans hreg₁.pkgdb, hreg.arrays, fun g' m => ?_⟩
      rw [hreg.provides, hreg₁.provides, List.mem_cons]
      tauto

/-- A pending update leaves the arrays alone. -/
theorem Regrouped.unregisterGroups_update {keys : List Str} {s s' : AltState Place}
    {alts : Dict Str (List Str)} (h : s.ArraysOk)
    (hs' : Flappy.unregisterGroups env n true keys alts s = some s') :
    Regrouped s s' s.Provides := by
  induction keys generalizing s with
  | nil =>
    cases hs'
    exact Regrouped.refl h
  | cons g keys ih =>
    rw [Flappy.unregisterGroups] at hs'
    cases hget : s.groups.get g with
    | none =>
      simp only [hget] at hs'
      exact ih h hs'
    | some names =>
      cases names with
      | nil => simp [hget] at hs'
      | cons first rest =>
        simp only [hget] at hs'
        cases hrm : (if n = first then removeSymlinks env s.fs (linksOf alts g) else some s.fs) with
        | none => simp [hrm] at hs'
        | some fs =>
          simp only [hrm, if_true, true_or] at hs'
          have h₁ : Regrouped s { s with fs := fs } s.Provides := (Regrouped.refl h).frame rfl rfl
          have h₂ := h₁.trans (Regrouped.setSame (s := { s with fs := fs }) h hget
            (List.cons_ne_nil first rest) (h g _ hget).2 fun m => Iff.rfl)
          have h₃ := ih h₂.arrays hs'
          exact ⟨h₃.pkgdb.trans h₂.pkgdb, h₃.arrays,
            fun g' m => (h₃.provides g' m).trans (h₂.provides g' m)⟩

/-- Choosing an alternative by its name reorders the arrays. -/
theorem Regrouped.setGroups {keys : List Str} {group : Option Str} {s s' : AltState Place}
    {rv : Option Errno} {alts : Dict Str (List Str)} (h : s.ArraysOk)
    (hkeys : ∀ g ∈ keys, s.Provides g n)
    (hs' : setGroups env n group alts keys s = some (s', rv)) :
    Regrouped s s' s.Provides := by
  induction keys generalizing s with
  | nil =>
    cases hs'
    exact Regrouped.refl h
  | cons g keys ih =>
    have hkeys' : ∀ g' ∈ keys, s.Provides g' n := fun g' hg' => hkeys g' (List.mem_cons_of_mem _ hg')
    rw [Flappy.setGroups] at hs'
    split at hs'
    · exact ih h hkeys' hs'
    · obtain ⟨names, hget, hn⟩ := hkeys g (by simp)
      simp only [hget] at hs'
      split at hs'
      · cases hs'
      · next fs hrm =>
        obtain ⟨-, hnd⟩ := h g names hget
        have hfront := moveToFront hnd hn
        have h₁ : Regrouped s { s with fs := fs } s.Provides := (Regrouped.refl h).frame rfl rfl
        have h₂ := h₁.trans (Regrouped.setSame (s := { s with fs := fs }) h hget
          (List.cons_ne_nil _ _) hfront.1 hfront.2)
        split at hs'
        · cases hs'
          exact h₂.frame rfl rfl
        · have h₃ := ih (by exact h₂.arrays)
            (by exact fun g' hg' => (h₂.provides g' n).mpr (hkeys' g' hg')) hs'
          exact ⟨h₃.pkgdb.trans h₂.pkgdb, h₃.arrays,
            fun g' m => (h₃.provides g' m).trans (h₂.provides g' m)⟩

/-! ### The invariant -/

theorem AltInv.set {group : Option Str} {rv : Option Errno} (h : AltInv s)
    (hnamed : (s.getPkg n).isSome → s.Named n)
    (hs' : alternativesSet env s n group = some (s', rv)) : AltInv s' := by
  rw [alternativesSet] at hs'
  split at hs'
  · cases hs'
    exact h
  cases hd : s.getPkg n with
  | none =>
    simp only [hd, Option.some.injEq, Prod.mk.injEq] at hs'
    exact hs'.1 ▸ h
  | some d =>
    simp only [hd] at hs'
    split at hs'
    · cases hs'
      exact h
    split at hs'
    · cases hs'
      exact h
    have hget : s.pkgdb.get n = some d := by
      rw [← hnamed (by rw [hd]; rfl), hd]
    have hreg := Regrouped.setGroups h.arrays
      (fun g hg => (h.provided g n).mpr ⟨d, hget, hg⟩) hs'
    refine ⟨hreg.arrays, fun g m => (hreg.provides g m).trans ?_, ?_⟩
    · rw [hreg.pkgdb]
      exact h.provided g m
    · rw [hreg.pkgdb]
      exact h.named

/-- The tests before the loop only leave out loops over nothing. -/
theorem alternativesUnregister_eq {d : AltPkg} (h : AltInv s) (hd : s.pkgdb.get n = some d) :
    alternativesUnregister env s d =
      unregisterGroups env n d.update d.alternatives.keys d.alternatives s := by
  rw [alternativesUnregister, h.named n d hd]
  split
  · next hnone =>
    have hnil : d.alternatives.keys = [] := by
      rcases hnone with hnone | hnil
      · refine List.eq_nil_iff_forall_not_mem.mpr fun g hg => ?_
        obtain ⟨names, hget, -⟩ := (h.provided g n).mpr ⟨d, hd, hg⟩
        rw [AltState.groups, hnone] at hget
        cases hget
      · exact hnil
    rw [hnil, unregisterGroups]
  · rfl

theorem Regrouped.alternativesUnregister {d : AltPkg} (h : AltInv s)
    (hd : s.pkgdb.get n = some d) (hupdate : d.update = false)
    (hswitch : ∀ g ∈ d.alternatives.keys.dropLast, s.switchable env n g = true)
    (hs' : alternativesUnregister env s d = some s') :
    Regrouped s s' fun g m => s.Provides g m ∧ ¬ (g ∈ d.alternatives.keys ∧ m = n) := by
  rw [alternativesUnregister_eq h hd, hupdate] at hs'
  exact Regrouped.unregisterGroups h.arrays d.alternatives.nodup
    (fun g hg => (h.provided g n).mpr ⟨d, hd, hg⟩) hswitch hs'

theorem AltInv.remove {d : AltPkg} (h : AltInv s) (hd : s.pkgdb.get n = some d)
    (hupdate : d.update = false)
    (hswitch : ∀ g ∈ d.alternatives.keys.dropLast, s.switchable env n g = true)
    (hs' : alternativesUnregister env s d = some s') :
    AltInv { s' with pkgdb := s'.pkgdb.erase n } := by
  have hreg := Regrouped.alternativesUnregister h hd hupdate hswitch hs'
  refine ⟨hreg.arrays, fun g m => (hreg.provides g m).trans ?_, fun m d' hd' => ?_⟩
  · show _ ↔ ∃ d', (s'.pkgdb.erase n).get m = some d' ∧ _
    rw [hreg.pkgdb, h.provided]
    by_cases hm : m = n
    · subst hm
      simp [hd]
    · simp [hm, Dict.get_erase_ne]
  · have hd'' : (s'.pkgdb.erase n).get m = some d' := hd'
    by_cases hm : m = n
    · subst hm
      rw [Dict.get_erase_self] at hd''
      cases hd''
    · rw [Dict.get_erase_ne _ hm, hreg.pkgdb] at hd''
      exact h.named m d' hd''

/-- One event keeps the invariant. -/
theorem AltInv.step {e : AltEvent} (h : AltInv s) (hok : s.Proper env e)
    (hs' : s.step env e = some s') : AltInv s' := by
  cases e with
  | register repod =>
    rw [AltState.step] at hs'
    rcases hr : alternativesRegister env s repod with _ | ⟨s₁, rv⟩
    · simp [hr] at hs'
    · cases rv with
      | some e => simp [hr] at hs'
      | none =>
        simp only [hr, Option.some.injEq] at hs'
        exact hs' ▸ h.register hok hr
  | update pkgname =>
    obtain ⟨d, hd, hs'⟩ := Option.bind_eq_some_iff.mp hs'
    have hget : s.pkgdb.get pkgname = some d := by rw [← hok, hd]
    have hflag := h.flag hget
    simp only [alternativesUnregister] at hs'
    split at hs'
    · cases hs'
      exact hflag
    · have hreg := Regrouped.unregisterGroups_update hflag.arrays hs'
      refine ⟨hreg.arrays, fun g m => (hreg.provides g m).trans ?_, ?_⟩
      · rw [hreg.pkgdb]
        exact hflag.provided g m
      · rw [hreg.pkgdb]
        exact hflag.named
  | remove pkgname =>
    obtain ⟨hnamed, hok⟩ := hok
    obtain ⟨d, hd, hs'⟩ := Option.bind_eq_some_iff.mp hs'
    obtain ⟨s₁, hs₁, rfl⟩ := Option.map_eq_some_iff.mp hs'
    obtain ⟨hupdate, hswitch⟩ := hok d hd
    have hget : s.pkgdb.get pkgname = some d := by rw [← hnamed, hd]
    exact h.remove hget hupdate hswitch hs₁
  | set pkgname group =>
    obtain ⟨⟨s₁, rv⟩, hs₁, rfl⟩ := Option.map_eq_some_iff.mp hs'
    exact h.set hok hs₁

theorem AltInv.run {events : List AltEvent} (h : AltInv s)
    (hok : Along (AltState.step env) (AltState.Proper env) s events)
    (hrun : Run.run (AltState.step env) s events = some s') : AltInv s' :=
  run_invariant (fun _ _ _ h hok hs' => h.step hok hs') h hok hrun

/-- The groups are what the packages provide, after every run from an empty database
whose events are proper. -/
theorem run_altInv {fs : Place → Option Node} {events : List AltEvent} {s : AltState Place}
    (hok : Along (AltState.step env) (AltState.Proper env) { fs := fs } events)
    (hrun : run (AltState.step env) { fs := fs } events = some s) : AltInv s :=
  (AltInv.empty fs).run hok hrun

/-- A root directory in which every link can be created.  All links lie in the
directories of their targets. -/
def viEnv : AltEnv Str where
  rootdir := "/r".toList
  place path := (path.splitOn '/').filter (· ≠ []) |>.flatMap fun name => '/' :: name
  relpath path target :=
    ((path.splitOn '/').filter (· ≠ []) |>.flatMap fun name => '/' :: name,
      ((strrchr '/' target).map Prod.snd).getD target)
  mkpath _ := none
  unlink _ := true
  symlink _ _ := none

def viPkg (pkgname : String) (alternatives : List (String × String)) : AltPkg where
  pkgver := (pkgname ++ "-1_1").toList
  pkgname := pkgname.toList
  alternatives := alternatives.foldl (fun d e => d.set e.1.toList [e.2.toList]) Dict.empty

/-- Both packages provide `vi`, and the second one is chosen and removed. -/
def viRun : List AltEvent :=
  [.register (viPkg "nvi" [("vi", "vi:/usr/bin/nvi")]),
   .register (viPkg "vim" [("vi", "vi:/usr/bin/vim"), ("ex", "ex:/usr/bin/vim")]),
   .set "vim".toList none, .remove "vim".toList]

theorem run_altInv_vi :
    ∃ s, run (AltState.step viEnv) { fs := fun _ => none } viRun = some s ∧ AltInv s := by
  have hrun : (run (AltState.step viEnv) { fs := fun _ => none } viRun).isSome = true := by
    decide +kernel
  obtain ⟨s, hs⟩ := Option.isSome_iff_exists.mp hrun
  exact ⟨s, hs, run_altInv (by decide +kernel) hs⟩

/-- A pattern gets into the array, and a switch that fails leaves the removed package in
the array of its next group. -/
theorem altInv_fails :
    (∃ s, run (AltState.step viEnv) { fs := fun _ => none }
        [.register (viPkg "nvi" [("vi", "vi:/usr/bin/nvi")]), .set "nvi>=0".toList none] = some s ∧
      s.groups.get "vi".toList = some ["nvi>=0".toList, "nvi".toList] ∧ ¬ AltInv s) ∧
    ∃ s, run (AltState.step viEnv) { fs := fun _ => none }
        [.register (viPkg "vim" [("ex", "ex:/usr/bin/vim"), ("vi", "vi:/usr/bin/vim")]),
         .register (viPkg "nvi" [("ex", "nvi")]), .remove "vim".toList] = some s ∧
      s.groups.get "vi".toList = some ["vim".toList] ∧ ¬ AltInv s := by
  have habsent : ∀ {s : AltState Str} {g n : Str} {names : List Str},
      s.groups.get g = some names → n ∈ names → s.pkgdb.get n = none → ¬ AltInv s := by
    intro s g n names hget hn hnone hinv
    obtain ⟨d, hd, -⟩ := (hinv.provided g n).mp ⟨names, hget, hn⟩
    rw [hnone] at hd
    cases hd
  have h₁ : (run (AltState.step viEnv) { fs := fun _ => none }
      [.register (viPkg "nvi" [("vi", "vi:/usr/bin/nvi")]), .set "nvi>=0".toList none]).map (fun s =>
        (s.groups.get "vi".toList, s.pkgdb.get "nvi>=0".toList)) =
          some (some ["nvi>=0".toList, "nvi".toList], none) := by
    decide +kernel
  have h₂ : (run (AltState.step viEnv) { fs := fun _ => none }
      [.register (viPkg "vim" [("ex", "ex:/usr/bin/vim"), ("vi", "vi:/usr/bin/vim")]),
       .register (viPkg "nvi" [("ex", "nvi")]), .remove "vim".toList]).map (fun s =>
        (s.groups.get "vi".toList, s.pkgdb.get "vim".toList)) =
          some (some ["vim".toList], none) := by
    decide +kernel
  constructor
  · obtain ⟨s, hs, he⟩ := Option.map_eq_some_iff.mp h₁
    obtain ⟨hget, hnone⟩ := Prod.mk.inj he
    exact ⟨s, hs, hget, habsent hget (by simp) hnone⟩
  · obtain ⟨s, hs, he⟩ := Option.map_eq_some_iff.mp h₂
    obtain ⟨hget, hnone⟩ := Prod.mk.inj he
    exact ⟨s, hs, hget, habsent hget (by simp) hnone⟩

end Flappy
