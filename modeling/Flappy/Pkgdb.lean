/-
The package database: lookups and reverse dependencies (`lib/pkgdb.c`, the
dictionary half of `lib/plist_find.c`).

`xhp->pkgdb` maps package names to package dictionaries.  The internal object
`_FLAPPY_ALTERNATIVES_` that lives beside them has no `pkgver`, and every loop
below passes over it; it is left out.  `xhp->vpkgd` maps the name of a virtual
package to its providers, from the configuration and from the installed
packages' `provides`.

* `mem_pkgdbGetPkgRevdeps` — the reverse dependencies of a package are the
  installed packages with a dependency filed under its name, in any order of
  the database (`mem_pkgdbGetPkgRevdeps_perm`);
* `generateFullRevdepsTree_isSome` — the tree exists iff every dependency of
  every installed package names a package (the process aborts otherwise).
-/
import Flappy.Plist
import Flappy.Lib.Dict

open CStr

namespace Flappy

/-- The `FLAPPY_FLAG_*` bits that the modelled functions test. -/
structure Flags where
  downloadOnly : Bool := false
  installAuto : Bool := false
  installRepro : Bool := false
  forceRemoveRevdeps : Bool := false
  forceRemoveFiles : Bool := false
  ignoreFileConflicts : Bool := false
  bestmatch : Bool := false
  unpackOnly : Bool := false
  forceConfigure : Bool := false
deriving DecidableEq, Repr

/-- `struct flappy_handle`: configuration and package database. -/
structure Handle where
  flags : Flags := {}
  pkgdb : Dict Str PkgDict := Dict.empty
  /-- `vpkgd`: virtual package name to (virtual package, provider) pairs. -/
  vpkgd : Dict Str (Dict Str Str) := Dict.empty
  /-- `vpkgd_conf`: the pairs of the configuration alone. -/
  vpkgdConf : Dict Str (Dict Str Str) := Dict.empty
  ignoredPkgs : List Str := []
  preservedFiles : List Str := []

/-- Is this a key of the database that loops over packages pass over?  The
internal objects are called `_FLAPPY_...`, but six characters are compared. -/
def isInternal (key : Str) : Bool := key.take 6 = "_FLAPPY_".toList.take 6

/-! ### Lookup in a dictionary -/

/-- `match_pkg_by_pkgver`. -/
def matchPkgByPkgver (repod : Dict Str PkgDict) (p : Str) : Option PkgDict :=
  match pkgName p with
  | none => none
  | some pkgname => (repod.get pkgname).filter fun d => d.pkgver = p

/-- `match_pkg_by_pattern`. -/
def matchPkgByPattern (repod : Dict Str PkgDict) (p : Str) : Option PkgDict :=
  match pkgpatternName p with
  | none => if (pkgName p).isSome then matchPkgByPkgver repod p else none
  | some pkgname => (repod.get pkgname).filter fun d => pkgpatternMatch d.pkgver p

/-- `flappy_find_pkg_in_dict`. -/
def findPkgInDict (d : Dict Str PkgDict) (pkg : Str) : Option PkgDict :=
  match request pkg with
  | .pattern => matchPkgByPattern d pkg
  | .pkgver => matchPkgByPkgver d pkg
  | .pkgname => d.get pkg

/-- The test of `vpkg_user_conf` on one configured virtual package; `how` says
how the request was read. -/
def vpkgConfMatches (how : Request) (vpkg vpkgConf : Str) : Bool :=
  match how with
  | .pattern => (pkgVersion vpkgConf).isNone || pkgpatternMatch vpkgConf vpkg
  -- the source compares the name of `vpkg_conf` with itself; without a version
  -- that buffer is the empty string
  | .pkgver => (pkgVersion vpkgConf).isSome || vpkgConf = []
  | .pkgname => (if (pkgVersion vpkgConf).isSome then pkgName vpkgConf else some vpkgConf) = some vpkg

/-- `vpkg_user_conf`: the provider of the first matching pair. -/
def vpkgUserConf (xhp : Handle) (vpkg : Str) : Option Str :=
  let (how, pkgname) : Request × Str :=
    match pkgpatternName vpkg with
    | some n => (.pattern, n)
    | none =>
      match pkgName vpkg with
      | some n => (.pkgver, n)
      | none => (.pkgname, vpkg)
  match xhp.vpkgd.get pkgname with
  | none => none
  | some providers =>
    (providers.entries.find? fun e => vpkgConfMatches how vpkg e.1).map Prod.snd

/-- `flappy_find_virtualpkg_in_dict`. -/
def findVirtualpkgInDict (xhp : Handle) (d : Dict Str PkgDict) (pkg : Str) : Option PkgDict :=
  ((vpkgUserConf xhp pkg).bind (findPkgInDict d)).or
    (d.values.find? fun pkgd => matchVirtualPkgInDict pkgd pkg)

/-- `flappy_pkgdb_get_pkg`. -/
def pkgdbGetPkg (xhp : Handle) (pkg : Str) : Option PkgDict := findPkgInDict xhp.pkgdb pkg

/-- `flappy_pkgdb_get_virtualpkg`. -/
def pkgdbGetVirtualpkg (xhp : Handle) (vpkg : Str) : Option PkgDict :=
  findVirtualpkgInDict xhp xhp.pkgdb vpkg

/-- `flappy_find_virtualpkg_in_array`. -/
def findVirtualpkgInArray (xhp : Handle) (a : List PkgDict) (s : Str) (tt : TransType) :
    Option PkgDict :=
  ((vpkgUserConf xhp s).bind fun vpkg => getPkgInArray a vpkg tt true).or
    (getPkgInArray a s tt true)

/-- `flappy_pkg_is_ignored`. -/
def pkgIsIgnored (xhp : Handle) (pkg : Str) : Bool :=
  matchStringInArray xhp.ignoredPkgs ((depName pkg).getD pkg)

theorem matchPkgByPkgver_mem {d : Dict Str PkgDict} {p : Str} {pkgd : PkgDict}
    (h : matchPkgByPkgver d p = some pkgd) : pkgd ∈ d.values ∧ pkgd.pkgver = p := by
  rw [matchPkgByPkgver] at h
  cases hn : pkgName p with
  | none => simp [hn] at h
  | some n =>
    simp only [hn, Option.filter_eq_some_iff, decide_eq_true_eq] at h
    exact ⟨Dict.mem_values_of_get h.1, h.2⟩

/-- Whatever a lookup finds is in the dictionary. -/
theorem findPkgInDict_mem {d : Dict Str PkgDict} {pkg : Str} {pkgd : PkgDict}
    (h : findPkgInDict d pkg = some pkgd) : pkgd ∈ d.values := by
  rw [findPkgInDict] at h
  cases hr : request pkg with
  | pattern =>
    simp only [hr, matchPkgByPattern] at h
    cases hn : pkgpatternName pkg with
    | none =>
      simp only [hn] at h
      split at h
      · exact (matchPkgByPkgver_mem h).1
      · exact absurd h (by simp)
    | some n =>
      simp only [hn, Option.filter_eq_some_iff] at h
      exact Dict.mem_values_of_get h.1
  | pkgver =>
    simp only [hr] at h
    exact (matchPkgByPkgver_mem h).1
  | pkgname =>
    simp only [hr] at h
    exact Dict.mem_values_of_get h

/-- What is found for a pattern or a pkgver answers to it. -/
theorem findPkgInDict_matches {d : Dict Str PkgDict} {pkg : Str} {pkgd : PkgDict}
    (hreq : request pkg ≠ .pkgname) (h : findPkgInDict d pkg = some pkgd) :
    matchesRequest pkg false pkgd = true := by
  rw [findPkgInDict] at h
  rw [matchesRequest, if_neg (by simp)]
  cases hr : request pkg with
  | pattern =>
    simp only [hr, matchPkgByPattern] at h
    cases hn : pkgpatternName pkg with
    | none =>
      -- the pattern is taken for a pkgver
      simp only [hn] at h
      split at h
      · rw [(matchPkgByPkgver_mem h).2]
        exact pkgpatternMatch_self pkg
      · cases h
    | some n =>
      simp only [hn, Option.filter_eq_some_iff] at h
      exact h.2
  | pkgver =>
    simp only [hr] at h
    exact decide_eq_true (matchPkgByPkgver_mem h).2.symm
  | pkgname => exact absurd hr hreq

theorem findVirtualpkgInDict_mem {xhp : Handle} {d : Dict Str PkgDict} {pkg : Str}
    {pkgd : PkgDict} (h : findVirtualpkgInDict xhp d pkg = some pkgd) : pkgd ∈ d.values := by
  rw [findVirtualpkgInDict, Option.or_eq_some_iff] at h
  rcases h with h | ⟨-, h⟩
  · obtain ⟨vpkg, -, hv⟩ := Option.bind_eq_some_iff.mp h
    exact findPkgInDict_mem hv
  · exact List.mem_of_find?_eq_some h

theorem findPkgInArray_mem {array : List PkgDict} {str : Str} {tt : TransType} {pkgd : PkgDict}
    (h : findPkgInArray array str tt = some pkgd) : pkgd ∈ array :=
  List.mem_of_find?_eq_some (getPkgInArray_eq_some.mp h).1

theorem findVirtualpkgInArray_mem {xhp : Handle} {array : List PkgDict} {str : Str}
    {tt : TransType} {pkgd : PkgDict} (h : findVirtualpkgInArray xhp array str tt = some pkgd) :
    pkgd ∈ array := by
  rw [findVirtualpkgInArray, Option.or_eq_some_iff] at h
  rcases h with h | ⟨-, h⟩
  · obtain ⟨vpkg, -, hv⟩ := Option.bind_eq_some_iff.mp h
    exact List.mem_of_find?_eq_some (getPkgInArray_eq_some.mp hv).1
  · exact List.mem_of_find?_eq_some (getPkgInArray_eq_some.mp h).1

/-! ### The keys of the database -/

/-- The database is keyed by the names of its packages. -/
def KeysNamed (xhp : Handle) : Prop :=
  ∀ e ∈ xhp.pkgdb.entries, pkgName e.2.pkgver = some e.1

instance (xhp : Handle) : Decidable (KeysNamed xhp) :=
  inferInstanceAs (Decidable (∀ e ∈ xhp.pkgdb.entries, _))

theorem KeysNamed.get {xhp : Handle} (hk : KeysNamed xhp) {p : PkgDict}
    (hp : p ∈ xhp.pkgdb.values) {n : Str} (hn : pkgName p.pkgver = some n) :
    xhp.pkgdb.get n = some p :=
  Dict.get_of_label (fun p : PkgDict => pkgName p.pkgver) hk hp hn

theorem KeysNamed.name {xhp : Handle} (hk : KeysNamed xhp) {n : Str} {p : PkgDict}
    (hp : xhp.pkgdb.get n = some p) : pkgName p.pkgver = some n :=
  Dict.label_of_get (fun p : PkgDict => pkgName p.pkgver) hk hp

/-- A pkgver is installed under one name only. -/
theorem KeysNamed.key_eq {xhp : Handle} (hk : KeysNamed xhp) {n m : Str} {p q : PkgDict}
    (hp : xhp.pkgdb.get n = some p) (hq : xhp.pkgdb.get m = some q) (h : p.pkgver = q.pkgver) :
    n = m :=
  Option.some.inj ((hk.name hp).symm.trans (h ▸ hk.name hq))

/-! ### Reverse dependencies -/

/-- One step of `generate_full_revdeps_tree`: `pkgver` depends on `v`. -/
def addRevdep (tree : Dict Str (List Str)) (v pkgver : Str) : Dict Str (List Str) :=
  let pkg := (tree.get v).getD []
  if matchStringInArray pkg pkgver then tree else tree.set v (pkg ++ [pkgver])

/-- The package a dependency is filed under; the process aborts if the
dependency names none. -/
def revdepKey (xhp : Handle) (pkgdep : Str) : Option Str :=
  (depName pkgdep).map fun n => (vpkgUserConf xhp n).getD n

/-- The inner loop of `generate_full_revdeps_tree`. -/
def addRevdeps (xhp : Handle) (pkgver : Str) :
    List Str → Dict Str (List Str) → Option (Dict Str (List Str))
  | [], tree => some tree
  | pkgdep :: rundeps, tree =>
    (revdepKey xhp pkgdep).bind fun v => addRevdeps xhp pkgver rundeps (addRevdep tree v pkgver)

/-- The outer loop of `generate_full_revdeps_tree`. -/
def addAllRevdeps (xhp : Handle) :
    List PkgDict → Dict Str (List Str) → Option (Dict Str (List Str))
  | [], tree => some tree
  | pkgd :: pkgs, tree =>
    (addRevdeps xhp pkgd.pkgver (pkgd.runDepends.getD []) tree).bind (addAllRevdeps xhp pkgs)

/-- `generate_full_revdeps_tree`; `none` is the call of `abort`. -/
def generateFullRevdepsTree (xhp : Handle) : Option (Dict Str (List Str)) :=
  addAllRevdeps xhp xhp.pkgdb.values Dict.empty

/-- `flappy_pkgdb_get_pkg_revdeps`, given the tree; a `NULL` array is empty. -/
def revdepsIn (tree : Dict Str (List Str)) (xhp : Handle) (pkg : Str) : List Str :=
  match pkgdbGetPkg xhp pkg with
  | none => []
  | some pkgd =>
    match pkgName pkgd.pkgver with
    | none => []
    | some pkgname => (tree.get pkgname).getD []

/-- `flappy_pkgdb_get_pkg_revdeps`; `none` is the call of `abort`. -/
def pkgdbGetPkgRevdeps (xhp : Handle) (pkg : Str) : Option (List Str) :=
  match pkgdbGetPkg xhp pkg with
  | none => some []
  | some _ => (generateFullRevdepsTree xhp).map fun tree => revdepsIn tree xhp pkg

/-- Every dependency of every installed package names a package. -/
def DepsNamed (xhp : Handle) : Prop :=
  ∀ pkgd ∈ xhp.pkgdb.values, ∀ dep ∈ pkgd.runDepends.getD [], (depName dep).isSome

theorem addRevdeps_isSome {xhp : Handle} (pkgver : Str) :
    ∀ {deps : List Str} (tree : Dict Str (List Str)),
      (addRevdeps xhp pkgver deps tree).isSome ↔ ∀ dep ∈ deps, (depName dep).isSome := by
  intro deps
  induction deps with
  | nil => intro tree; simp [addRevdeps]
  | cons dep deps ih =>
    intro tree
    rw [addRevdeps, revdepKey]
    cases h : depName dep with
    | none => simp [h]
    | some n => simp [h, ih]

theorem addAllRevdeps_isSome {xhp : Handle} :
    ∀ {pkgs : List PkgDict} {tree : Dict Str (List Str)},
      (addAllRevdeps xhp pkgs tree).isSome ↔
        ∀ pkgd ∈ pkgs, ∀ dep ∈ pkgd.runDepends.getD [], (depName dep).isSome := by
  intro pkgs
  induction pkgs with
  | nil => intro tree; simp [addAllRevdeps]
  | cons pkgd pkgs ih =>
    intro tree
    rw [addAllRevdeps, List.forall_mem_cons,
      ← addRevdeps_isSome pkgd.pkgver tree]
    cases h : addRevdeps xhp pkgd.pkgver (pkgd.runDepends.getD []) tree with
    | none => simp
    | some tree' => simp [ih]

theorem generateFullRevdepsTree_isSome {xhp : Handle} :
    (generateFullRevdepsTree xhp).isSome ↔ DepsNamed xhp :=
  addAllRevdeps_isSome

/-- `pkgd` has a dependency that is filed under `v`. -/
def DependsOn (xhp : Handle) (pkgd : PkgDict) (v : Str) : Prop :=
  ∃ dep ∈ pkgd.runDepends.getD [], revdepKey xhp dep = some v

theorem mem_addRevdep {tree : Dict Str (List Str)} {v w pkgver r : Str} :
    r ∈ ((addRevdep tree v pkgver).get w).getD [] ↔
      r ∈ (tree.get w).getD [] ∨ (w = v ∧ r = pkgver) := by
  rw [addRevdep]
  by_cases hm : matchStringInArray ((tree.get v).getD []) pkgver = true
  · rw [if_pos hm]
    rw [matchStringInArray, List.contains_iff_mem] at hm
    constructor
    · exact Or.inl
    · rintro (h | ⟨rfl, rfl⟩)
      · exact h
      · exact hm
  · rw [if_neg hm]
    by_cases hw : w = v
    · subst hw
      rw [Dict.get_set_self, Option.getD_some, List.mem_append, List.mem_singleton]
      simp
    · rw [Dict.get_set_ne _ _ hw]
      simp [hw]

theorem mem_addRevdeps {xhp : Handle} {pkgver w r : Str} :
    ∀ {deps : List Str} {tree tree' : Dict Str (List Str)},
      addRevdeps xhp pkgver deps tree = some tree' →
        (r ∈ (tree'.get w).getD [] ↔ r ∈ (tree.get w).getD [] ∨
          (r = pkgver ∧ ∃ dep ∈ deps, revdepKey xhp dep = some w)) := by
  intro deps
  induction deps with
  | nil =>
    intro tree tree' h
    rw [addRevdeps, Option.some.injEq] at h
    simp [h]
  | cons dep deps ih =>
    intro tree tree' h
    rw [addRevdeps] at h
    obtain ⟨v, hv, h'⟩ := Option.bind_eq_some_iff.mp h
    rw [ih h', mem_addRevdep, List.exists_mem_cons_iff, hv, Option.some.injEq]
    constructor
    · rintro ((hr | ⟨rfl, rfl⟩) | ⟨rfl, hd⟩)
      · exact Or.inl hr
      · exact Or.inr ⟨rfl, Or.inl rfl⟩
      · exact Or.inr ⟨rfl, Or.inr hd⟩
    · rintro (hr | ⟨rfl, rfl | hd⟩)
      · exact Or.inl (Or.inl hr)
      · exact Or.inl (Or.inr ⟨rfl, rfl⟩)
      · exact Or.inr ⟨rfl, hd⟩

theorem mem_addAllRevdeps {xhp : Handle} {w r : Str} :
    ∀ {pkgs : List PkgDict} {tree tree' : Dict Str (List Str)},
      addAllRevdeps xhp pkgs tree = some tree' →
        (r ∈ (tree'.get w).getD [] ↔ r ∈ (tree.get w).getD [] ∨
          ∃ pkgd ∈ pkgs, pkgd.pkgver = r ∧ DependsOn xhp pkgd w) := by
  intro pkgs
  induction pkgs with
  | nil =>
    intro tree tree' h
    rw [addAllRevdeps, Option.some.injEq] at h
    simp [h]
  | cons pkgd pkgs ih =>
    intro tree tree' h
    rw [addAllRevdeps] at h
    obtain ⟨t, ht, h'⟩ := Option.bind_eq_some_iff.mp h
    rw [ih h', mem_addRevdeps ht, List.exists_mem_cons_iff, or_assoc]
    refine or_congr_right (or_congr_left (and_congr_left fun _ => eq_comm))

/-- The tree lists, under a name, the pkgvers of the packages that depend on it. -/
theorem mem_generateFullRevdepsTree {xhp : Handle} {tree : Dict Str (List Str)}
    (h : generateFullRevdepsTree xhp = some tree) {w r : Str} :
    r ∈ (tree.get w).getD [] ↔
      ∃ pkgd ∈ xhp.pkgdb.values, pkgd.pkgver = r ∧ DependsOn xhp pkgd w := by
  rw [mem_addAllRevdeps h]
  simp [Dict.get, Dict.empty]

/-- The reverse dependencies of a package: the installed packages that have a
dependency filed under its name. -/
theorem mem_pkgdbGetPkgRevdeps {xhp : Handle} (hd : DepsNamed xhp) {pkg r : Str} :
    r ∈ (pkgdbGetPkgRevdeps xhp pkg).getD [] ↔
      ∃ p n, pkgdbGetPkg xhp pkg = some p ∧ pkgName p.pkgver = some n ∧
        ∃ q ∈ xhp.pkgdb.values, q.pkgver = r ∧ DependsOn xhp q n := by
  obtain ⟨tree, htree⟩ := Option.isSome_iff_exists.mp (generateFullRevdepsTree_isSome.mpr hd)
  rw [pkgdbGetPkgRevdeps]
  cases hg : pkgdbGetPkg xhp pkg with
  | none => simp
  | some p =>
    simp only [htree, Option.map_some, Option.getD_some, revdepsIn, hg]
    cases hn : pkgName p.pkgver with
    | none => simp [hn]
    | some n => simp [hn, mem_generateFullRevdepsTree htree]

theorem pkgdbGetPkgRevdeps_isSome {xhp : Handle} (hd : DepsNamed xhp) (pkg : Str) :
    (pkgdbGetPkgRevdeps xhp pkg).isSome := by
  rw [pkgdbGetPkgRevdeps]
  cases pkgdbGetPkg xhp pkg with
  | none => rfl
  | some p => simpa using generateFullRevdepsTree_isSome.mpr hd

/-! ### What a transaction makes of the database -/

/-- Does a transaction entry of this type end up in the package database? -/
def TransType.registers : TransType → Bool
  | .install | .update | .reinstall | .configure => true
  | .unknown | .remove | .hold | .download => false

/-- An installed package stays as it is: the transaction has at most `HOLD`
entries for its name. -/
def isUntouched (pkgs : List PkgDict) (pkgname : Str) : Bool :=
  pkgs.all fun pkgd => pkgd.pkgname ≠ some pkgname || pkgd.transaction = .hold

/-- The packages after the transaction `pkgs`: those it registers, and the
installed ones it leaves alone. -/
def postTransaction (xhp : Handle) (pkgs : List PkgDict) : List PkgDict :=
  (pkgs.filter fun pkgd => pkgd.transaction.registers) ++
    (xhp.pkgdb.entries.filter fun e => isUntouched pkgs e.1).map Prod.snd

theorem mem_postTransaction {xhp : Handle} {pkgs : List PkgDict} {p : PkgDict} :
    p ∈ postTransaction xhp pkgs ↔ (p ∈ pkgs ∧ p.transaction.registers = true) ∨
      ∃ k, (k, p) ∈ xhp.pkgdb.entries ∧ isUntouched pkgs k = true := by
  rw [postTransaction, List.mem_append, List.mem_filter, List.mem_map]
  refine or_congr_right ?_
  constructor
  · rintro ⟨⟨k, q⟩, he, rfl⟩
    exact ⟨k, List.mem_filter.mp he⟩
  · rintro ⟨k, he⟩
    exact ⟨(k, p), List.mem_filter.mpr he, rfl⟩

/-! ### The order of the database -/

/-- Lookups by key do not see the order of a dictionary. -/
theorem Dict.get_congr {α : Type*} {d d' : Dict Str α} (h : d'.entries.Perm d.entries) (k : Str) :
    d'.get k = d.get k := by
  apply Option.ext
  intro v
  rw [← Dict.mem_entries_iff, ← Dict.mem_entries_iff, h.mem_iff]

theorem findPkgInDict_congr {d d' : Dict Str PkgDict} (h : d'.entries.Perm d.entries) (pkg : Str) :
    findPkgInDict d' pkg = findPkgInDict d pkg := by
  simp only [findPkgInDict, matchPkgByPattern, matchPkgByPkgver, Dict.get_congr h]

/-- The reverse dependencies of a package do not depend on the order of the
package database. -/
theorem mem_pkgdbGetPkgRevdeps_perm {xhp : Handle} {db : Dict Str PkgDict}
    (hd : DepsNamed xhp) (h : db.entries.Perm xhp.pkgdb.entries) {pkg r : Str} :
    r ∈ (pkgdbGetPkgRevdeps { xhp with pkgdb := db } pkg).getD [] ↔
      r ∈ (pkgdbGetPkgRevdeps xhp pkg).getD [] := by
  have hv : ∀ q, q ∈ db.values ↔ q ∈ xhp.pkgdb.values := fun q => (h.map Prod.snd).mem_iff
  have hd' : DepsNamed { xhp with pkgdb := db } := fun q hq => hd q ((hv q).mp hq)
  rw [mem_pkgdbGetPkgRevdeps hd', mem_pkgdbGetPkgRevdeps hd]
  have hg : pkgdbGetPkg { xhp with pkgdb := db } pkg = pkgdbGetPkg xhp pkg :=
    findPkgInDict_congr h pkg
  have hdep : ∀ q n, DependsOn { xhp with pkgdb := db } q n ↔ DependsOn xhp q n := fun _ _ =>
    Iff.rfl
  simp only [hg, hv, hdep]

end Flappy
