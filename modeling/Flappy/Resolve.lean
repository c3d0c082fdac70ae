/-
Resolution of dependencies among the installed packages, and its inverse
(`lib/pkgdb.c`).

A dependency resolves to an installed package in two steps: a package of its
name, else a provider of it.  The reverse dependencies go the other way, by a
tree that is built from a different lookup: the name is first looked for among
the virtual packages, and the version a dependency asks for is not looked at.

* `pkgdbResolve` — the resolution;
* `NameSettled` — the names for which the two lookups find the same package;
* `pkgdbGetPkgRevdeps_resolve` — for such names the reverse dependencies are the
  inverse of the resolution.
-/
import Flappy.Pkgdb

open CStr

namespace Flappy

/-- `flappy_pkgdb_get_pkg`, and only when that finds nothing
`flappy_pkgdb_get_virtualpkg`. -/
def pkgdbResolve (xhp : Handle) (dep : Str) : Option PkgDict :=
  (pkgdbGetPkg xhp dep).or (pkgdbGetVirtualpkg xhp dep)

/-- The name is a plain one, and the virtual packages do not contradict the database: a name
with a provider is not that of an installed package, and its provider is installed; a name
without one is not provided by an installed package. -/
def NameSettled (xhp : Handle) (n : Str) : Prop :=
  request n = .pkgname ∧
    (∀ v ∈ vpkgUserConf xhp n,
      xhp.pkgdb.get n = none ∧ request v = .pkgname ∧ (xhp.pkgdb.get v).isSome) ∧
    (vpkgUserConf xhp n = none → xhp.pkgdb.get n = none →
      ∀ d ∈ xhp.pkgdb.values, matchVirtualPkgInDict d n = false)

/-- The names of all dependencies of installed packages are settled. -/
def DepsSettled (xhp : Handle) : Prop :=
  ∀ q ∈ xhp.pkgdb.values, ∀ dep ∈ q.runDepends.getD [], ∀ n, depName dep = some n →
    NameSettled xhp n

instance (xhp : Handle) (n : Str) : Decidable (NameSettled xhp n) :=
  inferInstanceAs (Decidable (_ ∧ (∀ v ∈ vpkgUserConf xhp n, _) ∧ _))

instance (xhp : Handle) : Decidable (DepsSettled xhp) :=
  inferInstanceAs (Decidable (∀ q ∈ xhp.pkgdb.values, ∀ dep ∈ q.runDepends.getD [],
    ∀ n ∈ depName dep, NameSettled xhp n))

theorem pkgdbGetPkg_pkgname (xhp : Handle) {n : Str} (h : request n = .pkgname) :
    pkgdbGetPkg xhp n = xhp.pkgdb.get n := by
  rw [pkgdbGetPkg, findPkgInDict, h]

/-- A settled name resolves to the package that its dependents are filed under. -/
theorem NameSettled.resolve {xhp : Handle} {n : Str} (h : NameSettled xhp n) :
    pkgdbResolve xhp n = xhp.pkgdb.get ((vpkgUserConf xhp n).getD n) := by
  obtain ⟨hreq, hsome, hnone⟩ := h
  rw [pkgdbResolve, pkgdbGetPkg_pkgname xhp hreq, pkgdbGetVirtualpkg, findVirtualpkgInDict]
  cases hv : vpkgUserConf xhp n with
  | some v =>
    obtain ⟨hn, hvreq, hinst⟩ := hsome v hv
    obtain ⟨d, hd⟩ := Option.isSome_iff_exists.mp hinst
    have hfind : findPkgInDict xhp.pkgdb v = some d := (pkgdbGetPkg_pkgname xhp hvreq).trans hd
    rw [hn, Option.none_or, Option.bind_some, hfind, Option.some_or, Option.getD_some, hd]
  | none =>
    rw [Option.bind_none, Option.none_or, Option.getD_none]
    cases hn : xhp.pkgdb.get n with
    | some d => rfl
    | none =>
      -- nobody provides it
      rw [Option.none_or, List.find?_eq_none]
      intro d hd
      simp [hnone hv hn d hd]

/-! ### The lists of the tree -/

/-- No list of the tree has duplicates. -/
def TreeNodup (tree : Dict Str (List Str)) : Prop := ∀ w, ((tree.get w).getD []).Nodup

theorem TreeNodup.addRevdep {tree : Dict Str (List Str)} (h : TreeNodup tree) (v pkgver : Str) :
    TreeNodup (addRevdep tree v pkgver) := by
  rw [Flappy.addRevdep]
  split
  · exact h
  · next hm =>
    intro w
    by_cases hw : w = v
    · subst hw
      rw [matchStringInArray, List.contains_iff_mem] at hm
      rw [Dict.get_set_self, Option.getD_some, List.nodup_append]
      refine ⟨h w, List.nodup_singleton pkgver, fun a ha b hb => ?_⟩
      rw [List.mem_singleton.mp hb]
      rintro rfl
      exact hm ha
    · rw [Dict.get_set_ne _ _ hw]
      exact h w

theorem TreeNodup.addRevdeps {xhp : Handle} {pkgver : Str} :
    ∀ {deps : List Str} {tree tree' : Dict Str (List Str)}, TreeNodup tree →
      addRevdeps xhp pkgver deps tree = some tree' → TreeNodup tree' := by
  intro deps
  induction deps with
  | nil =>
    intro tree tree' h heq
    rw [Flappy.addRevdeps, Option.some.injEq] at heq
    exact heq ▸ h
  | cons dep deps ih =>
    intro tree tree' h heq
    rw [Flappy.addRevdeps] at heq
    obtain ⟨v, -, heq⟩ := Option.bind_eq_some_iff.mp heq
    exact ih (h.addRevdep v pkgver) heq

theorem TreeNodup.addAllRevdeps {xhp : Handle} :
    ∀ {pkgs : List PkgDict} {tree tree' : Dict Str (List Str)}, TreeNodup tree →
      addAllRevdeps xhp pkgs tree = some tree' → TreeNodup tree' := by
  intro pkgs
  induction pkgs with
  | nil =>
    intro tree tree' h heq
    rw [Flappy.addAllRevdeps, Option.some.injEq] at heq
    exact heq ▸ h
  | cons pkgd pkgs ih =>
    intro tree tree' h heq
    rw [Flappy.addAllRevdeps] at heq
    obtain ⟨t, ht, heq⟩ := Option.bind_eq_some_iff.mp heq
    exact ih (h.addRevdeps ht) heq

theorem nodup_pkgdbGetPkgRevdeps {xhp : Handle} {pkg : Str} {revs : List Str}
    (h : pkgdbGetPkgRevdeps xhp pkg = some revs) : revs.Nodup := by
  rw [pkgdbGetPkgRevdeps] at h
  cases hg : pkgdbGetPkg xhp pkg with
  | none =>
    simp only [hg, Option.some.injEq] at h
    rw [← h]
    exact List.nodup_nil
  | some p =>
    simp only [hg] at h
    obtain ⟨tree, htree, rfl⟩ := Option.map_eq_some_iff.mp h
    have hempty : TreeNodup Dict.empty := fun w => by simp [Dict.get, Dict.empty]
    have hnodup : TreeNodup tree := hempty.addAllRevdeps htree
    simp only [revdepsIn, hg]
    cases pkgName p.pkgver with
    | none => exact List.nodup_nil
    | some n => exact hnodup n

/-! ### The inverse -/

/-- A package has a dependency that is filed under the name of `p` iff it has one whose name
resolves to `p`. -/
theorem dependsOn_iff_resolve {xhp : Handle} (hkeys : KeysNamed xhp) (hset : DepsSettled xhp)
    {p q : PkgDict} (hp : p ∈ xhp.pkgdb.values) (hq : q ∈ xhp.pkgdb.values) {n : Str}
    (hn : pkgName p.pkgver = some n) :
    DependsOn xhp q n ↔ ∃ dep ∈ q.runDepends.getD [], ∃ m, depName dep = some m ∧
      pkgdbResolve xhp m = some p := by
  constructor
  · rintro ⟨dep, hdep, hkey⟩
    obtain ⟨m, hm, hfiled⟩ := Option.map_eq_some_iff.mp hkey
    refine ⟨dep, hdep, m, hm, ?_⟩
    rw [(hset q hq dep hdep m hm).resolve, hfiled]
    exact hkeys.get hp hn
  · rintro ⟨dep, hdep, m, hm, hres⟩
    refine ⟨dep, hdep, ?_⟩
    rw [(hset q hq dep hdep m hm).resolve] at hres
    -- the entry is under its own name
    have hkey := hkeys.name hres
    rw [revdepKey, hm, Option.map_some]
    exact hkey.symm.trans hn

/-- Two packages of the database with one pkgver are the same. -/
theorem KeysNamed.eq_of_pkgver {xhp : Handle} (hkeys : KeysNamed xhp) {p q : PkgDict}
    (hp : p ∈ xhp.pkgdb.values) (hq : q ∈ xhp.pkgdb.values) (h : p.pkgver = q.pkgver) : p = q := by
  obtain ⟨k, hk⟩ := Dict.mem_values_iff.mp hp
  have hq' := hkeys.get hq (h ▸ hkeys.name hk)
  exact Option.some.inj (hk.symm.trans hq')

/-- The reverse dependencies of an installed package are, without duplicates, the installed
packages with a dependency whose name resolves to it; the order of the database changes only
their order.  For a package whose dependencies resolve like their names, that is the inverse
of the resolution itself. -/
theorem pkgdbGetPkgRevdeps_resolve (xhp : Handle) (hkeys : KeysNamed xhp) (hdeps : DepsNamed xhp)
    (hset : DepsSettled xhp) (pkg : Str) (p : PkgDict) (hp : pkgdbGetPkg xhp pkg = some p) :
    ∃ revs, pkgdbGetPkgRevdeps xhp pkg = some revs ∧ revs.Nodup ∧
      (∀ r, r ∈ revs ↔ ∃ q ∈ xhp.pkgdb.values, q.pkgver = r ∧
        ∃ dep ∈ q.runDepends.getD [], ∃ n, depName dep = some n ∧ pkgdbResolve xhp n = some p) ∧
      (∀ q ∈ xhp.pkgdb.values,
        (∀ dep ∈ q.runDepends.getD [], ∀ n, depName dep = some n →
          pkgdbResolve xhp dep = pkgdbResolve xhp n) →
        (q.pkgver ∈ revs ↔ ∃ dep ∈ q.runDepends.getD [], pkgdbResolve xhp dep = some p)) ∧
      ∀ db : Dict Str PkgDict, db.entries.Perm xhp.pkgdb.entries →
        ∃ revs', pkgdbGetPkgRevdeps { xhp with pkgdb := db } pkg = some revs' ∧
          revs'.Perm revs := by
  obtain ⟨revs, hrevs⟩ := Option.isSome_iff_exists.mp (pkgdbGetPkgRevdeps_isSome hdeps pkg)
  have hpmem : p ∈ xhp.pkgdb.values := findPkgInDict_mem hp
  obtain ⟨n, hn⟩ := Dict.mem_values_iff.mp hpmem
  have hname : pkgName p.pkgver = some n := hkeys.name hn
  have hmem : ∀ r, r ∈ revs ↔ ∃ q ∈ xhp.pkgdb.values, q.pkgver = r ∧
      ∃ dep ∈ q.runDepends.getD [], ∃ m, depName dep = some m ∧ pkgdbResolve xhp m = some p := by
    intro r
    have h := @mem_pkgdbGetPkgRevdeps xhp hdeps pkg r
    rw [hrevs, Option.getD_some] at h
    rw [h]
    constructor
    · rintro ⟨p', n', hp', hn', q, hq, hr, hdep⟩
      obtain rfl := Option.some.inj (hp.symm.trans hp')
      exact ⟨q, hq, hr, (dependsOn_iff_resolve hkeys hset hpmem hq hn').mp hdep⟩
    · rintro ⟨q, hq, hr, hdep⟩
      exact ⟨p, n, hp, hname, q, hq, hr, (dependsOn_iff_resolve hkeys hset hpmem hq hname).mpr hdep⟩
  refine ⟨revs, hrevs, nodup_pkgdbGetPkgRevdeps hrevs, hmem, fun q hq hsame => ?_,
    fun db hperm => ?_⟩
  · rw [hmem]
    constructor
    · rintro ⟨q', hq', hver, dep, hdep, m, hm, hres⟩
      obtain rfl := hkeys.eq_of_pkgver hq' hq hver
      exact ⟨dep, hdep, (hsame dep hdep m hm).trans hres⟩
    · rintro ⟨dep, hdep, hres⟩
      obtain ⟨m, hm⟩ := Option.isSome_iff_exists.mp (hdeps q hq dep hdep)
      exact ⟨q, hq, rfl, dep, hdep, m, hm, (hsame dep hdep m hm).symm.trans hres⟩
  · -- another order of the database has the same values
    have hv : ∀ q, q ∈ db.values ↔ q ∈ xhp.pkgdb.values := fun q => (hperm.map Prod.snd).mem_iff
    have hdeps' : DepsNamed { xhp with pkgdb := db } := fun q hq => hdeps q ((hv q).mp hq)
    obtain ⟨revs', hrevs'⟩ := Option.isSome_iff_exists.mp (pkgdbGetPkgRevdeps_isSome hdeps' pkg)
    refine ⟨revs', hrevs', ?_⟩
    refine (List.perm_ext_iff_of_nodup (nodup_pkgdbGetPkgRevdeps hrevs')
      (nodup_pkgdbGetPkgRevdeps hrevs)).mpr fun r => ?_
    have h := @mem_pkgdbGetPkgRevdeps_perm xhp db hdeps hperm pkg r
    rwa [hrevs, hrevs', Option.getD_some, Option.getD_some] at h

/-- A database of packages with these names, pkgvers, dependencies and provided packages, and
these providers of virtual packages. -/
def resolveDemo (db : List (String × String × List String × List String))
    (hdb : ((db.map fun e => (e.1.toList, ({ pkgver := e.2.1.toList
                                             runDepends := some (e.2.2.1.map String.toList)
                                             provides := some (e.2.2.2.map String.toList) } :
      PkgDict))).map Prod.fst).Nodup) (vpkgd : Dict Str (Dict Str Str)) : Handle :=
  { pkgdb := ⟨_, hdb⟩, vpkgd }

/-- The name `sh` and who provides it. -/
def resolveShell (provider : String) : Dict Str (Dict Str Str) :=
  ⟨[("sh".toList, ⟨[("sh-1_1".toList, provider.toList)], List.nodup_singleton _⟩)], List.nodup_singleton _⟩

/-- An application that needs a library and a shell. -/
def resolveApp : Handle :=
  resolveDemo [("app", "app-1_1", ["lib>=1", "sh>=0"], []), ("dash", "dash-2_1", [], ["sh-1_1"]),
    ("lib", "lib-3_1", [], [])] (by decide) (resolveShell "dash")

theorem pkgdbGetPkgRevdeps_resolve_resolveApp :
    ∃ revs, pkgdbGetPkgRevdeps resolveApp "dash".toList = some revs ∧ revs.Nodup ∧
      revs = ["app-1_1".toList] := by
  have hdeps : DepsNamed resolveApp := by
    unfold DepsNamed
    decide
  obtain ⟨revs, hrevs, hnodup, -⟩ := pkgdbGetPkgRevdeps_resolve resolveApp (by decide) hdeps
    (by decide) "dash".toList _ rfl
  refine ⟨revs, hrevs, hnodup, ?_⟩
  have hrun : pkgdbGetPkgRevdeps resolveApp "dash".toList = some ["app-1_1".toList] := by decide
  exact Option.some.inj (hrevs.symm.trans hrun)

/-- The library is too old, so the dependency resolves to nothing. -/
def resolveOld : Handle :=
  resolveDemo [("app", "app-1_1", ["lib>=5"], []), ("lib", "lib-3_1", [], [])] (by decide)
    Dict.empty

/-- The shell is installed, and provided by another package. -/
def resolveBoth : Handle :=
  resolveDemo [("app", "app-1_1", ["sh>=0"], []), ("dash", "dash-2_1", [], ["sh-1_1"]),
    ("sh", "sh-3_1", [], [])] (by decide) (resolveShell "dash")

/-- The configured provider of the shell is not installed, another one is. -/
def resolveAbsent : Handle :=
  resolveDemo [("app", "app-1_1", ["sh>=0"], []), ("dash", "dash-2_1", [], ["sh-1_1"])] (by decide)
    (resolveShell "bash")

/-- Two applications with one library, in one order and in the other. -/
def resolveTwo (a b : String) (h : ([a.toList, b.toList, "lib".toList] : List Str).Nodup) :
    Handle :=
  resolveDemo [(a, a ++ "-1_1", ["lib>=0"], []), (b, b ++ "-1_1", ["lib>=0"], []),
    ("lib", "lib-3_1", [], [])] h Dict.empty

/-- The reverse dependencies list a package whose dependency resolves to nothing; they miss the
one whose dependency resolves to a package that is also provided, or that has another provider
than the configured one; and their order is that of the database. -/
theorem pkgdbGetPkgRevdeps_drift :
    (pkgdbResolve resolveOld "lib>=5".toList = none ∧
      pkgdbGetPkgRevdeps resolveOld "lib".toList = some ["app-1_1".toList]) ∧
    ((pkgdbResolve resolveBoth "sh>=0".toList).map PkgDict.pkgver = some "sh-3_1".toList ∧
      pkgdbGetPkgRevdeps resolveBoth "sh".toList = some []) ∧
    ((pkgdbResolve resolveAbsent "sh>=0".toList).map PkgDict.pkgver = some "dash-2_1".toList ∧
      pkgdbGetPkgRevdeps resolveAbsent "dash".toList = some []) ∧
    pkgdbGetPkgRevdeps (resolveTwo "a" "b" (by decide)) "lib".toList =
      some ["a-1_1".toList, "b-1_1".toList] ∧
    pkgdbGetPkgRevdeps (resolveTwo "b" "a" (by decide)) "lib".toList =
      some ["b-1_1".toList, "a-1_1".toList] := by
  decide

end Flappy
