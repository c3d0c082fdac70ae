/-
Orphaned packages, recursive mode (`flappy_find_pkg_orphans (xhp, orphans_user)`
of `lib/package_orphans.c`).

The array starts with the packages the user names.  While it is walked, every
dependency in the full tree of the package at hand is appended if it was
installed automatically and everything that depends on it is in the array.

A dependency that is rejected is not put aside.  It comes back when the last of
its dependents is walked, because it is in the tree of that one too: this is the
condition under which `Flappy.Lib.Worklist` misses nothing.

* `findPkgOrphansUser_isLeast` — the result is the least set with that rule.
-/
import Flappy.Orphans
import Flappy.Fulldeptree
import Flappy.Lib.Worklist

open CStr

namespace Flappy

/-- One dependency of the package at hand. -/
def rdepStep (xhp : Handle) (array : List PkgDict) (deppkgver : Str) : Option (List PkgDict) :=
  if (findPkgInArray array deppkgver .unknown).isSome then some array
  else
    match pkgdbGetPkg xhp deppkgver with
    -- no dictionary, so not automatic
    | none => some array
    | some deppkgd =>
      if deppkgd.automaticInstall ≠ some true then some array
      else
        (pkgdbGetPkgRevdeps xhp deppkgver).map fun reqby =>
          let cnt := reqby.countP fun r => (findPkgInArray array r .unknown).isSome
          if cnt = reqby.length then array ++ [deppkgd] else array

/-- The package at hand: its dependencies in the order of the tree. -/
def rdepsBody (xhp : Handle) (array : List PkgDict) (pkgd : PkgDict) : Option (List PkgDict) :=
  (pkgdbGetPkgFulldeptree xhp pkgd.pkgver).bind fun rdeps => rdeps.foldlM (rdepStep xhp) array

/-- `flappy_find_pkg_orphans (xhp, orphans_user)`. -/
def findPkgOrphansUser (xhp : Handle) (orphansUser : List Str) : Option (List PkgDict) :=
  Worklist.walk (rdepsBody xhp) (orphansUser.length + xhp.pkgdb.values.length + 1) 0
    (orphansUser.filterMap (pkgdbGetPkg xhp))

/-- A set with the packages `U` and with every automatic transitive dependency of a member all
of whose reverse dependencies are members. -/
structure RecursiveClosed (xhp : Handle) (U : List PkgDict) (T : Set PkgDict) : Prop where
  base : ∀ p ∈ U, p ∈ T
  step : ∀ p ∈ T, ∀ d, Relation.TransGen (Depends xhp) p d → d.automaticInstall = some true →
    (∀ q ∈ xhp.pkgdb.values, q.pkgver ∈ (pkgdbGetPkgRevdeps xhp d.pkgver).getD [] → q ∈ T) → d ∈ T

/-- The reverse dependencies are the inverse of the resolution; and a package answers to its own
pkgver and to no other. -/
structure RecursiveInput (xhp : Handle) : Prop extends DeptreeInput xhp where
  inverse : ∀ p ∈ xhp.pkgdb.values, ∀ q ∈ xhp.pkgdb.values,
    q.pkgver ∈ (pkgdbGetPkgRevdeps xhp p.pkgver).getD [] ↔
      ∃ dep ∈ q.runDepends.getD [], pkgdbResolve xhp dep = some p
  separated : Separated xhp.pkgdb.values
  found : ∀ p ∈ xhp.pkgdb.values, pkgdbGetPkg xhp p.pkgver = some p

variable {xhp : Handle}

/-- The rule of the walk. -/
def recursiveRule (xhp : Handle) : Worklist.Rule PkgDict where
  cand := fun p => ((pkgdbGetPkgFulldeptree xhp p.pkgver).getD []).filterMap (pkgdbGetPkg xhp)
  need := fun d => ((pkgdbGetPkgRevdeps xhp d.pkgver).getD []).filterMap (pkgdbGetPkg xhp)
  ok := fun d => d.automaticInstall = some true

theorem TransGen.mem_values {p d : PkgDict} (h : Relation.TransGen (Depends xhp) p d) :
    p ∈ xhp.pkgdb.values ∧ d ∈ xhp.pkgdb.values := by
  induction h with
  | single h =>
    obtain ⟨hp, dep, -, hres⟩ := h
    exact ⟨hp, pkgdbResolve_mem hres⟩
  | tail _ h ih =>
    obtain ⟨-, dep, -, hres⟩ := h
    exact ⟨ih.1, pkgdbResolve_mem hres⟩

/-- The candidates of a package are transitive dependencies, in the order of the tree. -/
theorem RecursiveInput.cand (hin : RecursiveInput xhp) {p : PkgDict}
    (hp : p ∈ xhp.pkgdb.values) :
    pkgdbGetPkgFulldeptree xhp p.pkgver = some (((recursiveRule xhp).cand p).map PkgDict.pkgver) ∧
      (∀ d ∈ (recursiveRule xhp).cand p, Relation.TransGen (Depends xhp) p d) ∧
      ∀ d, Relation.TransGen (Depends xhp) p d → d ≠ p → d ∈ (recursiveRule xhp).cand p := by
  have hres : pkgdbResolve xhp p.pkgver = some p := by
    rw [pkgdbResolve, hin.found p hp, Option.some_or]
  obtain ⟨l, hl, -, hsound, hall⟩ := hin.toDeptreeInput.fulldeptree hres
  have hcand : (recursiveRule xhp).cand p = l.filterMap (pkgdbGetPkg xhp) := by
    simp only [recursiveRule, hl, Option.getD_some]
  have hmem : ∀ {d}, d ∈ xhp.pkgdb.values →
      (d ∈ l.filterMap (pkgdbGetPkg xhp) ↔ d.pkgver ∈ l) := by
    intro d hd
    rw [List.mem_filterMap]
    constructor
    · rintro ⟨v, hv, hget⟩
      obtain ⟨d', hd', rfl, -⟩ := hsound v hv
      obtain rfl := Option.some.inj ((hin.found d' hd').symm.trans hget)
      exact hv
    · intro hv
      exact ⟨d.pkgver, hv, hin.found d hd⟩
  rw [hcand]
  refine ⟨?_, fun d hd => ?_, fun d hd hne => ?_⟩
  · rw [hl, Option.some.injEq]
    clear hl hall hcand hmem
    induction l with
    | nil => rfl
    | cons v l ih =>
      rw [List.forall_mem_cons] at hsound
      obtain ⟨⟨d, hd, rfl, -⟩, hsound⟩ := hsound
      rw [List.filterMap_cons_some (hin.found d hd), List.map_cons, ← ih hsound]
  · obtain ⟨v, hv, hget⟩ := List.mem_filterMap.mp hd
    obtain ⟨d', hd', rfl, hpath⟩ := hsound v hv
    obtain rfl := Option.some.inj ((hin.found d' hd').symm.trans hget)
    exact hpath
  · exact (hmem (TransGen.mem_values hd).2).mpr (hall d hd hne)

/-- What a package needs are the packages that depend on it. -/
theorem RecursiveInput.mem_need (hin : RecursiveInput xhp) {d r : PkgDict}
    (hd : d ∈ xhp.pkgdb.values) : r ∈ (recursiveRule xhp).need d ↔ Depends xhp r d := by
  rw [recursiveRule, List.mem_filterMap]
  constructor
  · rintro ⟨v, hv, hget⟩
    have hr : r ∈ xhp.pkgdb.values := findPkgInDict_mem hget
    obtain ⟨q, hq, rfl⟩ := (orphanInput hin.separated hin.deps).inside d hd v hv
    obtain rfl := Option.some.inj ((hin.found q hq).symm.trans hget)
    exact ⟨hr, (hin.inverse d hd q hr).mp hv⟩
  · rintro ⟨hr, hdep⟩
    exact ⟨r.pkgver, (hin.inverse d hd r hr).mpr hdep, hin.found r hr⟩

/-- One dependency is tested like a package of the scan in automatic mode. -/
theorem RecursiveInput.rdepStep (hin : RecursiveInput xhp) {array : List PkgDict} {d : PkgDict}
    (hd : d ∈ xhp.pkgdb.values) :
    Flappy.rdepStep xhp array d.pkgver =
      (orphanTest (pkgdbGetPkgRevdeps xhp) array d).map fun b =>
        if b then array ++ [d] else array := by
  rw [Flappy.rdepStep, orphanTest, hin.found d hd]
  by_cases hqueued : (findPkgInArray array d.pkgver .unknown).isSome
  · rw [if_pos hqueued]
    split <;> simp
  · rw [if_neg hqueued]
    by_cases hauto : d.automaticInstall ≠ some true
    · simp [hauto]
    · simp only [hauto, hqueued, if_false]
      cases pkgdbGetPkgRevdeps xhp d.pkgver with
      | none => rfl
      | some reqby =>
        by_cases hnil : reqby.length = 0
        · rw [List.length_eq_zero_iff] at hnil
          simp [hnil]
        · simp [hnil]

/-- The package at hand: one pass over its candidates. -/
theorem RecursiveInput.rdepsBody (hin : RecursiveInput xhp) {array : List PkgDict} {p : PkgDict}
    (hp : p ∈ xhp.pkgdb.values) :
    Flappy.rdepsBody xhp array p =
      (Saturate.pass (orphanTest (pkgdbGetPkgRevdeps xhp)) ((recursiveRule xhp).cand p) array).map
        Prod.fst := by
  obtain ⟨htree, hsound, -⟩ := hin.cand hp
  rw [Flappy.rdepsBody, htree, Option.bind_some]
  have hmem : ∀ d ∈ (recursiveRule xhp).cand p, d ∈ xhp.pkgdb.values := fun d hd =>
    (TransGen.mem_values (hsound d hd)).2
  generalize (recursiveRule xhp).cand p = ds at hmem
  induction ds generalizing array with
  | nil => rfl
  | cons d ds ih =>
    rw [List.forall_mem_cons] at hmem
    rw [List.map_cons, List.foldlM_cons, hin.rdepStep hmem.1, Saturate.pass]
    cases orphanTest (pkgdbGetPkgRevdeps xhp) array d with
    | none => rfl
    | some b =>
      cases b with
      | false => exact ih hmem.2
      | true =>
        rw [Option.map_map]
        exact ih hmem.2

theorem RecursiveInput.follows (hin : RecursiveInput xhp) :
    (recursiveRule xhp).Follows xhp.pkgdb.values (orphanTest (pkgdbGetPkgRevdeps xhp))
      (Flappy.rdepsBody xhp) where
  body := fun _ _ _ hp => hin.rdepsBody hp
  inside := fun _ hp d hd => (TransGen.mem_values ((hin.cand hp).2.1 d hd)).2
  add := by
    intro acc hacc d hd
    obtain ⟨b, hb, hiff⟩ := (orphanInput hin.separated hin.deps).decides acc hacc d hd
    refine ⟨b, hb, hiff.trans (and_congr_right fun _ => and_congr_right fun _ => ?_)⟩
    constructor
    · intro hall r hr
      obtain ⟨hrdb, hdep⟩ := (hin.mem_need hd).mp hr
      obtain ⟨q, hq, hver⟩ := hall r.pkgver ((hin.inverse d hd r hrdb).mpr hdep)
      exact hin.keys.eq_of_pkgver (hacc q hq) hrdb hver ▸ hq
    · intro hall v hv
      obtain ⟨q, hq, rfl⟩ := (orphanInput hin.separated hin.deps).inside d hd v hv
      exact ⟨q, hall q ((hin.mem_need hd).mpr ⟨hq, (hin.inverse d hd q hq).mp hv⟩), rfl⟩
  gives := by
    intro d hd r hr
    have hdep := (hin.mem_need hd).mp hr
    by_cases hrd : r = d
    · exact Or.inl hrd
    · exact Or.inr ((hin.cand hdep.1).2.2 d (Relation.TransGen.single hdep) (Ne.symm hrd))
  needs := by
    intro p hp d hd hnil
    have hpath := (hin.cand hp).2.1 d hd
    obtain ⟨q, -, hdep⟩ := Relation.TransGen.tail'_iff.mp hpath
    have hq := (hin.mem_need (TransGen.mem_values hpath).2).mpr hdep
    rw [hnil] at hq
    cases hq

/-- The rule of the walk and the rule of the specification have the same closed sets. -/
theorem RecursiveInput.closed_iff (hin : RecursiveInput xhp) (U : List PkgDict)
    (T : Set PkgDict) :
    (recursiveRule xhp).Closed xhp.pkgdb.values U T ↔ RecursiveClosed xhp U T := by
  have hneed : ∀ d ∈ xhp.pkgdb.values, (∀ r ∈ (recursiveRule xhp).need d, r ∈ T) ↔
      ∀ q ∈ xhp.pkgdb.values, q.pkgver ∈ (pkgdbGetPkgRevdeps xhp d.pkgver).getD [] → q ∈ T := by
    intro d hd
    constructor
    · intro h q hq hr
      exact h q ((hin.mem_need hd).mpr ⟨hq, (hin.inverse d hd q hq).mp hr⟩)
    · intro h r hr
      obtain ⟨hrdb, hdep⟩ := (hin.mem_need hd).mp hr
      exact h r hrdb ((hin.inverse d hd r hrdb).mpr hdep)
  constructor
  · rintro ⟨hbase, hstep⟩
    refine ⟨hbase, fun p hp d hd hauto hall => ?_⟩
    by_cases hdp : d = p
    · exact hdp ▸ hp
    · have hmem := TransGen.mem_values hd
      exact hstep p hmem.1 hp d ((hin.cand hmem.1).2.2 d hd hdp) hauto ((hneed d hmem.2).mpr hall)
  · rintro ⟨hbase, hstep⟩
    refine ⟨hbase, fun p hp hpT d hd hauto hall => ?_⟩
    have hpath := (hin.cand hp).2.1 d hd
    exact hstep p hpT d hpath hauto ((hneed d (TransGen.mem_values hpath).2).mp hall)

/-- **Orphan detection, recursive mode.**  The result has no duplicates and is the least set
that holds the packages named and every automatic transitive dependency of a member all of
whose reverse dependencies are members.  It does not depend on the order of the names, and
nothing outside it depends on what was added. -/
theorem findPkgOrphansUser_isLeast (xhp : Handle) (hin : RecursiveInput xhp) (U : List PkgDict)
    (hnodup : U.Nodup) (hU : ∀ p ∈ U, p ∈ xhp.pkgdb.values) :
    ∃ S, findPkgOrphansUser xhp (U.map PkgDict.pkgver) = some S ∧ S.Nodup ∧
      IsLeast {T | RecursiveClosed xhp U T} {p | p ∈ S} ∧
      (∀ U' : List PkgDict, U'.Perm U →
        ∃ S', findPkgOrphansUser xhp (U'.map PkgDict.pkgver) = some S' ∧ S'.Perm S) ∧
      ∀ p ∈ xhp.pkgdb.values, p ∉ S → ∀ d ∈ S, d ∉ U →
        ∀ dep ∈ p.runDepends.getD [], pkgdbResolve xhp dep ≠ some d := by
  have hrun : ∀ V : List PkgDict, V.Nodup → (∀ p ∈ V, p ∈ xhp.pkgdb.values) →
      ∃ S, findPkgOrphansUser xhp (V.map PkgDict.pkgver) = some S ∧ S.Nodup ∧
        (∀ p ∈ S, p ∈ xhp.pkgdb.values) ∧ IsLeast {T | RecursiveClosed xhp V T} {p | p ∈ S} ∧
        ∀ d ∈ S, d ∉ V → ∀ r ∈ (recursiveRule xhp).need d, r ∈ S := by
    intro V hV hVdb
    have harray : (V.map PkgDict.pkgver).filterMap (pkgdbGetPkg xhp) = V := by
      rw [List.filterMap_map, List.filterMap_eq_map_iff_forall_eq_some.mpr, List.map_id]
      exact fun p hp => hin.found p (hVdb p hp)
    obtain ⟨S, hS, hnd, hdb, hleast, hneed⟩ := Worklist.walk_isLeast hin.follows hV hVdb
      (show xhp.pkgdb.values.length < (V.map PkgDict.pkgver).length + xhp.pkgdb.values.length + 1
        by omega)
    refine ⟨S, ?_, hnd, hdb, ?_, hneed⟩
    · rw [findPkgOrphansUser, harray]
      exact hS
    · simpa only [hin.closed_iff] using hleast
  obtain ⟨S, hS, hnd, hdb, hleast, hneed⟩ := hrun U hnodup hU
  refine ⟨S, hS, hnd, hleast, fun U' hperm => ?_, fun p hp hpS d hd hdU dep hdep hres => ?_⟩
  · obtain ⟨S', hS', hnd', -, hleast', -⟩ := hrun U' (hperm.nodup_iff.mpr hnodup)
      fun p hp => hU p (hperm.mem_iff.mp hp)
    refine ⟨S', hS', (List.perm_ext_iff_of_nodup hnd' hnd).mpr fun p => ?_⟩
    have hsame : {T | RecursiveClosed xhp U' T} = {T | RecursiveClosed xhp U T} := by
      ext T
      constructor
      · rintro ⟨hbase, hstep⟩
        exact ⟨fun p hp => hbase p (hperm.mem_iff.mpr hp), hstep⟩
      · rintro ⟨hbase, hstep⟩
        exact ⟨fun p hp => hbase p (hperm.mem_iff.mp hp), hstep⟩
    rw [hsame] at hleast'
    exact Set.ext_iff.mp (hleast'.unique hleast) p
  · exact hpS (hneed d hd hdU p ((hin.mem_need (hdb d hd)).mpr ⟨hp, dep, hdep, hres⟩))

/-- An automatic package with these dependencies and provided packages. -/
def recursivePkg (name pkgver : String) (deps provides : List String) : Str × PkgDict :=
  (name.toList, { pkgver := pkgver.toList
                  pkgname := some name.toList
                  automaticInstall := some true
                  runDepends := some (deps.map String.toList)
                  provides := some (provides.map String.toList) })

/-- An application with a library and a shell that needs the library too; the library is in a
cycle with its data, and the icons are kept by another application. -/
def recursiveDemo : Handle :=
  { pkgdb := ⟨[recursivePkg "app" "app-1_1" ["lib>=1", "sh>=0", "icons>=0"] [],
      recursivePkg "dash" "dash-2_1" ["lib>=0"] ["sh-1_1"],
      recursivePkg "data" "data-1_1" ["lib>=0"] [], recursivePkg "game" "game-1_1" ["icons>=0"] [],
      recursivePkg "icons" "icons-1_1" [] [], recursivePkg "lib" "lib-3_1" ["data>=0"] []],
      by decide⟩
    vpkgd := resolveShell "dash" }

theorem findPkgOrphansUser_recursiveDemo :
    ∃ S, findPkgOrphansUser recursiveDemo ["app-1_1".toList] = some S ∧
      S.map PkgDict.pkgver = ["app-1_1".toList, "dash-2_1".toList] ∧
      IsLeast {T | RecursiveClosed recursiveDemo [(recursivePkg "app" "app-1_1"
        ["lib>=1", "sh>=0", "icons>=0"] []).2] T} {p | p ∈ S} := by
  have hdeps : DepsNamed recursiveDemo := by
    unfold DepsNamed
    decide +kernel
  have hin : RecursiveInput recursiveDemo :=
    { keys := by decide +kernel
      named := by decide +kernel
      deps := hdeps
      own := by decide +kernel
      clash := by decide +kernel
      inverse := by decide +kernel
      separated := by decide +kernel
      found := by decide +kernel }
  obtain ⟨S, hS, -, hleast, -⟩ := findPkgOrphansUser_isLeast recursiveDemo hin
    [(recursivePkg "app" "app-1_1" ["lib>=1", "sh>=0", "icons>=0"] []).2]
    (List.nodup_singleton _) (by decide +kernel)
  have hrun : (findPkgOrphansUser recursiveDemo ["app-1_1".toList]).map (List.map PkgDict.pkgver) =
      some ["app-1_1".toList, "dash-2_1".toList] := by decide +kernel
  have hS' : findPkgOrphansUser recursiveDemo ["app-1_1".toList] = some S := hS
  rw [hS', Option.map_some, Option.some.injEq] at hrun
  exact ⟨S, hS', hrun, hleast⟩

/-- `new` provides version 2 of `n` and needs an older one, which `old` provides. -/
def recursiveOwn : Handle :=
  { pkgdb := ⟨[recursivePkg "new" "new-1_1" ["n<2"] ["n-2_1"],
      recursivePkg "old" "old-1_1" [] ["n-1_1"]], by decide⟩
    vpkgd := ⟨[("n".toList, ⟨[("n-1_1".toList, "old".toList), ("n-2_1".toList, "new".toList)],
      by decide⟩)], List.nodup_singleton _⟩ }

/-- The reverse dependencies are the inverse of the resolution, but a dependency on a name that
the package provides itself is passed over: `old` is needed by `new` alone and is not found. -/
theorem findPkgOrphansUser_recursiveOwn :
    (∀ p ∈ recursiveOwn.pkgdb.values, ∀ q ∈ recursiveOwn.pkgdb.values,
      q.pkgver ∈ (pkgdbGetPkgRevdeps recursiveOwn p.pkgver).getD [] ↔
        ∃ dep ∈ q.runDepends.getD [], pkgdbResolve recursiveOwn dep = some p) ∧
    ¬ ∃ S, findPkgOrphansUser recursiveOwn ["new-1_1".toList] = some S ∧
      IsLeast {T | RecursiveClosed recursiveOwn
        [(recursivePkg "new" "new-1_1" ["n<2"] ["n-2_1"]).2] T} {p | p ∈ S} := by
  refine ⟨by decide +kernel, ?_⟩
  rintro ⟨S, hS, hleast⟩
  have hrun : (findPkgOrphansUser recursiveOwn ["new-1_1".toList]).map (List.map PkgDict.pkgver) =
      some ["new-1_1".toList] := by decide +kernel
  rw [hS, Option.map_some, Option.some.injEq] at hrun
  obtain ⟨hbase, hstep⟩ := hleast.1
  have hnew : (recursivePkg "new" "new-1_1" ["n<2"] ["n-2_1"]).2 ∈ S :=
    hbase _ List.mem_cons_self
  have hdep : Depends recursiveOwn (recursivePkg "new" "new-1_1" ["n<2"] ["n-2_1"]).2
      (recursivePkg "old" "old-1_1" [] ["n-1_1"]).2 := by
    refine ⟨by decide +kernel, "n<2".toList, by decide +kernel, by decide +kernel⟩
  have hold : (recursivePkg "old" "old-1_1" [] ["n-1_1"]).2 ∈ S := by
    refine hstep _ hnew _ (Relation.TransGen.single hdep) rfl fun q hq hr => ?_
    have honly : ∀ q ∈ recursiveOwn.pkgdb.values,
        q.pkgver ∈ (pkgdbGetPkgRevdeps recursiveOwn "old-1_1".toList).getD [] →
          q = (recursivePkg "new" "new-1_1" ["n<2"] ["n-2_1"]).2 := by decide +kernel
    rw [honly q hq hr]
    exact hnew
  have := List.mem_map_of_mem (f := PkgDict.pkgver) hold
  rw [hrun] at this
  exact absurd this (by decide)

end Flappy
