/-
Orphaned packages, automatic mode (`flappy_find_pkg_orphans (xhp, NULL)` of
`lib/package_orphans.c`).

A package is an orphan if it was installed automatically and everything that
depends on it is an orphan.  The source re-scans the package database, appends
what it finds to the array it tests against, and stops after a scan that finds
nothing: a saturation in the sense of `Flappy.Lib.Saturate`.

* `findPkgOrphans_isLeast` — the result is the least set closed under that
  rule, for every package database in which no package answers to the pkgver
  of another one;
* `findOrphans_rest` — without the orphans there are no orphans.
-/
import Flappy.Pkgdb
import Flappy.Lib.Saturate

open CStr

namespace Flappy

/-- The body of the scan for one package: is it appended to the array?
`none` is the call of `abort` inside the reverse-dependency lookup. -/
def orphanTest (revdeps : Str → Option (List Str)) (array : List PkgDict) (pkgd : PkgDict) :
    Option Bool :=
  if pkgd.automaticInstall ≠ some true then some false
  else if (findPkgInArray array pkgd.pkgver .unknown).isSome then some false
  else
    match revdeps pkgd.pkgver with
    | none => none
    | some revs =>
      if revs.length = 0 then some true
      else
        -- verify all revdeps are seen
        let cnt := revs.countP fun r => (findPkgInArray array r .unknown).isSome
        some (cnt = revs.length)

/-- The scans of `flappy_find_pkg_orphans`, over the packages `db` and the
reverse dependencies `revdeps`. -/
def findOrphans (revdeps : Str → Option (List Str)) (db : List PkgDict) :
    Option (List PkgDict) :=
  Saturate.saturate (orphanTest revdeps) db (db.length + 1) []

/-- `flappy_find_pkg_orphans (xhp, NULL)`. -/
def findPkgOrphans (xhp : Handle) : Option (List PkgDict) :=
  findOrphans (pkgdbGetPkgRevdeps xhp) xhp.pkgdb.values

/-- The reverse dependencies `flappy_pkgdb_get_pkg_revdeps` gives for a package. -/
def revdepsOf (revdeps : Str → Option (List Str)) (p : PkgDict) : List Str :=
  (revdeps p.pkgver).getD []

/-- The orphan rule: installed automatically, and every reverse dependency is in `S`. -/
def OrphanReady (revdeps : Str → Option (List Str)) (S : Set PkgDict) (p : PkgDict) : Prop :=
  p.automaticInstall = some true ∧ ∀ r ∈ revdepsOf revdeps p, ∃ q ∈ S, q.pkgver = r

/-- What the scan relies on: packages are told apart by their pkgver, and the
reverse dependencies exist and are packages of the database. -/
structure OrphanInput (revdeps : Str → Option (List Str)) (db : List PkgDict) : Prop where
  separated : Separated db
  defined : ∀ p ∈ db, (revdeps p.pkgver).isSome
  inside : ∀ p ∈ db, ∀ r ∈ revdepsOf revdeps p, ∃ q ∈ db, q.pkgver = r

variable {revdeps : Str → Option (List Str)} {db : List PkgDict}

theorem orphanReady_mono : Saturate.MonotoneReady (OrphanReady revdeps) := by
  rintro S T p hST ⟨hauto, hrev⟩
  refine ⟨hauto, fun r hr => ?_⟩
  obtain ⟨q, hq, hqr⟩ := hrev r hr
  exact ⟨q, hST hq, hqr⟩

/-- In an array of packages of the database, looking up a pkgver of the
database finds that package or nothing. -/
theorem OrphanInput.find_iff (h : OrphanInput revdeps db) {array : List PkgDict}
    (harr : ∀ x ∈ array, x ∈ db) {p : PkgDict} (hp : p ∈ db) :
    (findPkgInArray array p.pkgver .unknown).isSome ↔ p ∈ array := by
  rw [findPkgInArray_isSome_iff]
  constructor
  · rintro ⟨q, hq, hm⟩
    exact h.separated.2 p hp q (harr q hq) hm ▸ hq
  · intro hpa
    exact ⟨p, hpa, h.separated.1 p hp⟩

theorem OrphanInput.eq_of_pkgver (h : OrphanInput revdeps db) {p q : PkgDict} (hp : p ∈ db)
    (hq : q ∈ db) (hpq : q.pkgver = p.pkgver) : q = p :=
  h.separated.2 p hp q hq (hpq ▸ h.separated.1 q hq)

/-- The test of the source decides the orphan rule. -/
theorem OrphanInput.decides (h : OrphanInput revdeps db) :
    Saturate.Decides (OrphanReady revdeps) (orphanTest revdeps) db := by
  intro array harr p hp
  rw [orphanTest]
  by_cases hauto : p.automaticInstall = some true
  · rw [if_neg (by simpa using hauto)]
    by_cases hin : p ∈ array
    · rw [if_pos ((h.find_iff harr hp).mpr hin)]
      exact ⟨false, rfl, by simp [hin]⟩
    · rw [if_neg (mt (h.find_iff harr hp).mp hin)]
      obtain ⟨revs, hrevs⟩ := Option.isSome_iff_exists.mp (h.defined p hp)
      have hof : revdepsOf revdeps p = revs := by rw [revdepsOf, hrevs, Option.getD_some]
      -- a reverse dependency is found in the array iff it is one of its packages
      have hseen : ∀ r ∈ revs, (findPkgInArray array r .unknown).isSome ↔
          ∃ q ∈ array, q.pkgver = r := by
        intro r hr
        obtain ⟨q, hq, rfl⟩ := h.inside p hp r (hof ▸ hr)
        rw [h.find_iff harr hq]
        constructor
        · intro hqa
          exact ⟨q, hqa, rfl⟩
        · rintro ⟨q', hq', hqq⟩
          exact h.eq_of_pkgver hq (harr q' hq') hqq ▸ hq'
      have hready : OrphanReady revdeps {x | x ∈ array} p ↔
          ∀ r ∈ revs, (findPkgInArray array r .unknown).isSome := by
        rw [OrphanReady, hof]
        constructor
        · rintro ⟨-, hall⟩ r hr
          exact (hseen r hr).mpr (hall r hr)
        · intro hall
          exact ⟨hauto, fun r hr => (hseen r hr).mp (hall r hr)⟩
      simp only [hrevs]
      by_cases hlen : revs.length = 0
      · rw [if_pos hlen]
        rw [List.length_eq_zero_iff] at hlen
        exact ⟨true, rfl, by simp [hin, hready, hlen]⟩
      · rw [if_neg hlen]
        refine ⟨_, rfl, ?_⟩
        rw [decide_eq_true_eq, List.countP_eq_length, hready]
        exact (and_iff_right hin).symm
  · rw [if_pos (by simpa using hauto)]
    exact ⟨false, rfl, by simp [OrphanReady, hauto]⟩

/-- The scan computes the least set closed under the orphan rule. -/
theorem OrphanInput.isLeast (h : OrphanInput revdeps db) :
    ∃ S, findOrphans revdeps db = some S ∧ S.Nodup ∧ (∀ p ∈ S, p ∈ db) ∧
      IsLeast {T | Saturate.Closed (OrphanReady revdeps) db T} {p | p ∈ S} :=
  Saturate.saturate_isLeast orphanReady_mono h.decides

/-- A package of the least closed set is ready relative to it: the set minus
an unready package would still be closed. -/
theorem ready_of_isLeast {S : Set PkgDict}
    (hS : IsLeast {T | Saturate.Closed (OrphanReady revdeps) db T} S) {p : PkgDict}
    (hp : p ∈ S) : OrphanReady revdeps S p := by
  by_contra hn
  have hclosed : Saturate.Closed (OrphanReady revdeps) db (S \ {p}) := by
    intro q hq hr
    have hrS : OrphanReady revdeps S q := orphanReady_mono _ _ q Set.sdiff_subset hr
    refine ⟨hS.1 q hq hrS, fun hqp => ?_⟩
    rw [Set.mem_singleton_iff] at hqp
    exact hn (hqp ▸ hrS)
  exact (hS.2 hclosed hp).2 rfl

/-- The reverse dependencies that are not in `S`. -/
def revdepsWithout (revdeps : Str → Option (List Str)) (S : List PkgDict) (pkg : Str) :
    Option (List Str) :=
  (revdeps pkg).map fun revs => revs.filter fun r => !S.any fun q => q.pkgver = r

/-- A pass that accepts nothing leaves the empty array. -/
theorem findOrphans_eq_nil (h : ∀ p ∈ db, orphanTest revdeps [] p = some false) :
    findOrphans revdeps db = some [] := by
  have hpass : ∀ ps : List PkgDict, (∀ p ∈ ps, p ∈ db) →
      Saturate.pass (orphanTest revdeps) ps [] = some ([], false) := by
    intro ps
    induction ps with
    | nil => intro _; rfl
    | cons p ps ih =>
      intro hps
      rw [Saturate.pass, h p (hps p List.mem_cons_self)]
      exact ih fun q hq => hps q (List.mem_cons_of_mem p hq)
  simp [findOrphans, Saturate.saturate, hpass db fun p hp => hp]

/-- Without the orphans, and with the reverse dependencies restricted to what
is left, no package is an orphan. -/
theorem OrphanInput.findOrphans_rest (h : OrphanInput revdeps db) {S : List PkgDict}
    (hS : IsLeast {T | Saturate.Closed (OrphanReady revdeps) db T} {p | p ∈ S}) :
    findOrphans (revdepsWithout revdeps S) (db.filter (· ∉ S)) = some [] := by
  refine findOrphans_eq_nil fun p hp => ?_
  rw [List.mem_filter, decide_eq_true_eq] at hp
  obtain ⟨hp, hpS⟩ := hp
  rw [orphanTest]
  by_cases hauto : p.automaticInstall = some true
  · rw [if_neg (by simpa using hauto), if_neg (by simp [findPkgInArray_unknown])]
    obtain ⟨revs, hrevs⟩ := Option.isSome_iff_exists.mp (h.defined p hp)
    -- some reverse dependency stays, else `p` would be ready
    have hstay : ∃ r ∈ revs, ∀ q ∈ S, q.pkgver ≠ r := by
      by_contra hall
      push Not at hall
      refine hpS (hS.1 p hp ⟨hauto, fun r hr => ?_⟩)
      rw [revdepsOf, hrevs, Option.getD_some] at hr
      exact hall r hr
    obtain ⟨r, hr, hrS⟩ := hstay
    have hmem : r ∈ revs.filter fun r => !S.any fun q => q.pkgver = r := by
      rw [List.mem_filter]
      refine ⟨hr, ?_⟩
      rw [Bool.not_eq_true', List.any_eq_false]
      intro q hq
      simpa using hrS q hq
    simp only [revdepsWithout, hrevs, Option.map_some]
    rw [if_neg (List.length_pos_of_mem hmem).ne']
    simp only [Option.some.injEq, decide_eq_false_iff_not]
    intro hcnt
    have := List.countP_eq_length.mp hcnt r hmem
    simp [findPkgInArray_unknown] at this
  · rw [if_pos (by simpa using hauto)]

/-! ### The package database -/

/-- The orphans of a handle, in the words of the rule. -/
def OrphanClosed (xhp : Handle) (S : Set PkgDict) : Prop :=
  ∀ p ∈ xhp.pkgdb.values, p.automaticInstall = some true →
    (∀ r ∈ (pkgdbGetPkgRevdeps xhp p.pkgver).getD [], ∃ q ∈ S, q.pkgver = r) → p ∈ S

theorem orphanClosed_iff {xhp : Handle} {S : Set PkgDict} :
    OrphanClosed xhp S ↔
      Saturate.Closed (OrphanReady (pkgdbGetPkgRevdeps xhp)) xhp.pkgdb.values S := by
  simp only [OrphanClosed, Saturate.Closed, OrphanReady, revdepsOf, and_imp]

/-- A package database whose dependencies name packages and in which no package
answers to the pkgver of another one is a proper input of the scan. -/
theorem orphanInput {xhp : Handle} (hsep : Separated xhp.pkgdb.values) (hd : DepsNamed xhp) :
    OrphanInput (pkgdbGetPkgRevdeps xhp) xhp.pkgdb.values where
  separated := hsep
  defined p _ := pkgdbGetPkgRevdeps_isSome hd p.pkgver
  inside p _ r hr := by
    obtain ⟨_, _, _, _, q, hq, hqr, _⟩ := (mem_pkgdbGetPkgRevdeps hd).mp hr
    exact ⟨q, hq, hqr⟩

/-- The rule does not see the order of the package database. -/
theorem orphanClosed_perm {xhp : Handle} {db : Dict Str PkgDict} (hd : DepsNamed xhp)
    (h : db.entries.Perm xhp.pkgdb.entries) (S : Set PkgDict) :
    OrphanClosed { xhp with pkgdb := db } S ↔ OrphanClosed xhp S := by
  have hv : ∀ q, q ∈ db.values ↔ q ∈ xhp.pkgdb.values := fun q => (h.map Prod.snd).mem_iff
  simp only [OrphanClosed, hv, mem_pkgdbGetPkgRevdeps_perm hd h]

/-- **Orphan detection, automatic mode.**  The result has no duplicates and is
the least set of installed packages that contains a package as soon as it was
installed automatically and all its reverse dependencies are in the set.  It is
the same for every order of the package database, nothing outside it depends on
it, and without it there are no orphans. -/
theorem findPkgOrphans_isLeast (xhp : Handle) (hsep : Separated xhp.pkgdb.values)
    (hd : DepsNamed xhp) :
    ∃ S, findPkgOrphans xhp = some S ∧ S.Nodup ∧ (∀ p ∈ S, p ∈ xhp.pkgdb.values) ∧
      IsLeast {T | OrphanClosed xhp T} {p | p ∈ S} ∧
      (∀ db : Dict Str PkgDict, db.entries.Perm xhp.pkgdb.entries →
        ∃ S', findPkgOrphans { xhp with pkgdb := db } = some S' ∧ ∀ p, p ∈ S' ↔ p ∈ S) ∧
      (∀ p ∈ S, ∀ q ∈ xhp.pkgdb.values,
        q.pkgver ∈ (pkgdbGetPkgRevdeps xhp p.pkgver).getD [] → q ∈ S) ∧
      findOrphans (revdepsWithout (pkgdbGetPkgRevdeps xhp) S)
        (xhp.pkgdb.values.filter (· ∉ S)) = some [] := by
  have hin := orphanInput hsep hd
  obtain ⟨S, hS, hnodup, hsub, hleast⟩ := hin.isLeast
  have hleast' : IsLeast {T | OrphanClosed xhp T} {p | p ∈ S} := by
    simpa only [orphanClosed_iff] using hleast
  refine ⟨S, hS, hnodup, hsub, hleast', ?_, ?_, hin.findOrphans_rest hleast⟩
  · intro db hperm
    have hv : ∀ q, q ∈ db.values ↔ q ∈ xhp.pkgdb.values := fun q => (hperm.map Prod.snd).mem_iff
    have hsep' : Separated db.values :=
      ⟨fun p hp => hsep.1 p ((hv p).mp hp),
        fun p hp q hq => hsep.2 p ((hv p).mp hp) q ((hv q).mp hq)⟩
    have hd' : DepsNamed { xhp with pkgdb := db } := fun q hq => hd q ((hv q).mp hq)
    obtain ⟨S', hS', -, -, hleastp⟩ := (orphanInput hsep' hd').isLeast
    have hset : {T | OrphanClosed xhp T} = {T | Saturate.Closed
        (OrphanReady (pkgdbGetPkgRevdeps { xhp with pkgdb := db })) db.values T} :=
      Set.ext fun T => (orphanClosed_perm hd hperm T).symm.trans orphanClosed_iff
    rw [hset] at hleast'
    exact ⟨S', hS', fun p => Set.ext_iff.mp (hleastp.unique hleast') p⟩
  · intro p hp q hq hr
    obtain ⟨q', hq', hqq⟩ := (ready_of_isLeast hleast hp).2 q.pkgver hr
    exact hin.eq_of_pkgver hq (hsub q' hq') hqq ▸ hq'

/-- An application, its library, and a chain of two packages nothing needs. -/
def orphanDemo : Handle :=
  { pkgdb := ⟨[
      ("app".toList, { pkgver := "app-1_1".toList, runDepends := some ["lib>=0".toList] }),
      ("dat".toList, { pkgver := "dat-1_1".toList, automaticInstall := some true }),
      ("lib".toList, { pkgver := "lib-1_1".toList, automaticInstall := some true }),
      ("old".toList, { pkgver := "old-1_1".toList, automaticInstall := some true,
                       runDepends := some ["dat>=0".toList] })], by decide⟩ }

theorem findPkgOrphans_orphanDemo :
    (findPkgOrphans orphanDemo).map (fun S => S.map (·.pkgver)) =
        some ["old-1_1".toList, "dat-1_1".toList] ∧
      ∃ S, findPkgOrphans orphanDemo = some S ∧
        IsLeast {T | OrphanClosed orphanDemo T} {p | p ∈ S} := by
  refine ⟨by decide, ?_⟩
  have hd : DepsNamed orphanDemo := by
    unfold DepsNamed
    decide
  obtain ⟨S, hS, -, -, hleast, -⟩ := findPkgOrphans_isLeast orphanDemo (by decide) hd
  exact ⟨S, hS, hleast⟩

/-- Two automatic packages nothing depends on.  The pkgver of the second is a
pattern that the first one matches. -/
def orphanClash : Handle :=
  { pkgdb := ⟨[
      ("lib1".toList, { pkgver := "lib1-1.0_1".toList, automaticInstall := some true }),
      ("lib?".toList, { pkgver := "lib?-1.0_1".toList, automaticInstall := some true })],
      by decide⟩ }

/-- Once `lib1` is in the array, looking up `lib?-1.0_1` finds it, so the second
orphan is taken for queued and is missing from the result. -/
theorem findPkgOrphans_orphanClash :
    ¬ ∃ S, findPkgOrphans orphanClash = some S ∧
      IsLeast {T | OrphanClosed orphanClash T} {p | p ∈ S} := by
  rintro ⟨S, hS, hleast⟩
  have hrun : (findPkgOrphans orphanClash).map (fun S => S.map (·.pkgver)) =
      some ["lib1-1.0_1".toList] := by decide
  rw [hS, Option.map_some, Option.some.injEq] at hrun
  have hnone : (pkgdbGetPkgRevdeps orphanClash "lib?-1.0_1".toList).getD [] = [] := by decide
  have hmem : ({ pkgver := "lib?-1.0_1".toList, automaticInstall := some true } : PkgDict) ∈ S :=
    hleast.1 _ (by decide) rfl fun r hr => by
      rw [hnone] at hr
      exact absurd hr List.not_mem_nil
  have := List.mem_map_of_mem (f := PkgDict.pkgver) hmem
  rw [hrun] at this
  exact absurd this (by decide)

end Flappy
