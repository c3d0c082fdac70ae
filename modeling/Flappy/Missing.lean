/-
The list of missing dependencies (`add_missing_reqdep`).

The function is meant to keep one entry for each package name.  What it stores is
decorated (`MISSING: foo>=1`), and it compares the name of the next dependency
with the names of the decorated texts, so no entry is ever found to be for the
same package.  An entry or a dependency that is an exact pkgver ends the
comparison, and then the dependency is dropped.

* `addMissingReqdep_eq` — what one call does;
* `missingRun_ok_iff` — the sequences of calls after which the list is complete and has
  one entry for each name.
-/
import Flappy.Lookup
import Flappy.Deps
import Mathlib.Data.List.Induction

open CStr

namespace Flappy

/-- The decoration of an entry. -/
def missingPrefix : Str := "MISSING: ".toList

/-- The list after a sequence of calls, beginning with the empty list. -/
def missingRun (deps : List Str) : List Str := (deps.foldl addMissingReqdep (some [])).getD []

/-- The dependency gets to be compared with every entry of the list: all of them are patterns
whose name can be read. -/
def Compared (mdeps : List Str) (reqpkg : Str) : Prop :=
  mdeps = [] ∨ (pkgpatternName reqpkg).isSome ∧ ∀ t ∈ mdeps, (pkgpatternName t).isSome

instance (mdeps : List Str) (reqpkg : Str) : Decidable (Compared mdeps reqpkg) :=
  inferInstanceAs (Decidable (_ ∨ _))

/-- Every requested dependency is in the list, itself or by an entry for the same name, and no
two entries have the same name. -/
structure MissingOk (deps mdeps : List Str) : Prop where
  complete : ∀ dep ∈ deps, ∃ r, missingText r ∈ mdeps ∧ (r = dep ∨ depName r = depName dep)
  minimal : ∃ rs : List Str, mdeps = rs.map missingText ∧ (rs.map depName).Nodup

/-- The name of the dependency is in the list exactly if the dependency does not get to be
compared. -/
def MissingStep (mdeps : List Str) (reqpkg : Str) : Prop :=
  (∃ r, missingText r ∈ mdeps ∧ depName r = depName reqpkg) ↔ ¬ Compared mdeps reqpkg

/-! ### One call -/

theorem missingText_injective : Function.Injective missingText := fun _ _ h =>
  List.append_cancel_left h

theorem missingText_mem {rs : List Str} {r : Str} : missingText r ∈ rs.map missingText ↔ r ∈ rs :=
  List.mem_map_of_injective missingText_injective

/-- The name of a pattern is a beginning of it. -/
theorem pkgpatternName_isPrefix {s n : Str} (h : pkgpatternName s = some n) : n <+: s := by
  obtain ⟨-, -, rfl, -⟩ := pkgpatternName_eq_some.mp h
  exact patternStem_isPrefix s

/-- The name of a decorated pattern is decorated. -/
theorem pkgpatternName_missingText {r n : Str} (h : pkgpatternName (missingText r) = some n) :
    missingPrefix <+: n := by
  obtain ⟨-, -, rfl, -⟩ := pkgpatternName_eq_some.mp h
  have hcspn : strcspn patternChars (missingText r) = missingPrefix ++ strcspn patternChars r := by
    have hplain : ∀ c ∈ missingPrefix, decide (c ∉ patternChars) = true := List.all_eq_true.mp rfl
    exact List.takeWhile_append_of_pos hplain
  rw [patternStem, hcspn]
  split
  · next hlast =>
    -- the decoration itself does not end with a dash
    cases hr : strcspn patternChars r with
    | nil =>
      rw [hr, List.append_nil] at hlast
      exact absurd hlast (by decide)
    | cons c l =>
      rw [List.dropLast_append_of_ne_nil (by simp)]
      exact List.prefix_append _ _
  · exact List.prefix_append _ _

/-- The scan stops at an entry that cannot be read, or goes through. -/
theorem missingScan_eq {reqpkg : Str} (hplain : ¬ missingPrefix <+: reqpkg) :
    ∀ (rs : List Str) (idx : Nat), missingScan reqpkg (rs.map missingText) idx =
      if Compared (rs.map missingText) reqpkg then .add else .keep := by
  intro rs
  induction rs with
  | nil => exact fun idx => (if_pos (Or.inl rfl)).symm
  | cons r rs ih =>
    intro idx
    have hcompared : Compared ((r :: rs).map missingText) reqpkg ↔
        (pkgpatternName reqpkg).isSome ∧ (pkgpatternName (missingText r)).isSome ∧
          Compared (rs.map missingText) reqpkg := by
      rw [Compared, Compared, List.map_cons, List.forall_mem_cons]
      constructor
      · rintro (h | ⟨h, hr, hrs⟩)
        · cases h
        · exact ⟨h, hr, Or.inr ⟨h, hrs⟩⟩
      · rintro ⟨h, hr, hrs⟩
        refine Or.inr ⟨h, hr, ?_⟩
        rcases hrs with hrs | ⟨-, hrs⟩
        · rw [hrs]
          exact fun t ht => by cases ht
        · exact hrs
    rw [List.map_cons, missingScan]
    rw [List.map_cons] at hcompared
    cases hn : pkgpatternName (missingText r) with
    | none =>
      rw [hn] at hcompared
      rw [if_neg (by simp [hcompared])]
      split <;> rfl
    | some n =>
      cases hn' : pkgpatternName reqpkg with
      | none =>
        rw [hn'] at hcompared
        rw [if_neg (by simp [hcompared])]
        split <;> rfl
      | some n' =>
        obtain ⟨v, hv⟩ := Option.isSome_iff_exists.mp (pkgpatternName_eq_some.mp hn).1
        obtain ⟨v', hv'⟩ := Option.isSome_iff_exists.mp (pkgpatternName_eq_some.mp hn').1
        -- a name in the list is decorated, the name of the dependency is not
        have hne : n' ≠ n := by
          rintro rfl
          exact hplain ((pkgpatternName_missingText hn).trans (pkgpatternName_isPrefix hn'))
        rw [hn, hn'] at hcompared
        simp only [hv, hv', if_neg hne, ih, hcompared, Option.isSome_some, true_and]

/-- **What one call does**: the dependency is put behind the entries, or dropped. -/
theorem addMissingReqdep_eq {reqpkg : Str} (hplain : ¬ missingPrefix <+: reqpkg) (rs : List Str) :
    addMissingReqdep (some (rs.map missingText)) reqpkg =
      some ((if Compared (rs.map missingText) reqpkg then rs ++ [reqpkg] else rs).map
        missingText) := by
  rw [addMissingReqdep, Option.map_some, missingScan_eq hplain]
  by_cases hc : Compared (rs.map missingText) reqpkg
  · rw [if_pos hc, if_pos hc, List.map_append, List.map_singleton]
  · rw [if_neg hc, if_neg hc]

/-! ### A sequence of calls -/

/-- The entries of the list are dependencies that were requested. -/
theorem missingRun_spec {deps : List Str} (hplain : ∀ dep ∈ deps, ¬ missingPrefix <+: dep) :
    ∃ rs : List Str, deps.foldl addMissingReqdep (some []) = some (rs.map missingText) := by
  induction deps using List.reverseRecOn with
  | nil => exact ⟨[], rfl⟩
  | append_singleton deps dep ih =>
    obtain ⟨rs, hrs⟩ := ih fun d hd => hplain d (List.mem_append_left _ hd)
    rw [List.foldl_concat, hrs,
      addMissingReqdep_eq (hplain dep (List.mem_append_right _ List.mem_cons_self))]
    exact ⟨_, rfl⟩

theorem missingRun_append {deps : List Str} {dep : Str}
    (hplain : ∀ d ∈ deps ++ [dep], ¬ missingPrefix <+: d) :
    ∃ rs : List Str, missingRun deps = rs.map missingText ∧
      missingRun (deps ++ [dep]) =
        (if Compared (missingRun deps) dep then rs ++ [dep] else rs).map missingText := by
  obtain ⟨rs, hrs⟩ := missingRun_spec fun d hd => hplain d (List.mem_append_left _ hd)
  have hrun : missingRun deps = rs.map missingText := by rw [missingRun, hrs, Option.getD_some]
  refine ⟨rs, hrun, ?_⟩
  rw [hrun, missingRun, List.foldl_concat, hrs,
    addMissingReqdep_eq (hplain dep (List.mem_append_right _ List.mem_cons_self)),
    Option.getD_some]

/-- A call keeps the list complete and minimal under the condition on the step, and only then. -/
theorem missingStep_iff {deps : List Str} {dep : Str}
    (hplain : ∀ d ∈ deps ++ [dep], ¬ missingPrefix <+: d) (h : MissingOk deps (missingRun deps)) :
    MissingOk (deps ++ [dep]) (missingRun (deps ++ [dep])) ↔ MissingStep (missingRun deps) dep := by
  obtain ⟨rs, hrun, hrun'⟩ := missingRun_append hplain
  obtain ⟨hcomplete, rs', hrs', hnodup⟩ := h
  obtain rfl : rs = rs' := List.map_injective_iff.mpr missingText_injective (hrun.symm.trans hrs')
  by_cases hc : Compared (missingRun deps) dep
  · rw [if_pos hc] at hrun'
    rw [MissingStep, hrun']
    simp only [hc, not_true_eq_false, iff_false, not_exists, not_and]
    simp only [hrun, missingText_mem]
    constructor
    · rintro ⟨-, rs', hrs', hnodup'⟩ r hr hname
      obtain rfl : rs ++ [dep] = rs' := List.map_injective_iff.mpr missingText_injective hrs'
      rw [List.map_append, List.map_singleton, List.nodup_append] at hnodup'
      exact hnodup'.2.2 (depName r) (List.mem_map_of_mem hr) (depName dep) List.mem_cons_self hname
    · -- the new entry is the only one with its name
      intro hnew
      refine ⟨fun d hd => ?_, rs ++ [dep], rfl, ?_⟩
      · rcases List.mem_append.mp hd with hd | hd
        · obtain ⟨r, hr, hname⟩ := hcomplete d hd
          rw [hrun, missingText_mem] at hr
          exact ⟨r, missingText_mem.mpr (List.mem_append_left _ hr), hname⟩
        · rw [List.mem_singleton.mp hd]
          exact ⟨dep, missingText_mem.mpr (List.mem_append_right _ List.mem_cons_self), Or.inl rfl⟩
      · rw [List.map_append, List.map_singleton, List.nodup_append]
        refine ⟨hnodup, List.nodup_singleton _, fun a ha b hb => ?_⟩
        obtain ⟨r, hr, rfl⟩ := List.mem_map.mp ha
        rw [List.mem_singleton.mp hb]
        exact hnew r hr
  · -- the dependency is dropped, so an entry has to stand for it
    rw [if_neg hc, ← hrun] at hrun'
    rw [MissingStep, hrun']
    simp only [hc, not_false_eq_true, iff_true]
    constructor
    · rintro ⟨hcomplete', -⟩
      obtain ⟨r, hr, hname⟩ := hcomplete' dep (List.mem_append_right _ List.mem_cons_self)
      exact ⟨r, hr, hname.elim (congrArg depName) id⟩
    · rintro ⟨r, hr, hname⟩
      refine ⟨fun d hd => ?_, rs, hrun, hnodup⟩
      rcases List.mem_append.mp hd with hd | hd
      · exact hcomplete d hd
      · rw [List.mem_singleton.mp hd]
        exact ⟨r, hr, Or.inr hname⟩

/-- **The list is complete and minimal after every call** of a sequence if every step meets the
condition, and only then. -/
theorem missingRun_ok_iff (deps : List Str) (hplain : ∀ dep ∈ deps, ¬ missingPrefix <+: dep) :
    (∀ pre, pre <+: deps → MissingOk pre (missingRun pre)) ↔
      ∀ pre dep, pre ++ [dep] <+: deps → MissingStep (missingRun pre) dep := by
  have hsub : ∀ {pre : List Str}, pre <+: deps → ∀ d ∈ pre, ¬ missingPrefix <+: d :=
    fun h d hd => hplain d (h.subset hd)
  constructor
  · intro hok pre dep hpre
    exact (missingStep_iff (hsub hpre) (hok pre ((List.prefix_append _ _).trans hpre))).mp
      (hok _ hpre)
  · intro hstep pre
    induction pre using List.reverseRecOn with
    | nil =>
      intro
      exact ⟨fun d hd => absurd hd List.not_mem_nil, [], rfl, List.nodup_nil⟩
    | append_singleton pre dep ih =>
      intro hpre
      exact (missingStep_iff (hsub hpre) (ih ((List.prefix_append _ _).trans hpre))).mpr
        (hstep pre dep hpre)

theorem missingRun_ok_iff_two :
    (∀ pre, pre <+: ["foo-1_1".toList, "foo-2_1".toList] → MissingOk pre (missingRun pre)) ↔
      ∀ pre dep, pre ++ [dep] <+: ["foo-1_1".toList, "foo-2_1".toList] →
        MissingStep (missingRun pre) dep :=
  missingRun_ok_iff _ (by decide)

/-- Two patterns for one package make two entries, and an exact dependency is dropped. -/
theorem missing_duplicated_and_dropped :
    missingRun ["foo>=1".toList, "foo>=2".toList] =
        ["MISSING: foo>=1".toList, "MISSING: foo>=2".toList] ∧
      missingRun ["foo>=1".toList, "bar-1_1".toList] = ["MISSING: foo>=1".toList] := by
  decide

end Flappy
