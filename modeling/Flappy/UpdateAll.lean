/-
The errors of a full update (`flappy_transaction_update_packages`).

One variable holds what `trans_find_pkg` returned for the package that came last, and it
is returned if an update was queued for any package; else the result is `EEXIST`.

* `transactionUpdatePackages_eq` — the function, for any behaviour of `trans_find_pkg`;
* `updateReports_iff` — when a run reports what went wrong;
* `updatePackages_iff` — the same for given results, and which results are reported in
  every order of the packages.
-/
import Flappy.Ops

open CStr

namespace Flappy

/-- `trans_find_pkg` failed, and the code is not passed over. -/
def Rv.isHard (rv : Rv) : Bool := rv ≠ .ok && !rv.isSoft

/-- What the loop makes of a result. -/
def Rv.soften (rv : Rv) : Rv := if rv.isSoft then .ok else rv

/-- What a full update should return, if `trans_find_pkg` returned `results` for the installed
packages. -/
structure UpdateReports (results : List Rv) (rv : Rv) : Prop where
  failure : (∃ r ∈ results, r.isHard = true) → ∃ e, rv = .err e ∧ e ≠ .eexist
  ok : rv = .ok → (∀ r ∈ results, r.isHard = false) ∧ .ok ∈ results
  eexist : rv = .err .eexist → (∀ r ∈ results, r.isHard = false) ∧ .ok ∉ results

/-- Nothing fails, or an update is queued and the package that comes last fails. -/
def ReportsWhen (results : List Rv) : Prop :=
  (∀ r ∈ results, r.isHard = false) ∨
    .ok ∈ results ∧ ∃ r, results.getLast? = some r ∧ r.isHard = true

/-! ### The function -/

section

variable {σ : Type} (find : σ → Str → σ × Rv)

/-- The loop, with any `trans_find_pkg`. -/
def updateEachWith : List PkgDict → σ → Bool → Rv → σ × Bool × Rv
  | [], s, newpkgFound, rv => (s, newpkgFound, rv)
  | pkgd :: pkgs, s, newpkgFound, _ =>
    match pkgName pkgd.pkgver with
    | none => (s, newpkgFound, .err .einval)
    | some pkgname =>
      match find s pkgname with
      | (s, .abort) => (s, newpkgFound, .abort)
      | (s, rv) => updateEachWith pkgs s (newpkgFound || rv = .ok) rv.soften

/-- `flappy_transaction_update_packages`, with any `trans_find_pkg` and `flappy_autoupdate`. -/
def updatePackagesWith (auto : σ → σ × Autoupdate) (pkgdb : σ → List PkgDict) (s : σ) : σ × Rv :=
  match auto s with
  | (s, .update) => (s, .err .ebusy)
  | (s, .error) => (s, .err .einval)
  | (s, .abort) => (s, .abort)
  | (s, .none) =>
    match updateEachWith find (pkgdb s) s false .ok with
    | (s, _, .abort) => (s, .abort)
    | (s, newpkgFound, rv) => (s, if newpkgFound then rv else .err .eexist)

/-- What `trans_find_pkg` returns for the packages in turn. -/
def findResults : List PkgDict → σ → List Rv
  | [], _ => []
  | pkgd :: pkgs, s =>
    match pkgName pkgd.pkgver with
    | none => []
    | some pkgname => (find s pkgname).2 :: findResults pkgs (find s pkgname).1

end

theorem updateEach_eq (env : Env) (pkgs : List PkgDict) (s : Session) (newpkgFound : Bool)
    (rv : Rv) :
    updateEach env pkgs s newpkgFound rv =
      updateEachWith (fun s pkgname => s.find env pkgname false) pkgs s newpkgFound rv := by
  induction pkgs generalizing s newpkgFound rv with
  | nil => rfl
  | cons pkgd pkgs ih =>
    rw [updateEach, updateEachWith]
    cases pkgName pkgd.pkgver with
    | none => rfl
    | some pkgname =>
      simp only
      rcases s.find env pkgname false with ⟨s', rv'⟩
      cases rv' with
      | abort => rfl
      | ok => exact ih _ _ _
      | err e => exact ih _ _ _

/-- The function of the source is the one for `trans_find_pkg` of the source. -/
theorem transactionUpdatePackages_eq (env : Env) (s : Session) :
    transactionUpdatePackages env s =
      updatePackagesWith (fun s pkgname => s.find env pkgname false) (autoupdate env)
        (fun s => s.st.xhp.pkgdb.values) s := by
  rw [transactionUpdatePackages, updatePackagesWith]
  rcases autoupdate env s with ⟨s', auto⟩
  cases auto with
  | none =>
    simp only [updateEach_eq]
    generalize updateEachWith _ _ s' false .ok = r
    obtain ⟨s'', newpkgFound, rv⟩ := r
    cases rv <;> rfl
  | update => rfl
  | error => rfl
  | abort => rfl

/-! ### What a run returns -/

section

variable {σ : Type} {find : σ → Str → σ × Rv} {pkgs : List PkgDict}

/-- The loop keeps whether an update was queued, and the last result. -/
theorem updateEachWith_eq (hnamed : ∀ p ∈ pkgs, (pkgName p.pkgver).isSome) (s : σ)
    (hrun : .abort ∉ findResults find pkgs s) (newpkgFound : Bool) (rv : Rv) :
    (updateEachWith find pkgs s newpkgFound rv).2 =
      (newpkgFound || (findResults find pkgs s).contains .ok,
        ((findResults find pkgs s).getLast?.map Rv.soften).getD rv) := by
  induction pkgs generalizing s newpkgFound rv with
  | nil => simp [updateEachWith, findResults]
  | cons pkgd pkgs ih =>
    obtain ⟨pkgname, hname⟩ := Option.isSome_iff_exists.mp (hnamed pkgd List.mem_cons_self)
    rw [findResults, hname, List.mem_cons, not_or] at hrun
    have hne : (find s pkgname).2 ≠ .abort := fun h => hrun.1 h.symm
    have hloop : updateEachWith find (pkgd :: pkgs) s newpkgFound rv =
        updateEachWith find pkgs (find s pkgname).1
          (newpkgFound || (find s pkgname).2 = .ok) (find s pkgname).2.soften := by
      rw [updateEachWith, hname]
      simp only
    rw [hloop, findResults, hname]
    simp only
    rw [ih (fun p hp => hnamed p (List.mem_cons_of_mem _ hp)) _ hrun.2]
    congr 1
    · rw [List.contains_cons, Bool.or_assoc]
      congr 2
      rw [Bool.eq_iff_iff, decide_eq_true_iff, beq_iff_eq, eq_comm]
    · rw [List.getLast?_cons]
      cases (findResults find pkgs (find s pkgname).1).getLast? <;> rfl

theorem updatePackagesWith_eq {auto : σ → σ × Autoupdate} {pkgdb : σ → List PkgDict} {s s' : σ}
    (hauto : auto s = (s', .none)) (hnamed : ∀ p ∈ pkgdb s', (pkgName p.pkgver).isSome)
    (hrun : .abort ∉ findResults find (pkgdb s') s') :
    (updatePackagesWith find auto pkgdb s).2 =
      if .ok ∈ findResults find (pkgdb s') s' then
        ((findResults find (pkgdb s') s').getLast?.map Rv.soften).getD .ok
      else .err .eexist := by
  have hloop := @updateEachWith_eq σ find _ hnamed s' hrun false .ok
  rw [updatePackagesWith, hauto]
  simp only
  rw [Bool.false_or] at hloop
  generalize updateEachWith find (pkgdb s') s' false .ok = r at hloop ⊢
  obtain ⟨s'', newpkgFound, rv⟩ := r
  obtain ⟨rfl, rfl⟩ := Prod.mk.inj hloop
  -- the last result is not the end of the process
  have hne : ((findResults find (pkgdb s') s').getLast?.map Rv.soften).getD .ok ≠ .abort := by
    cases hlast : (findResults find (pkgdb s') s').getLast? with
    | none => simp
    | some last =>
      have hmem := List.mem_of_getLast? hlast
      rw [Option.map_some, Option.getD_some, Rv.soften]
      split
      · simp
      · rintro rfl
        exact hrun hmem
  cases hrv : ((findResults find (pkgdb s') s').getLast?.map Rv.soften).getD .ok with
  | abort => exact absurd hrv hne
  | ok => simp only [List.contains_iff_mem]
  | err e => simp only [List.contains_iff_mem]

/-- An error other than `EEXIST` is always allowed. -/
theorem updateReports_of_err {results : List Rv} {e : Errno} (he : e ≠ .eexist) :
    UpdateReports results (.err e) := by
  refine ⟨fun _ => ⟨e, rfl, he⟩, ?_, ?_⟩
  · intro h
    cases h
  · intro h
    rw [Rv.err.injEq] at h
    exact absurd h he

/-- Without a failure the two other results say whether an update was queued. -/
theorem updateReports_of_soft {results : List Rv} (hnone : ∀ r ∈ results, r.isHard = false) :
    UpdateReports results (if .ok ∈ results then .ok else .err .eexist) := by
  refine ⟨?_, fun h => ⟨hnone, ?_⟩, fun h => ⟨hnone, ?_⟩⟩
  · rintro ⟨r, hr, hr'⟩
    rw [hnone r hr] at hr'
    cases hr'
  · by_contra hok
    rw [if_neg hok] at h
    cases h
  · intro hok
    rw [if_pos hok] at h
    cases h

/-- What is returned reports the results under the condition, and only then. -/
theorem reports_iff {results : List Rv} (hrun : .abort ∉ results) :
    UpdateReports results (if .ok ∈ results then (results.getLast?.map Rv.soften).getD .ok
        else .err .eexist) ↔
      ReportsWhen results := by
  by_cases hok : .ok ∈ results
  · obtain ⟨last, hlast⟩ : ∃ last, results.getLast? = some last :=
      Option.isSome_iff_exists.mp (by simpa using List.ne_nil_of_mem hok)
    have hmem : last ∈ results := List.mem_of_getLast? hlast
    rw [if_pos hok, hlast, Option.map_some, Option.getD_some]
    cases hhard : last.isHard with
    | true =>
      -- the last failure is returned
      obtain ⟨e, rfl, he⟩ : ∃ e, last = .err e ∧ (Rv.err e).isSoft = false := by
        cases last with
        | ok => cases hhard
        | abort => exact absurd hmem hrun
        | err e => exact ⟨e, rfl, by simpa [Rv.isHard] using hhard⟩
      have hsoften : (Rv.err e).soften = .err e := by rw [Rv.soften, he, if_neg (by decide)]
      have hne : e ≠ .eexist := by
        rintro rfl
        cases he
      rw [hsoften]
      exact iff_of_true (updateReports_of_err hne) (Or.inr ⟨hok, _, hlast, hhard⟩)
    | false =>
      -- nothing is left of an earlier failure
      have hsoften : last.soften = .ok := by
        rw [Rv.soften]
        cases last with
        | ok => rfl
        | abort => exact absurd hmem hrun
        | err e =>
          have : (Rv.err e).isSoft = true := by simpa [Rv.isHard] using hhard
          rw [this, if_pos rfl]
      rw [hsoften]
      constructor
      · exact fun h => Or.inl (h.ok rfl).1
      · rintro (hnone | ⟨-, r, hr, hr'⟩)
        · have := updateReports_of_soft hnone
          rwa [if_pos hok] at this
        · rw [hlast, Option.some.injEq] at hr
          rw [← hr, hhard] at hr'
          cases hr'
  · rw [if_neg hok]
    constructor
    · exact fun h => Or.inl (h.eexist rfl).1
    · rintro (hnone | ⟨h, -⟩)
      · have := updateReports_of_soft hnone
        rwa [if_neg hok] at this
      · exact absurd h hok

end

/-- **A full update of a state** reports what `trans_find_pkg` returned under the condition, and
only then. -/
theorem updateReports_iff {env : Env} {s s' : Session} (hauto : autoupdate env s = (s', .none))
    (hnamed : ∀ p ∈ s'.st.xhp.pkgdb.values, (pkgName p.pkgver).isSome)
    {results : List Rv} (hresults : results =
      findResults (fun s pkgname => s.find env pkgname false) s'.st.xhp.pkgdb.values s')
    (hrun : .abort ∉ results) :
    UpdateReports results (transactionUpdatePackages env s).2 ↔ ReportsWhen results := by
  rw [transactionUpdatePackages_eq, updatePackagesWith_eq hauto hnamed (hresults ▸ hrun),
    ← hresults]
  exact reports_iff hrun

/-! ### Given results -/

/-- What `trans_find_pkg` returns for a package. -/
def resultOf (result : Str → Rv) (pkgd : PkgDict) : Rv := result ((pkgName pkgd.pkgver).getD [])

/-- A full update of the packages, in this order, where `trans_find_pkg` returns the given
results and `flappy_autoupdate` returns `auto`. -/
def updatePackages (result : Str → Rv) (auto : Autoupdate) (order : List PkgDict) : Rv :=
  (updatePackagesWith (fun _ pkgname => ((), result pkgname)) (fun _ => ((), auto))
    (fun _ => order) ()).2

theorem findResults_given (result : Str → Rv) {order : List PkgDict}
    (hnamed : ∀ p ∈ order, (pkgName p.pkgver).isSome) :
    findResults (fun _ pkgname => ((), result pkgname)) order () = order.map (resultOf result) := by
  induction order with
  | nil => rfl
  | cons pkgd pkgs ih =>
    obtain ⟨pkgname, hname⟩ := Option.isSome_iff_exists.mp (hnamed pkgd List.mem_cons_self)
    rw [findResults, hname, List.map_cons, resultOf, hname, Option.getD_some]
    simp only
    rw [ih fun p hp => hnamed p (List.mem_cons_of_mem _ hp)]

/-- The packages are not looked at if the package manager itself has to be updated, or cannot
be. -/
theorem updatePackages_auto {result : Str → Rv} {auto : Autoupdate} (hrun : auto ≠ .abort)
    (hauto : auto ≠ .none) (order : List PkgDict) :
    ∃ e, updatePackages result auto order = .err e ∧ e ≠ .eexist := by
  cases auto with
  | none => exact absurd rfl hauto
  | update => exact ⟨.ebusy, rfl, by decide⟩
  | error => exact ⟨.einval, rfl, by decide⟩
  | abort => exact absurd rfl hrun

theorem updatePackages_none {result : Str → Rv} {order : List PkgDict}
    (hnamed : ∀ p ∈ order, (pkgName p.pkgver).isSome)
    (hrun : .abort ∉ order.map (resultOf result)) :
    updatePackages result .none order =
      if .ok ∈ order.map (resultOf result) then
        ((order.map (resultOf result)).getLast?.map Rv.soften).getD .ok
      else .err .eexist := by
  have h := @updatePackagesWith_eq _ (fun _ pkgname => ((), result pkgname))
    (fun _ => ((), .none)) (fun _ => order) () () rfl hnamed
  rw [findResults_given result hnamed] at h
  exact h hrun

/-- Without a failure the result is the same in every order. -/
theorem updatePackages_of_soft {result : Str → Rv} {order : List PkgDict}
    (hnamed : ∀ p ∈ order, (pkgName p.pkgver).isSome)
    (hnone : ∀ r ∈ order.map (resultOf result), r.isHard = false) :
    updatePackages result .none order =
      if .ok ∈ order.map (resultOf result) then .ok else .err .eexist := by
  rw [updatePackages_none hnamed fun h => by cases hnone _ h]
  by_cases hok : .ok ∈ order.map (resultOf result)
  · rw [if_pos hok, if_pos hok]
    obtain ⟨last, hlast⟩ : ∃ last, (order.map (resultOf result)).getLast? = some last :=
      Option.isSome_iff_exists.mp (by simpa using List.ne_nil_of_mem hok)
    have hsoft := hnone last (List.mem_of_getLast? hlast)
    rw [hlast, Option.map_some, Option.getD_some, Rv.soften]
    cases hs : last.isSoft with
    | true => exact if_pos rfl
    | false =>
      rw [if_neg (by decide)]
      simpa [Rv.isHard, hs] using hsoft
  · rw [if_neg hok, if_neg hok]

/-- The condition holds in every order exactly if there is no failure at all. -/
theorem reportsWhen_orders_iff {result : PkgDict → Rv} {pkgs : List PkgDict} :
    (∀ order : List PkgDict, order.Perm pkgs → ReportsWhen (order.map result)) ↔
      ∀ p ∈ pkgs, (result p).isHard = false := by
  constructor
  · intro h p hp
    by_contra hhard
    have hmem : ∀ {order : List PkgDict}, order.Perm pkgs →
        ¬ ∀ r ∈ order.map result, r.isHard = false :=
      fun horder hnone => hhard (hnone _ (List.mem_map_of_mem (horder.mem_iff.mpr hp)))
    rcases h pkgs (List.Perm.refl _) with hnone | ⟨hok, -⟩
    · exact hmem (List.Perm.refl _) hnone
    · -- put a package with an update last
      obtain ⟨q, hq, hqok⟩ := List.mem_map.mp hok
      have horder : (pkgs.erase q ++ [q]).Perm pkgs :=
        (List.perm_append_singleton q _).trans (List.perm_cons_erase hq).symm
      rcases h _ horder with hnone | ⟨-, r, hlast, hr⟩
      · exact hmem horder hnone
      · rw [List.map_append, List.map_singleton, List.getLast?_concat, Option.some.injEq,
          hqok] at hlast
        rw [← hlast] at hr
        cases hr
  · intro hnone order horder
    refine Or.inl fun r hr => ?_
    obtain ⟨p, hp, rfl⟩ := List.mem_map.mp hr
    exact hnone p (horder.subset hp)

/-- **What a full update returns.**  In a given order it reports what happened exactly under the
condition; in every order, and with the same result, exactly if no package fails. -/
theorem updatePackages_iff (result : Str → Rv) (hresult : ∀ pkgname, result pkgname ≠ .abort)
    {auto : Autoupdate} (hauto : auto ≠ .abort) {pkgs : List PkgDict}
    (hnamed : ∀ p ∈ pkgs, (pkgName p.pkgver).isSome) :
    (∀ order, order.Perm pkgs →
        (UpdateReports (order.map (resultOf result)) (updatePackages result auto order) ↔
          auto ≠ .none ∨ ReportsWhen (order.map (resultOf result)))) ∧
      ((∀ order, order.Perm pkgs →
          UpdateReports (order.map (resultOf result)) (updatePackages result auto order) ∧
            updatePackages result auto order = updatePackages result auto pkgs) ↔
        auto ≠ .none ∨ ∀ p ∈ pkgs, (resultOf result p).isHard = false) := by
  have hrun : ∀ order : List PkgDict, .abort ∉ order.map (resultOf result) := by
    intro order h
    obtain ⟨p, -, hp⟩ := List.mem_map.mp h
    exact hresult _ hp
  have hreports : ∀ order, order.Perm pkgs →
      (UpdateReports (order.map (resultOf result)) (updatePackages result auto order) ↔
        auto ≠ .none ∨ ReportsWhen (order.map (resultOf result))) := by
    intro order horder
    by_cases ha : auto = .none
    · subst ha
      rw [updatePackages_none (fun p hp => hnamed p (horder.subset hp)) (hrun order),
        reports_iff (hrun order)]
      simp
    · -- the update of the program itself comes first and is reported alone
      obtain ⟨e, he, hne⟩ := @updatePackages_auto result auto hauto ha order
      rw [he]
      exact iff_of_true (updateReports_of_err hne) (Or.inl ha)
  refine ⟨hreports, ?_⟩
  by_cases ha : auto = .none
  · subst ha
    simp only [ne_eq, not_true_eq_false, false_or] at hreports ⊢
    constructor
    · intro h
      exact reportsWhen_orders_iff.mp fun order horder =>
        (hreports order horder).mp (h order horder).1
    · intro hnone
      -- without a hard error every order ends alike
      have hsoft : ∀ {order : List PkgDict}, order.Perm pkgs →
          ∀ r ∈ order.map (resultOf result), r.isHard = false := by
        intro order horder r hr
        obtain ⟨p, hp, rfl⟩ := List.mem_map.mp hr
        exact hnone p (horder.subset hp)
      intro order horder
      refine ⟨(hreports order horder).mpr (Or.inl (hsoft horder)), ?_⟩
      rw [updatePackages_of_soft (fun p hp => hnamed p (horder.subset hp)) (hsoft horder),
        updatePackages_of_soft hnamed (hsoft (List.Perm.refl _))]
      simp only [(horder.map (resultOf result)).mem_iff]
  · refine iff_of_true (fun order horder => ⟨(hreports order horder).mpr (Or.inl ha), ?_⟩)
      (Or.inl ha)
    cases auto with
    | none => exact absurd rfl ha
    | update => rfl
    | error => rfl
    | abort => exact absurd rfl hauto

/-- The first package fails, there is an update of the second one. -/
def oneFails : Str → Rv := fun pkgname => if pkgname = "bar".toList then .err .einval else .ok

/-- Two installed packages. -/
def barFoo : List PkgDict := [{ pkgver := "bar-1_1".toList }, { pkgver := "foo-1_1".toList }]

theorem updatePackages_iff_barFoo :
    (∀ order, order.Perm barFoo →
        (UpdateReports (order.map (resultOf oneFails)) (updatePackages oneFails .none order) ↔
          Autoupdate.none ≠ .none ∨ ReportsWhen (order.map (resultOf oneFails)))) ∧
      ((∀ order, order.Perm barFoo →
          UpdateReports (order.map (resultOf oneFails)) (updatePackages oneFails .none order) ∧
            updatePackages oneFails .none order = updatePackages oneFails .none barFoo) ↔
        Autoupdate.none ≠ .none ∨ ∀ p ∈ barFoo, (resultOf oneFails p).isHard = false) :=
  updatePackages_iff oneFails
    (by
      intro pkgname
      rw [oneFails]
      split <;> exact fun h => nomatch h)
    (by decide) (by decide)

/-- The failure is lost if the package comes first, and is returned if it comes last; a failure
alone is `EEXIST`. -/
theorem failure_masked :
    (resultOf oneFails { pkgver := "bar-1_1".toList }).isHard = true ∧
      updatePackages oneFails .none barFoo = .ok ∧
      updatePackages oneFails .none barFoo.reverse = .err .einval ∧
      updatePackages oneFails .none [{ pkgver := "bar-1_1".toList }] = .err .eexist := by
  decide

end Flappy
