/-
The modes of a package: automatic-install, hold and repolock.

An update replaces the record of a package by that of the new version, so the
modes have to be carried over.  `trans_find_pkg` copies all three from the
installed package it consulted to the dictionary in the repository; `repo_deps`
passes automatic-install on to the store, does nothing to packages on hold, and
leaves the repolock behind.  The `replaces` pass takes automatic-install away from
an entry that replaces a package installed by hand.

* `FindSame`, `LookSame` — the installed package that is consulted is the one that
  gets updated;
* `modes_kept` — if it always is, the modes survive the whole way from the requests
  to the record in the database;
* `modes_lost` — two runs in which they do not survive.
-/
import Flappy.Commit
import Flappy.Prepare

open CStr

namespace Flappy

/-- The entry updates or reinstalls its package. -/
def Renews (e : PkgDict) : Prop := e.transaction = .update ∨ e.transaction = .reinstall

instance (e : PkgDict) : Decidable (Renews e) := inferInstanceAs (Decidable (_ ∨ _))

/-- The installed package `n`, if this is a version of it. -/
def installedOf (xhp : Handle) (n pkgver : Str) : Option PkgDict :=
  if pkgName pkgver = some n then xhp.pkgdb.get n else none

/-- What is relied on: the packages have their own names, and those of the repositories have
no modes. -/
structure ModesOk (env : Env) (xhp : Handle) : Prop where
  names : ∀ p ∈ xhp.pkgdb.values, NameOk p
  fresh : ∀ d, env.Fresh d → NameOk d ∧ d.automaticInstall = none ∧ d.hold = none ∧
    d.repolock = none

/-- At this call of `trans_find_pkg`, if a version of the installed package `n` is found in the
repositories, it is the installed `n` that is consulted. -/
def FindSame (env : Env) (n : Str) (c : FindCall) : Prop :=
  ∀ st₁ found d, transLookup env c.st c.pkg c.force = (st₁, .ok found) →
    st₁.pool.get found.pkgRepod = some d →
    ∀ q ∈ found.pkgPkgdb, ∀ p ∈ installedOf c.st.xhp n d.pkgver, q = p

/-- At this dependency, if it leads to an update of the installed package `n`, it is the
installed `n` that is consulted. -/
def LookSame (env : Env) (n : Str) (l : Look) : Prop :=
  ∀ st₁ q autoinst st₂ ref d,
    depInstalled l.st l.queued l.pkgRepod l.reqpkg = (st₁, .resolve (some q) .update autoinst) →
    depLookup env st₁ (some q) l.reqpkg = (st₂, some ref) → st₂.pool.get ref = some d →
    ∀ p ∈ installedOf l.st.xhp n d.pkgver, q = p

/-- One of the dependencies led to this package in the repositories. -/
def PulledIn (env : Env) (looks : List Look) (pkgver : Str) : Prop :=
  ∃ l ∈ looks, ∃ st₁ curpkgd ttype autoinst st₂ ref d,
    depInstalled l.st l.queued l.pkgRepod l.reqpkg = (st₁, .resolve curpkgd ttype autoinst) ∧
      depLookup env st₁ curpkgd l.reqpkg = (st₂, some ref) ∧
      st₂.pool.get ref = some d ∧ d.pkgver = pkgver

/-- In the course of the `replaces` pass on `pkgs`, a pattern of the entry finds another
package that was installed by hand. -/
def ReplacesManual (xhp : Handle) (pkgs : List PkgDict) (e : PkgDict) : Prop :=
  ∃ m, ∃ pattern ∈ e.replaces.getD [], ∃ instd inArray n,
    FindsReplaced xhp (Walk.run xhp m { pkgs }).pkgs pattern instd inArray n ∧
      pkgName e.pkgver ≠ some n ∧ instd.automaticInstall.getD false = false

/-- A dictionary of the repositories: its modes are not set, or those of the installed
package, if it is a version of `n`. -/
structure ModesKnown (xhp : Handle) (n : Str) (d : PkgDict) : Prop where
  name : NameOk d
  automaticInstall : ∀ p ∈ installedOf xhp n d.pkgver,
    d.automaticInstall = none ∨ d.automaticInstall = p.automaticInstall
  hold : ∀ p ∈ installedOf xhp n d.pkgver, d.hold = none ∨ d.hold = p.hold
  repolock : ∀ p ∈ installedOf xhp n d.pkgver, d.repolock = none ∨ d.repolock = p.repolock

/-- An entry that updates or reinstalls the package `n` has its modes; `pulled` entries may lack
the repolock and `dropped` ones automatic-install. -/
structure EntryModes (pulled : Str → Prop) (dropped : PkgDict → Prop) (xhp : Handle) (n : Str)
    (e : PkgDict) : Prop where
  name : NameOk e
  pkgname : Renews e → e.pkgname.isSome
  automaticInstall : Renews e → ∀ p ∈ installedOf xhp n e.pkgver,
    e.automaticInstall.getD false = p.automaticInstall.getD false ∨
      e.automaticInstall = none ∧ dropped e
  hold : Renews e → ∀ p ∈ installedOf xhp n e.pkgver, e.hold = p.hold
  repolock : Renews e → ∀ p ∈ installedOf xhp n e.pkgver, e.repolock = p.repolock ∨ pulled e.pkgver

instance (d : PkgDict) : Decidable (NameOk d) :=
  decidable_of_iff (∀ n ∈ d.pkgname, pkgName d.pkgver = some n) Iff.rfl

instance (env : Env) (n : Str) (c : FindCall) : Decidable (FindSame env n c) :=
  match hf : transLookup env c.st c.pkg c.force with
  | (st₁, .error _) => isTrue fun _ _ _ h => by cases hf.symm.trans h
  | (st₁, .ok found) =>
    match hd : st₁.pool.get found.pkgRepod with
    | none => isTrue fun _ _ _ h h' => by cases hf.symm.trans h; cases hd.symm.trans h'
    | some d =>
      decidable_of_iff (∀ q ∈ found.pkgPkgdb, ∀ p ∈ installedOf c.st.xhp n d.pkgver, q = p)
        ⟨fun hok _ _ _ h h' => by cases hf.symm.trans h; cases hd.symm.trans h'; exact hok,
          fun hok => hok st₁ found d hf hd⟩

instance (env : Env) (n : Str) (l : Look) : Decidable (LookSame env n l) :=
  match hi : depInstalled l.st l.queued l.pkgRepod l.reqpkg with
  | (st₁, .resolve (some q) .update autoinst) =>
    match hk : depLookup env st₁ (some q) l.reqpkg with
    | (_, none) => isTrue fun _ _ _ _ _ _ h h' => by cases hi.symm.trans h; cases hk.symm.trans h'
    | (st₂, some ref) =>
      match hd : st₂.pool.get ref with
      | none => isTrue fun _ _ _ _ _ _ h h' h'' => by
          cases hi.symm.trans h; cases hk.symm.trans h'; cases hd.symm.trans h''
      | some d =>
        decidable_of_iff (∀ p ∈ installedOf l.st.xhp n d.pkgver, q = p)
          ⟨fun hok _ _ _ _ _ _ h h' h'' => by
            cases hi.symm.trans h; cases hk.symm.trans h'; cases hd.symm.trans h''; exact hok,
            fun hok => hok st₁ q autoinst st₂ ref d hi hk hd⟩
  | (_, .resolve none _ _) | (_, .resolve (some _) .unknown _) | (_, .resolve (some _) .install _)
  | (_, .resolve (some _) .reinstall _) | (_, .resolve (some _) .configure _)
  | (_, .resolve (some _) .remove _) | (_, .resolve (some _) .hold _)
  | (_, .resolve (some _) .download _) | (_, .fail _) | (_, .skip) | (_, .missing)
  | (_, .configure _) => isTrue fun _ _ _ _ _ _ h => by cases hi.symm.trans h

/-! ### The installed package -/

theorem mem_installedOf {xhp : Handle} {n pkgver : Str} {p : PkgDict} :
    p ∈ installedOf xhp n pkgver ↔ pkgName pkgver = some n ∧ xhp.pkgdb.get n = some p := by
  rw [installedOf, Option.mem_ite_none_right]
  rfl

theorem SameDb.installedOf {a b : Handle} (h : SameDb a b) {n pkgver : Str} {p : PkgDict}
    (hp : p ∈ installedOf a n pkgver) : ∃ p' ∈ installedOf b n pkgver, p'.core = p.core := by
  obtain ⟨hn, hget⟩ := mem_installedOf.mp hp
  obtain ⟨p', hp', hc⟩ := h.symm.get_some hget
  exact ⟨p', mem_installedOf.mpr ⟨hn, hp'⟩, hc⟩

theorem SameDb.nameOk {a b : Handle} (h : SameDb a b) (ha : ∀ p ∈ a.pkgdb.values, NameOk p) :
    ∀ p ∈ b.pkgdb.values, NameOk p := by
  intro p hp n hn
  obtain ⟨k, hk⟩ := Dict.mem_values_iff.mp hp
  obtain ⟨p', hp', hc⟩ := h.get_some hk
  obtain ⟨hver, hname, -⟩ := PkgDict.of_core_eq hc
  rw [← hver]
  exact ha p' (Dict.mem_values_of_get hp') n (hname.trans hn)

/-- An entry that neither updates nor reinstalls anything. -/
theorem EntryModes.of_not_renews {pulled : Str → Prop} {dropped : PkgDict → Prop} {xhp : Handle}
    {n : Str} {e : PkgDict} (hn : NameOk e) (h : ¬ Renews e) : EntryModes pulled dropped xhp n e :=
  ⟨hn, fun hr => absurd hr h, fun hr => absurd hr h, fun hr => absurd hr h,
    fun hr => absurd hr h⟩

/-- The name of an entry that is updated or reinstalled. -/
theorem EntryModes.pkgname_eq {pulled : Str → Prop} {dropped : PkgDict → Prop} {xhp : Handle}
    {e : PkgDict} {k n : Str} (h : EntryModes pulled dropped xhp k e) (hr : Renews e)
    (hn : pkgName e.pkgver = some n ∨ e.pkgname = some n) :
    e.pkgname = some n ∧ pkgName e.pkgver = some n := by
  rcases hn with hn | hn
  · obtain ⟨m, hm⟩ := Option.isSome_iff_exists.mp (h.pkgname hr)
    obtain rfl := Option.some.inj (hn.symm.trans (h.name m hm))
    exact ⟨hm, hn⟩
  · exact ⟨hn, h.name n hn⟩

/-! ### Requests -/

variable {env : Env} {xhp : Handle} {n : Str}

theorem or_eq_of_known {α : Type} {a b : Option α} (h : b = none ∨ b = a) : a.or b = a := by
  rcases h with rfl | rfl
  · exact Option.or_none
  · exact Option.or_self

/-- The modes of the installed package that was consulted have reached the dictionary. -/
theorem ModesKnown.respect {c : FindCall} {st₁ : State} {found : Found} {d q p : PkgDict}
    (h : ModesKnown xhp n d) (hok : FindSame env n c) (hdb : SameDb xhp c.st.xhp)
    (hfound : transLookup env c.st c.pkg c.force = (st₁, .ok found))
    (hd : st₁.pool.get found.pkgRepod = some d) (hq : found.pkgPkgdb = some q)
    (hp : p ∈ installedOf xhp n d.pkgver) :
    (Flappy.respect found.pkgPkgdb d).automaticInstall = p.automaticInstall ∧
      (Flappy.respect found.pkgPkgdb d).hold = p.hold ∧
      (Flappy.respect found.pkgPkgdb d).repolock = p.repolock := by
  obtain ⟨p', hp', hc⟩ := hdb.installedOf hp
  obtain ⟨-, -, hauto, hhold, hlock, -⟩ := PkgDict.of_core_eq hc
  obtain rfl := hok st₁ found d hfound hd q hq p' hp'
  rw [hq, ← hauto, ← hhold, ← hlock]
  refine ⟨or_eq_of_known ?_, or_eq_of_known ?_, or_eq_of_known ?_⟩
  · rw [hauto]
    exact h.automaticInstall p hp
  · rw [hhold]
    exact h.hold p hp
  · rw [hlock]
    exact h.repolock p hp

theorem nameOk_respect {p : Option PkgDict} {d : PkgDict} (h : NameOk d) : NameOk (respect p d) := by
  intro n hn
  rw [respect_pkgver]
  rw [respect_pkgname] at hn
  exact h n hn

/-- An entry for a package that is not installed has another type. -/
theorem pkgPkgdb_isSome_of_renews {st st₁ : State} {pkg : Str} {force : Bool} {found : Found}
    {d : PkgDict} {ttype : TransType}
    (hfound : transLookup env st pkg force = (st₁, .ok found))
    (hc : transCompare found d = some ttype) (ht : ttype ≠ .install) :
    ∃ q, found.pkgPkgdb = some q := by
  have hspec := transLookup_spec env st pkg force
  rw [hfound] at hspec
  cases hq : found.pkgPkgdb with
  | some q => exact ⟨q, rfl⟩
  | none =>
    have hinstall := hspec.ttype found rfl hq
    rw [transCompare, hinstall, hq] at hc
    exact absurd (Option.some.inj hc).symm ht

theorem renews_transType {ttype : TransType} {state : PkgState} {d : PkgDict} {force : Bool}
    (h : transType ttype state d force = .update ∨ transType ttype state d force = .reinstall) :
    transType ttype state d force = ttype ∧ ttype ≠ .install := by
  rw [transType] at h ⊢
  by_cases hs : state = .notInstalled
  · simp only [if_pos hs] at h
    split at h
    · simp at h
    · simp at h
  · simp only [if_neg hs] at h ⊢
    split at h
    · simp at h
    · next hh =>
      rw [if_neg hh]
      refine ⟨rfl, ?_⟩
      rintro rfl
      simp at h

/-- An entry that renews its package comes from a request that consulted it. -/
theorem ModesKnown.queued {c : FindCall} {st₁ : State} {found : Found} {d : PkgDict}
    {ttype : TransType} {state : PkgState} (h : ModesKnown xhp n d) (hok : FindSame env n c)
    (hdb : SameDb xhp c.st.xhp) (hfound : transLookup env c.st c.pkg c.force = (st₁, .ok found))
    (hd : st₁.pool.get found.pkgRepod = some d) (hc : transCompare found d = some ttype)
    (hr : Renews (queuedDict (Flappy.respect found.pkgPkgdb d) ttype state c.force)) :
    queuedAuto c.st.xhp (queuedDict (Flappy.respect found.pkgPkgdb d) ttype state c.force) = false ∧
      ∀ p ∈ installedOf xhp n (Flappy.respect found.pkgPkgdb d).pkgver,
        (Flappy.respect found.pkgPkgdb d).automaticInstall = p.automaticInstall ∧
          (Flappy.respect found.pkgPkgdb d).hold = p.hold ∧
          (Flappy.respect found.pkgPkgdb d).repolock = p.repolock := by
  obtain ⟨ht, hni⟩ := renews_transType hr
  obtain ⟨q, hq⟩ := pkgPkgdb_isSome_of_renews hfound hc hni
  constructor
  · have htype : (queuedDict (Flappy.respect found.pkgPkgdb d) ttype state c.force).transaction =
        ttype := ht
    rw [queuedAuto, htype, decide_eq_false hni, Bool.false_and]
  · intro p hp
    rw [respect_pkgver] at hp
    exact h.respect hok hdb hfound hd hq hp

/-! ### Dependencies -/

/-- What a decision to update says: automatic-install is passed on, and there is no hold. -/
def DepAction.PassesOn : DepAction → Prop
  | .resolve curpkgd ttype autoinst => ttype ≠ .reinstall ∧ (ttype = .update →
      ∃ q, curpkgd = some q ∧ q.hold = none ∧ autoinst = q.automaticInstall.getD false)
  | .fail _ | .skip | .missing | .configure _ => True

theorem depSatisfied_passesOn (curpkgd : PkgDict) (foundvpkg : Bool) (pkgname reqpkg : Str) :
    (depSatisfied curpkgd foundvpkg pkgname reqpkg).PassesOn := by
  rw [depSatisfied]
  split
  · trivial
  · split
    · trivial
    · split
      · split
        · trivial
        · split
          · trivial
          · next hh =>
            split
            · exact ⟨by simp, fun _ => ⟨curpkgd, rfl, by simpa using hh, rfl⟩⟩
            · exact ⟨by simp, fun h => by cases h⟩
      · split
        · trivial
        · trivial
        · exact ⟨by simp, fun h => by cases h⟩

theorem depInstalled_passesOn (st : State) (queued : List PkgDict) (pkgRepod : PkgDict)
    (reqpkg : Str) : (depInstalled st queued pkgRepod reqpkg).2.PassesOn := by
  rw [depInstalled]
  split
  · trivial
  · split
    · trivial
    · split
      · trivial
      · split
        · trivial
        · split
          · trivial
          · simp only
            split
            · exact depSatisfied_passesOn _ _ _ _
            · split
              · trivial
              · exact ⟨by simp, fun h => by cases h⟩

theorem depType_eq {curpkgd : Option PkgDict} {ttype : TransType}
    (h : depType xhp curpkgd ttype = .update ∨ depType xhp curpkgd ttype = .reinstall) :
    depType xhp curpkgd ttype = ttype := by
  rw [depType] at h ⊢
  split at h
  · simp at h
  · next hd =>
    rw [if_neg hd]
    split at h
    · simp at h
    · next hh => rw [if_neg hh]

/-- An update consults the package it updates. -/
theorem LookSame.consults {l : Look} {xhp' : Handle} {st₁ st₂ : State} {curpkgd : Option PkgDict}
    {ttype : TransType} {autoinst : Bool} {ref : PkgRef} {d d' p : PkgDict} (hok : LookSame env n l)
    (hl : SameDb xhp l.st.xhp)
    (h₁ : depInstalled l.st l.queued l.pkgRepod l.reqpkg = (st₁, .resolve curpkgd ttype autoinst))
    (h₂ : depLookup env st₁ curpkgd l.reqpkg = (st₂, some ref)) (hd : st₂.pool.get ref = some d)
    (hev : Evolves d d')
    (hr : depType xhp' curpkgd ttype = .update ∨ depType xhp' curpkgd ttype = .reinstall)
    (hp : p ∈ installedOf xhp n d'.pkgver) :
    p.hold = none ∧ autoinst = p.automaticInstall.getD false := by
  have hspec := depInstalled_passesOn l.st l.queued l.pkgRepod l.reqpkg
  rw [h₁] at hspec
  rw [depType_eq hr] at hr
  obtain rfl : ttype = .update := hr.resolve_right hspec.1
  obtain ⟨q, rfl, hhold, hauto⟩ := hspec.2 rfl
  rw [hev.pkgver] at hp
  obtain ⟨p', hp', hc⟩ := hl.installedOf hp
  obtain rfl := hok st₁ q autoinst st₂ ref d h₁ h₂ hd p' hp'
  obtain ⟨-, -, hauto', hhold', -⟩ := PkgDict.of_core_eq hc
  exact ⟨hhold'.symm.trans hhold, hauto' ▸ hauto⟩

/-- Requests and dependencies carry the modes over. -/
theorem entryModes_rule (hm : ModesOk env xhp) (looks : List Look) :
    DictRule env xhp true (FindSame env n) (fun l => LookSame env n l ∧ l ∈ looks)
      (ModesKnown xhp n) (EntryModes (PulledIn env looks) (fun _ => False) xhp n) where
  fresh hf := by
    obtain ⟨hn, ha, hh, hl⟩ := hm.fresh _ hf
    exact ⟨hn, fun _ _ => Or.inl ha, fun _ _ => Or.inl hh, fun _ _ => Or.inl hl⟩
  evolves {d d'} hd h := by
    obtain ⟨ha, hh, hl⟩ := h.modes
    refine ⟨hd.name.evolves h, ?_, ?_, ?_⟩
    · rw [ha, h.pkgver]
      exact hd.automaticInstall
    · rw [hh, h.pkgver]
      exact hd.hold
    · rw [hl, h.pkgver]
      exact hd.repolock
  runDepends _ h := ⟨h.name, h.pkgname, h.automaticInstall, h.hold, h.repolock⟩
  installed {xhp' pkgd ttype pkgname} autoinst hdb hp ht _ := by
    -- an entry that is removed or configured renews nothing
    refine EntryModes.of_not_renews (hdb.nameOk hm.names pkgd hp) ?_
    rintro (h | h)
    · rcases ht with rfl | rfl
      · cases h
      · cases h
    · rcases ht with rfl | rfl
      · cases h
      · cases h
  found {c st₁ found d} _ hok hdb hfound hd h := by
    cases hq : found.pkgPkgdb with
    | none => exact h
    | some q =>
      have hmodes : ∀ p ∈ installedOf xhp n (respect (some q) d).pkgver, _ := fun p hp =>
        hq ▸ h.respect hok hdb hfound hd hq hp
      exact ⟨nameOk_respect h.name, fun p hp => Or.inr (hmodes p hp).1,
        fun p hp => Or.inr (hmodes p hp).2.1, fun p hp => Or.inr (hmodes p hp).2.2⟩
  queued {c st₁ found d ttype state pkgname} _ hok hdb hfound hd h hc hn := by
    have hpkgname : (respect found.pkgPkgdb d).pkgname = some pkgname :=
      (respect_pkgname _ d).trans hn
    refine ⟨nameOk_respect h.name, fun _ => Option.isSome_iff_exists.mpr ⟨pkgname, hpkgname⟩,
      fun hr p hp => Or.inl ?_, fun hr p hp => ?_, fun hr p hp => Or.inl ?_⟩
    all_goals obtain ⟨hauto, hmodes⟩ := h.queued hok hdb hfound hd hc hr
    · show (if queuedAuto c.st.xhp _ = true then some true else
        (respect found.pkgPkgdb d).automaticInstall).getD false = _
      rw [hauto, if_neg (by simp), (hmodes p hp).1]
    · exact (hmodes p hp).2.1
    · exact (hmodes p hp).2.2
  resolved {l xhp' st₁ st₂ curpkgd ttype autoinst ref d d' pkgname} hok hl hdb h₁ h₂ hd hev h hn := by
    refine ⟨h.name, fun _ => Option.isSome_iff_exists.mpr ⟨pkgname, hn⟩, fun hr p hp => Or.inl ?_,
      fun hr p hp => ?_, fun _ _ _ => Or.inr ⟨l, hok.2, st₁, curpkgd, ttype, autoinst, st₂, ref, d,
        h₁, h₂, hd, hev.pkgver.symm⟩⟩
    · -- the mode is the installed package's or the resolver's, and the two agree
      obtain ⟨-, hauto⟩ := hok.1.consults hl h₁ h₂ hd hev hr hp
      show (if autoinst = true then some true else d'.automaticInstall).getD false = _
      cases ha : autoinst with
      | true =>
        rw [if_pos rfl, ← hauto, ha]
        rfl
      | false =>
        rw [if_neg (by simp)]
        rcases h.automaticInstall p hp with hd' | hd'
        · rw [hd', ← hauto, ha]
          rfl
        · rw [hd']
    · obtain ⟨hhold, -⟩ := hok.1.consults hl h₁ h₂ hd hev hr hp
      show d'.hold = p.hold
      rcases h.hold p hp with hd' | hd'
      · rw [hd', hhold]
      · exact hd'

/-! ### The `replaces` pass -/

theorem Walk.done_of_step {w w' : Walk} (h : w.step xhp = some w') : w.done = none := by
  rw [Walk.step] at h
  split at h
  · cases h
  · next hd => simpa using hd

/-- What a pattern finds has its own name. -/
theorem FindsReplaced.nameOk {pkgs : List PkgDict} {pattern n : Str} {instd : PkgDict}
    {inArray : Bool} (hf : FindsReplaced xhp pkgs pattern instd inArray n)
    (hnames : ∀ p ∈ xhp.pkgdb.values, NameOk p) (h : ∀ e ∈ pkgs, NameOk e) : NameOk instd := by
  cases inArray with
  | false => exact hnames instd (mem_of_replacedCandidate hf.candidate)
  | true => exact h instd (List.mem_of_find?_eq_some (find?_of_replacedCandidate hf.candidate).1)

/-- A marked entry is a removal under its own name. -/
theorem MarkedFrom.entryModes {pulled : Str → Prop} {dropped : PkgDict → Prop} {xhp₀ : Handle}
    {pkgs : List PkgDict} {instd x : PkgDict} {n : Str} (hm : MarkedFrom pkgs instd n x)
    (hinstd : NameOk instd) (h : ∀ e ∈ pkgs, NameOk e) : EntryModes pulled dropped xhp₀ k x := by
  refine EntryModes.of_not_renews ?_ ?_
  · obtain ⟨y, hxy, hy⟩ := hm
    have hver : (dropAutomaticInstall x).pkgver = (dropAutomaticInstall (markReplaced y)).pkgver :=
      congrArg PkgDict.pkgver hxy
    have hname : (dropAutomaticInstall x).pkgname =
        (dropAutomaticInstall (markReplaced y)).pkgname := congrArg PkgDict.pkgname hxy
    have hok : NameOk y := by
      rcases hy with rfl | hy
      · exact hinstd
      · exact h y (List.mem_of_find?_eq_some hy)
    intro m hx
    rw [show x.pkgver = y.pkgver from hver]
    exact hok m (hname.symm.trans hx)
  · rw [Renews, hm.remove]
    simp

/-- The pass, from the array `pkgs₀` on, takes nothing but automatic-install away, and only
from entries that replace a package installed by hand. -/
theorem Walk.run_entryModes {pulled : Str → Prop} {xhp₀ : Handle} {k : Str} {pkgs₀ : List PkgDict}
    (hnames : ∀ p ∈ xhp.pkgdb.values, NameOk p)
    (h₀ : ∀ e ∈ pkgs₀, EntryModes pulled (fun _ => False) xhp₀ k e) (n : Nat) :
    (Walk.run xhp n { pkgs := pkgs₀ }).VisitOk ∧ ∀ e ∈ (Walk.run xhp n { pkgs := pkgs₀ }).pkgs,
      EntryModes pulled (ReplacesManual xhp pkgs₀) xhp₀ k e := by
  induction n with
  | zero =>
    refine ⟨fun pos left _ hv => (by cases hv), fun e he => ?_⟩
    have h := h₀ e he
    exact ⟨h.name, h.pkgname, fun hr p hp => Or.inl ((h.automaticInstall hr p hp).resolve_right
      And.right), h.hold, h.repolock⟩
  | succ n ih =>
    obtain ⟨hvisit, hentries⟩ := ih
    rw [Walk.run_succ]
    cases hs : (Walk.run xhp n { pkgs := pkgs₀ }).step xhp with
    | none => exact ⟨hvisit, hentries⟩
    | some w' =>
      have hnameOk : ∀ e ∈ (Walk.run xhp n { pkgs := pkgs₀ }).pkgs, NameOk e := fun e he =>
        (hentries e he).name
      refine ⟨Walk.step_visitOk hnameOk hvisit hs, fun x hx => ?_⟩
      rw [Option.getD_some] at hx
      rcases Walk.step_pkgs hs with hw | ⟨pos, pattern, rest, obj, hv, hobj, hw⟩
      · exact hentries x (hw ▸ hx)
      · rw [hw] at hx
        rcases mem_applyReplace hobj hx with hx | ⟨rfl, instd, inArray, m, hf, hother, hauto⟩ |
          ⟨instd, inArray, m, hf, hmark⟩
        · exact hentries x hx
        · -- the current entry loses its automatic-install
          have h := hentries obj (List.mem_of_getElem? hobj)
          obtain ⟨obj', hobj', hleft⟩ := hvisit pos _ (Walk.done_of_step hs) hv
          obtain rfl := Option.some.inj (hobj.symm.trans hobj')
          exact ⟨h.name, h.pkgname, fun _ _ _ => Or.inr ⟨rfl, n, pattern,
            hleft List.mem_cons_self, instd, inArray, m, hf, hother, hauto⟩, h.hold, h.repolock⟩
        · exact hmark.entryModes (hf.nameOk hnames hnameOk) hnameOk

/-! ### From the requests to the record -/

/-- **Modes survive updates.**  Take any requests.  If the lookups that lead to a version of
an installed package have consulted that package, and the prepared transaction updates or
reinstalls it, and does nothing else to it, then it has after the commit the hold and the
automatic-install that it had before, unless its new version replaces a package installed by
hand; and its repolock, unless a dependency has led to the new version. -/
theorem modes_kept (env : Env) (orphansOf : Handle → Str → Option (List Str)) (xhp : Handle)
    (repositories : List Str) (reqs : List Req) (s : Session)
    (hs : s = (Session.start xhp repositories).requests env orphansOf reqs)
    (hm : ModesOk env xhp) (n : Str) (hfind : ∀ c ∈ s.calls, FindSame env n c)
    (hlook : ∀ l ∈ (prepareDeps env s.st).2.1, LookSame env n l) (stats : State → Rv) (fuel : Nat)
    (st' : State) (rv : Rv) (hprep : transactionPrepare env stats fuel s.st = some (st', rv))
    (cenv : CommitEnv) (xhp' : Handle)
    (hcommit : commitLoop cenv st'.xhp st'.packages = .ok xhp') (p : PkgDict)
    (hp : xhp.pkgdb.get n = some p) (hsome : ∃ e ∈ st'.packages, Touches n e)
    (honly : ∀ e ∈ st'.packages, Touches n e → Renews e) :
    ∃ e ∈ st'.packages, ∃ r, Touches n e ∧ xhp'.pkgdb.get n = some r ∧ r.pkgver = e.pkgver ∧
      r.hold = p.hold ∧
      (r.automaticInstall.getD false = p.automaticInstall.getD false ∨
        r.automaticInstall = none ∧ ReplacesManual (prepareDeps env s.st).1.xhp
          (prepareDeps env s.st).1.packages e) ∧
      (r.repolock = p.repolock ∨ PulledIn env (prepareDeps env s.st).2.1 e.pkgver) := by
  obtain ⟨-, hdeps⟩ := (entryModes_rule hm (prepareDeps env s.st).2.1).prepared orphansOf
    repositories hs (fun _ _ _ => rfl) hfind fun l hl => ⟨hlook l hl, hl⟩
  -- the entries of the prepared transaction
  have hwalk := Walk.run_entryModes (hdeps.db.nameOk hm.names) hdeps.entries
  have hentries : ∀ e ∈ st'.packages, EntryModes (PulledIn env (prepareDeps env s.st).2.1)
      (ReplacesManual (prepareDeps env s.st).1.xhp (prepareDeps env s.st).1.packages) xhp n e := by
    intro e he
    rcases transactionPrepare_packages hprep with h | h | h
    · rw [h] at he
      exact (hwalk 0).2 e he
    · rw [h] at he
      exact (hwalk fuel).2 e he
    · rw [h] at he
      cases he
  -- the record comes from one of them
  obtain ⟨-, ⟨-, hnone⟩ | ⟨e, he, ht, hget⟩⟩ := get_commitLoop hcommit fun e he ht =>
    ⟨((hentries e he).pkgname_eq (honly e he ht) ht.2.2).1, honly e he ht⟩
  · obtain ⟨e, he, ht⟩ := hsome
    exact absurd ht (hnone e he)
  · have h := hentries e he
    have hr := honly e he ht
    have hin : p ∈ installedOf xhp n e.pkgver :=
      mem_installedOf.mpr ⟨(h.pkgname_eq hr ht.2.2).2, hp⟩
    exact ⟨e, he, _, ht, hget, rfl, h.hold hr p hin, h.automaticInstall hr p hin,
      h.repolock hr p hin⟩

/-- What one would like to hold of every run: the modes of a package that is updated or
reinstalled are those it had before. -/
def ModesSurvive (env : Env) (xhp : Handle) (repositories : List Str) (reqs : List Req) : Prop :=
  ∀ orphansOf stats fuel st' cenv xhp' n p r,
    transactionPrepare env stats fuel
      ((Session.start xhp repositories).requests env orphansOf reqs).st = some (st', .ok) →
    commitLoop cenv st'.xhp st'.packages = .ok xhp' → xhp.pkgdb.get n = some p →
    (∃ e ∈ st'.packages, Touches n e) → (∀ e ∈ st'.packages, Touches n e → Renews e) →
    xhp'.pkgdb.get n = some r →
    r.automaticInstall.getD false = p.automaticInstall.getD false ∧ r.hold = p.hold ∧
      r.repolock = p.repolock

/-- A repository: the new version of `x` takes the place of `y`, and `z` needs the new version
of `a`. -/
def modesRepo : Dict Str PkgDict :=
  ⟨[("a".toList, { pkgver := "a-2_1".toList }),
    ("x".toList, { pkgver := "x-2_1".toList, provides := some ["y-1_1".toList]
                   replaces := some ["y>=0".toList] }),
    ("z".toList, { pkgver := "z-1_1".toList, runDepends := some ["a>=2".toList]
                   runDependsId := 1 })], by decide⟩

def modesEnv : Env := { repoOpen := fun uri => if uri = "r".toList then some modesRepo else none }

/-- `a` and `x` were installed automatically, `y` by hand, and `a` is locked to the
repository. -/
def modesDemo : Handle :=
  { pkgdb := ⟨[
      ("a".toList, { pkgver := "a-1_1".toList, pkgname := some "a".toList
                     repository := some "r".toList, state := some .installed
                     automaticInstall := some true, repolock := some true }),
      ("x".toList, { pkgver := "x-1_1".toList, pkgname := some "x".toList
                     repository := some "r".toList, state := some .installed
                     automaticInstall := some true }),
      ("y".toList, { pkgver := "y-1_1".toList, pkgname := some "y".toList
                     repository := some "r".toList, state := some .installed })], by decide⟩ }

def modesCommit : CommitEnv := { installDate := some "2020-01-01 00:00 UTC".toList }

theorem modesOk_modesDemo : ModesOk modesEnv modesDemo := by
  refine ⟨by decide, ?_⟩
  rintro d ⟨uri, idx, h, hd⟩
  have hall : ∀ d ∈ modesRepo.values, NameOk d ∧ d.automaticInstall = none ∧ d.hold = none ∧
    d.repolock = none := by decide
  simp only [modesEnv] at h
  split at h
  · obtain rfl := Option.some.inj h
    exact hall d hd
  · cases h

def modesSession (reqs : List Req) : Session :=
  (Session.start modesDemo ["r".toList]).requests modesEnv (fun _ _ => none) reqs

/-- The prepared transaction, and the database after the commit. -/
def modesRun (reqs : List Req) : Option (State × Handle) :=
  (transactionPrepare modesEnv (fun _ => .ok) 100 (modesSession reqs).st).bind fun r =>
    if r.2 = .ok then
      match commitLoop modesCommit r.1.xhp r.1.packages with
      | .ok xhp' => some (r.1, xhp')
      | .error _ => none
    else none

theorem modesRun_spec {reqs : List Req} {st' : State} {xhp' : Handle}
    (h : modesRun reqs = some (st', xhp')) :
    transactionPrepare modesEnv (fun _ => .ok) 100 (modesSession reqs).st = some (st', .ok) ∧
      commitLoop modesCommit st'.xhp st'.packages = .ok xhp' := by
  obtain ⟨⟨st, rv⟩, hprep, hr⟩ := Option.bind_eq_some_iff.mp h
  simp only at hr
  split at hr
  · next hrv =>
    split at hr
    · next xhp₁ hc =>
      simp only [Option.some.injEq, Prod.mk.injEq] at hr
      obtain ⟨rfl, rfl⟩ := hr
      exact ⟨by rw [hprep, hrv], hc⟩
    · cases hr
  · cases hr

/-- The entries of the prepared transaction for the package `n`, and its record after the
commit. -/
def modesOf (reqs : List Req) (n : Str) :
    Option (List (Str × TransType) × Option (Option Bool × Option Bool × Option Bool)) :=
  (modesRun reqs).map fun r =>
    ((r.1.packages.filter fun e => Touches n e).map fun e => (e.pkgver, e.transaction),
      (r.2.pkgdb.get n).map fun d => (d.automaticInstall, d.hold, d.repolock))

/-- What `modesOf` says about the run. -/
theorem modesOf_update {reqs : List Req} {n pkgver : Str}
    {modes : Option Bool × Option Bool × Option Bool}
    (h : modesOf reqs n = some ([(pkgver, .update)], some modes)) :
    ∃ st' xhp' r, transactionPrepare modesEnv (fun _ => .ok) 100 (modesSession reqs).st =
        some (st', .ok) ∧ commitLoop modesCommit st'.xhp st'.packages = .ok xhp' ∧
      (∃ e ∈ st'.packages, Touches n e) ∧ (∀ e ∈ st'.packages, Touches n e → Renews e) ∧
      xhp'.pkgdb.get n = some r ∧ (r.automaticInstall, r.hold, r.repolock) = modes := by
  obtain ⟨⟨st', xhp'⟩, hrun, hr⟩ := Option.map_eq_some_iff.mp h
  obtain ⟨hprep, hcommit⟩ := modesRun_spec hrun
  rw [Prod.mk.injEq] at hr
  obtain ⟨e₀, hpkgs, he₀⟩ := List.map_eq_singleton_iff.mp hr.1
  obtain ⟨r, hget, hmodes⟩ := Option.map_eq_some_iff.mp hr.2
  -- only one entry touches the package
  have hmem : ∀ e, e ∈ st'.packages ∧ Touches n e ↔ e = e₀ := by
    intro e
    rw [← List.mem_singleton, ← hpkgs, List.mem_filter, decide_eq_true_iff]
  obtain ⟨he, ht⟩ := (hmem e₀).mpr rfl
  refine ⟨st', xhp', r, hprep, hcommit, ⟨e₀, he, ht⟩, fun e he ht => ?_, hget, hmodes⟩
  rw [(hmem e).mp ⟨he, ht⟩]
  exact Or.inl (congrArg Prod.snd he₀)

/-- The update of `a` on request keeps all of its modes. -/
theorem modes_kept_modesDemo :
    modesOf [.update "a".toList false] "a".toList =
        some ([("a-2_1".toList, .update)], some (some true, none, some true)) ∧
      ∃ (st' : State) (xhp' : Handle) (e r : PkgDict), e ∈ st'.packages ∧
        commitLoop modesCommit st'.xhp st'.packages = .ok xhp' ∧
        xhp'.pkgdb.get "a".toList = some r ∧ r.pkgver = e.pkgver ∧ r.hold = none := by
  have h : modesOf [.update "a".toList false] "a".toList =
      some ([("a-2_1".toList, .update)], some (some true, none, some true)) := by decide +kernel
  obtain ⟨st', xhp', -, hprep, hcommit, hsome, honly, -⟩ := modesOf_update h
  obtain ⟨e, he, r, -, hr, hver, hhold, -⟩ := modes_kept modesEnv (fun _ _ => none)
    modesDemo ["r".toList] [.update "a".toList false] _ rfl modesOk_modesDemo "a".toList
    (by decide +kernel) (by decide +kernel) _ _ st' .ok hprep modesCommit xhp' hcommit _ rfl hsome
    honly
  exact ⟨h, st', xhp', e, r, he, hcommit, hr, hver, hhold⟩

theorem not_modesSurvive {reqs : List Req} {n pkgver : Str} {p : PkgDict}
    {modes : Option Bool × Option Bool × Option Bool} (hp : modesDemo.pkgdb.get n = some p)
    (h : modesOf reqs n = some ([(pkgver, .update)], some modes))
    (hne : ¬ (modes.1.getD false = p.automaticInstall.getD false ∧ modes.2.1 = p.hold ∧
      modes.2.2 = p.repolock)) : ¬ ModesSurvive modesEnv modesDemo ["r".toList] reqs := by
  intro hall
  obtain ⟨st', xhp', r, hprep, hcommit, hsome, honly, hr, rfl⟩ := modesOf_update h
  exact hne (hall _ _ _ st' _ xhp' n p r hprep hcommit hp hsome honly hr)

/-- The update of `x` replaces `y`, so `x` counts as installed by hand afterwards; and the
update of `a` for the sake of `z` loses the repolock. -/
theorem modes_lost :
    ModesOk modesEnv modesDemo ∧
      modesOf [.update "x".toList false] "x".toList =
        some ([("x-2_1".toList, .update)], some (none, none, none)) ∧
      ¬ ModesSurvive modesEnv modesDemo ["r".toList] [.update "x".toList false] ∧
      modesOf [.install "z".toList false] "a".toList =
        some ([("a-2_1".toList, .update)], some (some true, none, none)) ∧
      ¬ ModesSurvive modesEnv modesDemo ["r".toList] [.install "z".toList false] := by
  have hx : modesOf [.update "x".toList false] "x".toList =
      some ([("x-2_1".toList, .update)], some (none, none, none)) := by decide +kernel
  have hz : modesOf [.install "z".toList false] "a".toList =
      some ([("a-2_1".toList, .update)], some (some true, none, none)) := by decide +kernel
  exact ⟨modesOk_modesDemo, hx, not_modesSurvive rfl hx (by decide), hz,
    not_modesSurvive rfl hz (by decide)⟩

end Flappy
