/-
The links after a package has gone (`flappy_alternatives_unregister` in
`lib/package_alternatives.c`).

For each group of which the package was the current alternative, the loop removes
links, switches the group to its next package and creates the links of that one.  The
variable that holds the package's own alternatives is also the one into which the
switch stores those of the next package, so that from the first switch on the links of
a group are removed by another package's list.

* `AltState.rounds` — the lists by which the loop removes links and the packages to
  which it switches;
* `alternativesUnregister_iff` — the links of the package are gone, and those of the
  next packages are there, iff these lists do it and the next packages are found under
  their names.
-/
import Flappy.Alternatives.Groups

open CStr Run

namespace Flappy

variable {Place : Type*}

/-- The current alternative of a group. -/
def AltState.current (s : AltState Place) (g : Str) : Option Str :=
  (s.groups.get g).bind List.head?

/-- The current alternative of a group after a package has gone. -/
def AltState.currentAfter (s : AltState Place) (pkgname g : Str) : Option Str :=
  if s.current g = some pkgname then s.successor g pkgname else s.current g

/-- The links of a package's own entry for a group. -/
def AltState.linksFor (s : AltState Place) (pkgname g : Str) : List Str :=
  linksOf (((s.pkgdb.get pkgname).map AltPkg.alternatives).getD Dict.empty) g

/-- What happens to a group of which the package was the current alternative. -/
structure Round where
  group : Str
  /-- The list by which links are removed. -/
  removes : List Str
  /-- The next package of the group. -/
  next : Option Str

/-- The rounds of the loop over the groups of a package. -/
def AltState.rounds (s : AltState Place) (pkgname : Str) :
    List Str → Dict Str (List Str) → List Round
  | [], _ => []
  | g :: keys, alts =>
    if s.current g = some pkgname then
      ⟨g, linksOf alts g, s.successor g pkgname⟩ ::
        match s.successor g pkgname with
        | none => s.rounds pkgname keys alts
        | some first => s.rounds pkgname keys (s.altsOf first)
    else s.rounds pkgname keys alts

/-- The links that a round creates: those of the package that the lookup finds. -/
def Round.makes (s : AltState Place) (r : Round) : List Str :=
  match r.next with
  | none => []
  | some first => linksOf (s.altsOf first) r.group

/-- A link that some round creates and no later round removes. -/
def Kept (env : AltEnv Place) (s : AltState Place) (x : Place) : List Round → Prop
  | [] => False
  | r :: rounds =>
    (x ∈ env.linkPlaces (r.makes s) ∧ ∀ r' ∈ rounds, ¬ env.removed r'.removes x) ∨
      Kept env s x rounds

instance decidableKept [DecidableEq Place] (env : AltEnv Place) (s : AltState Place) (x : Place) :
    (rounds : List Round) → Decidable (Kept env s x rounds)
  | [] => inferInstanceAs (Decidable False)
  | r :: rounds =>
    have := decidableKept env s x rounds
    inferInstanceAs (Decidable ((x ∈ env.linkPlaces (r.makes s) ∧
      ∀ r' ∈ rounds, ¬ env.removed r'.removes x) ∨ Kept env s x rounds))

/-- What has to hold after a package is unregistered.  A link of one of its groups is
left only if the entry of a current alternative describes it, and the links of the entries
of the new current alternatives have been created and are there. -/
structure Unregistered (env : AltEnv Place) (s s' : AltState Place) (d : AltPkg) : Prop where
  gone : ∀ g, s.current g = some d.pkgname →
    ∀ x ∈ env.linkPlaces (linksOf d.alternatives g), s'.fs x = some .link →
      ∃ h q, s'.current h = some q ∧ x ∈ env.linkPlaces (s'.linksFor q h)
  made : ∀ g, s.current g = some d.pkgname → ∀ q, s'.current g = some q →
    (g, s'.linksFor q g) ∈ s'.switched ∧
      ∀ x ∈ env.linkPlaces (s'.linksFor q g), s'.fs x = some .link

/-- The next packages are found with their own links, these can be created, and stay, and
the lists of the loop have all links of the package that nobody describes any more. -/
structure CleanRounds (env : AltEnv Place) (s : AltState Place) (d : AltPkg)
    (rounds : List Round) : Prop where
  found : ∀ r ∈ rounds, ∀ q, r.next = some q → r.makes s = s.linksFor q r.group
  creatable : ∀ r ∈ rounds, (r.makes s).all env.creatable = true
  removed : ∀ r ∈ rounds, ∀ x ∈ env.linkPlaces (linksOf d.alternatives r.group),
    s.fs x = some .link → (∃ r' ∈ rounds, env.removed r'.removes x) ∨
      ∃ h q, s.currentAfter d.pkgname h = some q ∧ x ∈ env.linkPlaces (s.linksFor q h)
  kept : ∀ r ∈ rounds, ∀ x ∈ env.linkPlaces (r.makes s), Kept env s x rounds

/-! ### Groups -/

variable {env : AltEnv Place} {s s' : AltState Place} {n g first : Str} {rest : List Str}

theorem current_eq_some_iff :
    s.current g = some n ↔ ∃ rest, s.groups.get g = some (n :: rest) := by
  rw [AltState.current, Option.bind_eq_some_iff]
  constructor
  · rintro ⟨names, hget, hhead⟩
    obtain ⟨rest, rfl⟩ := List.head?_eq_some_iff.mp hhead
    exact ⟨rest, hget⟩
  · rintro ⟨rest, hget⟩
    exact ⟨n :: rest, hget, rfl⟩

theorem current_congr (h : s'.groups.get g = s.groups.get g) : s'.current g = s.current g := by
  rw [AltState.current, AltState.current, h]

theorem current_dropName (s : AltState Place) (g n : Str) (names : List Str) :
    (s.dropName g n names).current g = (removeStringFromArray names n).head? := by
  rw [AltState.dropName, AltState.current]
  cases removeStringFromArray names n with
  | nil => simp
  | cons first rest => simp

/-- A group whose current alternative is another package keeps it. -/
theorem currentAfter_dropName (hget : s.groups.get g = some (first :: rest)) :
    (s.dropName g n (first :: rest)).current g = s.currentAfter n g := by
  rw [current_dropName, AltState.currentAfter]
  have hcur : s.current g = some first := by rw [AltState.current, hget]; rfl
  by_cases hfirst : n = first
  · subst hfirst
    rw [if_pos hcur, AltState.successor, hget]
    simp
  · rw [hcur, if_neg (by simpa using Ne.symm hfirst), removeStringFromArray,
      List.eraseP_cons_of_neg (by simpa using Ne.symm hfirst)]
    rfl

theorem rounds_congr {keys : List Str} {alts : Dict Str (List Str)} (hdb : s'.pkgdb = s.pkgdb)
    (hkeys : ∀ g ∈ keys, s'.groups.get g = s.groups.get g) :
    s'.rounds n keys alts = s.rounds n keys alts := by
  induction keys generalizing alts with
  | nil => rfl
  | cons g keys ih =>
    have hg := hkeys g (by simp)
    have ih : ∀ alts, s'.rounds n keys alts = s.rounds n keys alts :=
      fun _ => ih fun g' hg' => hkeys g' (List.mem_cons_of_mem _ hg')
    rw [AltState.rounds, AltState.rounds, current_congr hg, successor_congr hg, ih alts]
    split
    · cases s.successor g n with
      | none => rfl
      | some q => simp only [ih, altsOf_congr hdb]
    · rfl

theorem linksFor_congr (hdb : s'.pkgdb = s.pkgdb) (q g : Str) :
    s'.linksFor q g = s.linksFor q g := by
  rw [AltState.linksFor, AltState.linksFor, hdb]

theorem makes_congr (hdb : s'.pkgdb = s.pkgdb) (r : Round) : r.makes s' = r.makes s := by
  rw [Round.makes, Round.makes]
  simp only [altsOf_congr hdb]

theorem kept_congr (hdb : s'.pkgdb = s.pkgdb) (x : Place) (rounds : List Round) :
    Kept env s' x rounds ↔ Kept env s x rounds := by
  induction rounds with
  | nil => exact Iff.rfl
  | cons r rounds ih => rw [Kept, Kept, ih, makes_congr hdb]

/-- A link that a later round does not remove, in two parts of a run. -/
theorem kept_append (x : Place) (rounds rounds' : List Round) :
    Kept env s x (rounds ++ rounds') ↔
      (Kept env s x rounds ∧ ∀ r ∈ rounds', ¬ env.removed r.removes x) ∨ Kept env s x rounds' := by
  induction rounds with
  | nil => simp [Kept]
  | cons r rounds ih =>
    simp only [List.cons_append, Kept, ih, List.mem_append]
    constructor
    · rintro (⟨hx, hr⟩ | ⟨hk, hr⟩ | hk)
      · exact Or.inl ⟨Or.inl ⟨hx, fun r' h => hr r' (Or.inl h)⟩, fun r' h => hr r' (Or.inr h)⟩
      · exact Or.inl ⟨Or.inr hk, hr⟩
      · exact Or.inr hk
    · rintro (⟨⟨hx, hr⟩ | hk, hr'⟩ | hk)
      · exact Or.inl ⟨hx, fun r' h => h.elim (hr r') (hr' r')⟩
      · exact Or.inr (Or.inl ⟨hk, hr'⟩)
      · exact Or.inr (Or.inr hk)

/-- The rounds are about the groups of which the package was the current alternative. -/
theorem mem_rounds {keys : List Str} {alts : Dict Str (List Str)} {r : Round}
    (hr : r ∈ s.rounds n keys alts) :
    r.group ∈ keys ∧ s.current r.group = some n ∧ r.next = s.successor r.group n := by
  induction keys generalizing alts with
  | nil => cases hr
  | cons g keys ih =>
    rw [AltState.rounds] at hr
    split at hr
    · next hcur =>
      rcases List.mem_cons.mp hr with rfl | hr
      · exact ⟨List.mem_cons_self, hcur, rfl⟩
      · split at hr <;> exact (ih hr).imp_left (List.mem_cons_of_mem _)
    · exact (ih hr).imp_left (List.mem_cons_of_mem _)

theorem exists_round {keys : List Str} (alts : Dict Str (List Str)) (hg : g ∈ keys)
    (hcur : s.current g = some n) : ∃ r ∈ s.rounds n keys alts, r.group = g := by
  induction keys generalizing alts with
  | nil => cases hg
  | cons g' keys ih =>
    rw [AltState.rounds]
    rcases List.mem_cons.mp hg with rfl | hg
    · rw [if_pos hcur]
      exact ⟨_, List.mem_cons_self, rfl⟩
    · split
      · cases s.successor g' n with
        | none =>
          obtain ⟨r, hr, hrg⟩ := ih alts hg
          exact ⟨r, List.mem_cons_of_mem _ hr, hrg⟩
        | some q =>
          obtain ⟨r, hr, hrg⟩ := ih (s.altsOf q) hg
          exact ⟨r, List.mem_cons_of_mem _ hr, hrg⟩
      · exact ih alts hg

theorem exists_of_kept {x : Place} {rounds : List Round} (h : Kept env s x rounds) :
    ∃ r ∈ rounds, x ∈ env.linkPlaces (r.makes s) := by
  induction rounds with
  | nil => cases h
  | cons r rounds ih =>
    rcases h with ⟨hx, -⟩ | h
    · exact ⟨r, List.mem_cons_self, hx⟩
    · obtain ⟨r', hr', hx⟩ := ih h
      exact ⟨r', List.mem_cons_of_mem _ hr', hx⟩

/-- A link that is made and never removed is kept. -/
theorem kept_of_not_removed {x : Place} {rounds : List Round} {r : Round} (hr : r ∈ rounds)
    (hx : x ∈ env.linkPlaces (r.makes s)) (hnot : ∀ r ∈ rounds, ¬ env.removed r.removes x) :
    Kept env s x rounds := by
  induction rounds with
  | nil => cases hr
  | cons r' rounds ih =>
    rcases List.mem_cons.mp hr with rfl | hr
    · exact Or.inl ⟨hx, fun r' h => hnot r' (List.mem_cons_of_mem _ h)⟩
    · exact Or.inr (ih hr fun r' h => hnot r' (List.mem_cons_of_mem _ h))

/-- Up to the first group that gets a next package, the lists are the package's own. -/
theorem rounds_removes {keys : List Str} {alts : Dict Str (List Str)}
    (h : ∀ r ∈ (s.rounds n keys alts).dropLast, r.next = none) :
    ∀ r ∈ s.rounds n keys alts, r.removes = linksOf alts r.group := by
  induction keys with
  | nil => simp [AltState.rounds]
  | cons g keys ih =>
    rw [AltState.rounds] at h ⊢
    split at h
    · next hcur =>
      rw [if_pos hcur]
      cases hsucc : s.successor g n with
      | none =>
        simp only [hsucc] at h
        intro r hr
        rcases List.mem_cons.mp hr with rfl | hr
        · rfl
        · refine ih (fun r hr => h r ?_) r hr
          rw [List.dropLast_cons_of_ne_nil (List.ne_nil_of_mem (List.dropLast_subset _ hr))]
          exact List.mem_cons_of_mem _ hr
      | some q =>
        simp only [hsucc] at h
        -- a group after this one would put it among those without a next package
        cases hrest : s.rounds n keys (s.altsOf q) with
        | nil => simp [hrest]
        | cons r rounds =>
          have hnone := h ⟨g, linksOf alts g, some q⟩ (by simp [hrest])
          cases hnone
    · next hcur =>
      rw [if_neg hcur]
      exact ih h

/-- The links that a round creates are those of its next package. -/
theorem mem_makes {x : Place} {r : Round} : x ∈ env.linkPlaces (r.makes s) ↔
    ∃ q, r.next = some q ∧ x ∈ env.linkPlaces (linksOf (s.altsOf q) r.group) := by
  rw [Round.makes]
  cases r.next with
  | none => simp [AltEnv.linkPlaces]
  | some q => simp

/-! ### The loop -/

/-- What the loop leaves if no switch fails. -/
structure RoundsDone (env : AltEnv Place) (s s' : AltState Place) (n : Str) (keys : List Str)
    (rounds : List Round) : Prop where
  pkgdb : s'.pkgdb = s.pkgdb
  current : ∀ g, s'.current g = if g ∈ keys then s.currentAfter n g else s.current g
  switched : ∀ r ∈ rounds, r.next.isSome → (r.group, r.makes s) ∈ s'.switched
  switchedOld : ∀ e ∈ s.switched, e ∈ s'.switched
  switchedOnly : ∀ e ∈ s'.switched, e ∈ s.switched ∨ ∃ r ∈ rounds, e = (r.group, r.makes s)
  links : ∀ x, s'.fs x = some .link ↔
    (s.fs x = some .link ∧ ∀ r ∈ rounds, ¬ env.removed r.removes x) ∨ Kept env s x rounds

/-- What it leaves if one fails: a group that has changed without its links. -/
def RoundFailed (s s' : AltState Place) (n : Str) (keys : List Str) : Prop :=
  ∃ g ∈ keys, ∃ q, s.current g = some n ∧ s'.current g = some q ∧
    ∀ a, (g, a) ∈ s'.switched → (g, a) ∈ s.switched

/-- The two ways in which the loop ends. -/
def RoundsOutcome (env : AltEnv Place) (s s' : AltState Place) (n : Str) (keys : List Str)
    (rounds : List Round) : Prop :=
  ((∀ r ∈ rounds, (r.makes s).all env.creatable = true) ∧ RoundsDone env s s' n keys rounds) ∨
    ((∃ r ∈ rounds, (r.makes s).all env.creatable = false) ∧ RoundFailed s s' n keys)

/-- What one pass of the loop body does to a group: `rounds` is the round, if there is one. -/
structure RoundStep (env : AltEnv Place) (s s₁ : AltState Place) (n g : Str)
    (rounds : List Round) : Prop where
  pkgdb : s₁.pkgdb = s.pkgdb
  other : ∀ g' ≠ g, s₁.groups.get g' = s.groups.get g'
  current : s₁.current g = s.currentAfter n g
  switched : ∀ r ∈ rounds, r.next.isSome → (r.group, r.makes s) ∈ s₁.switched
  switchedOld : ∀ e ∈ s.switched, e ∈ s₁.switched
  switchedOnly : ∀ e ∈ s₁.switched, e ∈ s.switched ∨ ∃ r ∈ rounds, e = (r.group, r.makes s)
  groups : ∀ r ∈ rounds, r.group = g
  links : ∀ x, s₁.fs x = some .link ↔
    (s.fs x = some .link ∧ ∀ r ∈ rounds, ¬ env.removed r.removes x) ∨ Kept env s x rounds

theorem RoundsDone.cons {s₁ : AltState Place} {keys : List Str} {rounds rounds₁ : List Round}
    (hg : g ∉ keys) (hstep : RoundStep env s s₁ n g rounds₁)
    (hdone : RoundsDone env s₁ s' n keys rounds) :
    RoundsDone env s s' n (g :: keys) (rounds₁ ++ rounds) where
  pkgdb := hdone.pkgdb.trans hstep.pkgdb
  current g' := by
    rw [hdone.current]
    by_cases hg' : g' = g
    · subst hg'
      rw [if_neg hg, if_pos (by simp), hstep.current]
    · have hother := hstep.other g' hg'
      simp only [List.mem_cons, hg', false_or, AltState.currentAfter, current_congr hother,
        successor_congr hother]
  switched r hr hq := by
    rcases List.mem_append.mp hr with hr | hr
    · exact hdone.switchedOld _ (hstep.switched r hr hq)
    · rw [← makes_congr hstep.pkgdb]
      exact hdone.switched r hr hq
  switchedOld e he := hdone.switchedOld e (hstep.switchedOld e he)
  switchedOnly e he := by
    rcases hdone.switchedOnly e he with he | ⟨r, hr, rfl⟩
    · exact (hstep.switchedOnly e he).imp_right fun ⟨r, hr, heq⟩ =>
        ⟨r, List.mem_append_left _ hr, heq⟩
    · exact Or.inr ⟨r, List.mem_append_right _ hr, by rw [makes_congr hstep.pkgdb]⟩
  links x := by
    rw [hdone.links, hstep.links, kept_congr hstep.pkgdb, kept_append]
    simp only [List.mem_append, or_imp, forall_and]
    tauto

theorem RoundsOutcome.cons {s₁ : AltState Place} {keys : List Str} {rounds rounds₁ : List Round}
    (hg : g ∉ keys) (hstep : RoundStep env s s₁ n g rounds₁)
    (hmakes : ∀ r ∈ rounds₁, (r.makes s).all env.creatable = true)
    (hout : RoundsOutcome env s₁ s' n keys rounds) :
    RoundsOutcome env s s' n (g :: keys) (rounds₁ ++ rounds) := by
  rcases hout with ⟨hall, hdone⟩ | ⟨⟨r, hr, hfail⟩, g', hg', q, hcur, hcur', hsw⟩
  · refine Or.inl ⟨fun r hr => ?_, hdone.cons hg hstep⟩
    rcases List.mem_append.mp hr with hr | hr
    · exact hmakes r hr
    · rw [← makes_congr hstep.pkgdb]
      exact hall r hr
  · have hne : g' ≠ g := fun h => hg (h ▸ hg')
    refine Or.inr ⟨⟨r, List.mem_append_right _ hr, ?_⟩, g', List.mem_cons_of_mem _ hg', q, ?_, hcur',
      fun a h => ?_⟩
    · rw [← makes_congr hstep.pkgdb]
      exact hfail
    · rw [← current_congr (hstep.other g' hne)]
      exact hcur
    · refine (hstep.switchedOnly _ (hsw a h)).resolve_right ?_
      rintro ⟨r₁, hr₁, heq⟩
      exact hne ((congrArg Prod.fst heq).trans (hstep.groups r₁ hr₁))

/-- Nothing happens to the links of a group with another current package. -/
theorem RoundStep.dropName (hget : s.groups.get g = some (first :: rest)) :
    RoundStep env s (s.dropName g n (first :: rest)) n g [] := by
  obtain ⟨hdb, hfs, hsw, hother⟩ := dropName_frame s g n (first :: rest)
  exact ⟨hdb, hother, currentAfter_dropName hget, by simp, fun e h => hsw ▸ h,
    fun e h => Or.inl (hsw ▸ h), by simp, fun x => by simp [hfs, Kept]⟩

theorem RoundStep.idle (hget : s.groups.get g = none) : RoundStep env s s n g [] := by
  have hcur : s.current g = none := by rw [AltState.current, hget]; rfl
  exact ⟨rfl, fun _ _ => rfl, by rw [AltState.currentAfter, hcur]; rfl, by simp, fun e h => h,
    fun e h => Or.inl h, by simp, fun x => by simp [Kept]⟩

theorem successor_of_current (hget : s.groups.get g = some (n :: rest)) :
    s.successor g n = (removeStringFromArray (n :: rest) n).head? := by
  rw [AltState.successor, hget]
  simp

variable [DecidableEq Place]

section Current

variable {l : List Str} {fs : Place → Option Node} (hget : s.groups.get g = some (n :: rest))
  (hrm : removeSymlinks env s.fs l = some fs)

include hget hrm in
/-- A group of which the package was the only one. -/
theorem RoundStep.last :
    RoundStep env s (AltState.dropName { s with fs := fs } g n (n :: rest)) n g [⟨g, l, none⟩] := by
  obtain ⟨hdb, hfs, hsw, hother⟩ := dropName_frame { s with fs := fs } g n (n :: rest)
  refine ⟨hdb, hother, currentAfter_dropName (s := { s with fs := fs }) hget, by simp,
    fun e h => ?_, fun e h => Or.inl ?_, by simp, fun x => ?_⟩
  · rw [hsw]
    exact h
  · rw [hsw] at h
    exact h
  · rw [hfs, removeSymlinks_links hrm]
    simp [Kept, Round.makes, AltEnv.linkPlaces]

include hget hrm in
/-- A group that gets its next package. -/
theorem RoundStep.switch {q : Str} {s₁ : AltState Place}
    (hsw : (AltState.dropName { s with fs := fs } g n (n :: rest)).switchAltGroup env g q =
      some (s₁, none)) :
    RoundStep env s s₁ n g [⟨g, l, some q⟩] := by
  obtain ⟨hdb, hfs, hold, hother⟩ := dropName_frame { s with fs := fs } g n (n :: rest)
  obtain ⟨-, hcreate⟩ := switchAltGroup_eq_some_iff.mp hsw
  obtain ⟨hlinks, hdb₁, hgroups, hnew⟩ := createGroup_none hcreate
  rw [altsOf_congr (s := s) hdb] at hlinks hnew
  rw [hfs] at hlinks
  rw [hold] at hnew
  refine ⟨hdb₁.trans hdb, fun g' hg' => ?_, ?_, fun r hr _ => ?_, fun e he => ?_, fun e he => ?_,
    fun r hr => ?_, fun x => ?_⟩
  · rw [hgroups]
    exact hother g' hg'
  · rw [AltState.current, hgroups]
    exact currentAfter_dropName (s := { s with fs := fs }) hget
  · obtain rfl := List.mem_singleton.mp hr
    rw [hnew]
    exact List.mem_append_right _ (List.mem_singleton_self _)
  · rw [hnew]
    exact List.mem_append_left _ he
  · rw [hnew, List.mem_append, List.mem_singleton] at he
    exact he.imp_right fun he => ⟨_, List.mem_singleton_self _, he⟩
  · obtain rfl := List.mem_singleton.mp hr
    rfl
  · have hkept : Kept env s x [⟨g, l, some q⟩] ↔ x ∈ env.linkPlaces (linksOf (s.altsOf q) g) := by
      simp [Kept, Round.makes]
    have hthere : s₁.fs x =
        if x ∈ env.linkPlaces (linksOf (s.altsOf q) g) then some .link else fs x := by
      have hcreated := createSymlinks_links (congrArg Prod.snd hlinks) x
      rw [hlinks] at hcreated
      exact hcreated
    rw [hthere, hkept]
    by_cases hx : x ∈ env.linkPlaces (linksOf (s.altsOf q) g)
    · simp [hx]
    · simp [hx, removeSymlinks_links hrm]

end Current

/-- A switch that fails has changed the group already, and records nothing. -/
theorem switch_failed {s₁ : AltState Place} {names rest : List Str} {q : Str} {e : Errno}
    (hr : removeStringFromArray names n = q :: rest)
    (hsw : (s.dropName g n names).switchAltGroup env g q = some (s₁, some e)) :
    s₁.current g = some q ∧ s₁.switched = s.switched := by
  obtain ⟨-, hcreate⟩ := switchAltGroup_eq_some_iff.mp hsw
  constructor
  · have hcur := current_dropName s g n names
    rw [hr] at hcur
    rw [AltState.current, (switchAltGroup_frame hsw).2]
    exact hcur
  · rw [createGroup_some hcreate]
    exact (dropName_frame _ _ _ _).2.2.1

/-- The loop does its rounds, or ends at a switch that fails. -/
theorem unregisterGroups_rounds {keys : List Str} {alts : Dict Str (List Str)}
    {s s' : AltState Place} (hnd : keys.Nodup)
    (hs' : unregisterGroups env n false keys alts s = some s') :
    RoundsOutcome env s s' n keys (s.rounds n keys alts) := by
  induction keys generalizing s alts with
  | nil =>
    cases hs'
    exact Or.inl ⟨by simp [AltState.rounds], rfl, by simp, by simp [AltState.rounds],
      fun e h => h, fun e h => Or.inl h, fun x => by simp [AltState.rounds, Kept]⟩
  | cons g keys ih =>
    obtain ⟨hg, hnd⟩ := List.nodup_cons.mp hnd
    have hne : ∀ g' ∈ keys, g' ≠ g := fun g' hg' he => hg (he ▸ hg')
    -- the rest of the loop, after a pass that has led to `s₁`
    have hrest : ∀ {s₁ : AltState Place} {rounds₁ : List Round} {alts' : Dict Str (List Str)},
        RoundStep env s s₁ n g rounds₁ → (∀ r ∈ rounds₁, (r.makes s).all env.creatable = true) →
        unregisterGroups env n false keys alts' s₁ = some s' →
        RoundsOutcome env s s' n (g :: keys) (rounds₁ ++ s.rounds n keys alts') := by
      intro s₁ rounds₁ alts' hstep hmakes hs₁
      have hout := ih hnd hs₁
      rw [rounds_congr hstep.pkgdb fun g' hg' => hstep.other g' (hne g' hg')] at hout
      exact hout.cons hg hstep hmakes
    rw [AltState.rounds]
    cases hget : s.groups.get g with
    | none =>
      have hcur : s.current g ≠ some n := by simp [AltState.current, hget]
      rw [unregisterGroups] at hs'
      simp only [hget] at hs'
      rw [if_neg hcur]
      exact hrest (RoundStep.idle hget) (by simp) hs'
    | some names =>
      cases names with
      | nil => simp [unregisterGroups, hget] at hs'
      | cons first rest =>
        by_cases hfirst : n = first
        · subst hfirst
          have hcur : s.current g = some n := current_eq_some_iff.mpr ⟨rest, hget⟩
          have hsucc := successor_of_current hget
          rw [if_pos hcur]
          cases hr : removeStringFromArray (n :: rest) n with
          | nil =>
            rw [unregisterGroups_last hget hr] at hs'
            obtain ⟨fs, hrm, hs'⟩ := Option.bind_eq_some_iff.mp hs'
            rw [hsucc, hr]
            exact hrest (RoundStep.last hget hrm) (by simp [Round.makes]) hs'
          | cons q rest' =>
            rw [unregisterGroups_switch hget hr] at hs'
            obtain ⟨fs, hrm, hs'⟩ := Option.bind_eq_some_iff.mp hs'
            rw [hsucc, hr]
            rcases hsw : (AltState.dropName { s with fs := fs } g n (n :: rest)).switchAltGroup env
              g q with _ | ⟨s₁, rv⟩
            · rw [hsw] at hs'
              cases hs'
            have hdb : (AltState.dropName { s with fs := fs } g n (n :: rest)).pkgdb = s.pkgdb :=
              (dropName_frame _ _ _ _).1
            have hiff := switchAltGroup_rv_iff hdb hsw
            rw [hsw] at hs'
            cases rv with
            | none =>
              have hstep := RoundStep.switch hget hrm hsw
              have halts : s₁.altsOf q = s.altsOf q := altsOf_congr hstep.pkgdb q
              simp only [halts] at hs'
              refine hrest hstep (fun r hr => ?_) hs'
              obtain rfl := List.mem_singleton.mp hr
              exact hiff.mp rfl
            | some e =>
              cases hs'
              obtain ⟨hnew, hswitched⟩ := switch_failed hr hsw
              refine Or.inr ⟨⟨_, List.mem_cons_self, ?_⟩, g, List.mem_cons_self, q, hcur, hnew,
                fun a h => hswitched ▸ h⟩
              exact eq_false_of_ne_true fun h => Option.some_ne_none e (hiff.mpr h)
        · have hcur : s.current g ≠ some n := by
            simpa [AltState.current, hget] using Ne.symm hfirst
          rw [unregisterGroups_other hget hfirst] at hs'
          rw [if_neg hcur]
          exact hrest (RoundStep.dropName hget) (by simp) hs'

/-! ### The result -/

omit [DecidableEq Place] in
/-- The groups of which the package was the head have their next packages. -/
theorem RoundsDone.currentAfter {d : AltPkg} {rounds : List Round}
    (h : RoundsDone env s s' d.pkgname d.alternatives.keys rounds)
    (hkey : ∀ g, s.current g = some d.pkgname → g ∈ d.alternatives.keys) (g : Str) :
    s'.current g = s.currentAfter d.pkgname g := by
  rw [h.current]
  split
  · rfl
  · next hg => rw [AltState.currentAfter, if_neg fun hcur => hg (hkey g hcur)]

omit [DecidableEq Place] in
theorem RoundsDone.next {d : AltPkg}
    (h : RoundsDone env s s' d.pkgname d.alternatives.keys
      (s.rounds d.pkgname d.alternatives.keys d.alternatives))
    (hkey : ∀ g, s.current g = some d.pkgname → g ∈ d.alternatives.keys) {r : Round}
    (hr : r ∈ s.rounds d.pkgname d.alternatives.keys d.alternatives) :
    s'.current r.group = r.next := by
  obtain ⟨-, hcur, hnext⟩ := mem_rounds hr
  rw [h.currentAfter hkey, AltState.currentAfter, if_pos hcur, hnext]

/-- Where no link is left over and the new ones are there, the lists of the loop were clean. -/
theorem Unregistered.cleanRounds {d : AltPkg} (hu : Unregistered env s s' d)
    (h : RoundsDone env s s' d.pkgname d.alternatives.keys
      (s.rounds d.pkgname d.alternatives.keys d.alternatives))
    (hkey : ∀ g, s.current g = some d.pkgname → g ∈ d.alternatives.keys)
    (hlog : s.switched = [])
    (hall : ∀ r ∈ s.rounds d.pkgname d.alternatives.keys d.alternatives,
      (r.makes s).all env.creatable = true) :
    CleanRounds env s d (s.rounds d.pkgname d.alternatives.keys d.alternatives) := by
  have hown : ∀ q g, s'.linksFor q g = s.linksFor q g := linksFor_congr h.pkgdb
  have hfound : ∀ r ∈ s.rounds d.pkgname d.alternatives.keys d.alternatives,
      ∀ q, r.next = some q → r.makes s = s.linksFor q r.group := by
    intro r hr q hq
    obtain ⟨-, hcur, hsucc⟩ := mem_rounds hr
    rcases h.switchedOnly _ (hu.made r.group hcur q ((h.next hkey hr).trans hq)).1 with
      hold | ⟨r₁, hr₁, heq⟩
    · rw [hlog] at hold
      cases hold
    · -- the round of a group is its only one
      obtain ⟨hgroup, hmakes⟩ := Prod.mk.inj heq
      obtain ⟨-, -, hsucc₁⟩ := mem_rounds hr₁
      have hnext₁ : r₁.next = r.next := by rw [hsucc₁, hsucc, hgroup]
      rw [← hown, hmakes, Round.makes, Round.makes, hnext₁, hgroup]
  refine ⟨hfound, hall, fun r hr x hx hlink => ?_, fun r hr x hx => ?_⟩
  · by_cases hrem : ∃ r' ∈ s.rounds d.pkgname d.alternatives.keys d.alternatives,
      env.removed r'.removes x
    · exact Or.inl hrem
    · -- the link is still there, so somebody describes it
      have hleft := (h.links x).mpr (Or.inl ⟨hlink, fun r' hr' hx' => hrem ⟨r', hr', hx'⟩⟩)
      obtain ⟨g, q, hcur, hq⟩ := hu.gone r.group (mem_rounds hr).2.1 x hx hleft
      exact Or.inr ⟨g, q, h.currentAfter hkey g ▸ hcur, hown q g ▸ hq⟩
  · obtain ⟨q, hq, -⟩ := mem_makes.mp hx
    have hmade := (hu.made r.group (mem_rounds hr).2.1 q ((h.next hkey hr).trans hq)).2 x
      (by rwa [hown, ← hfound r hr q hq])
    exact ((h.links x).mp hmade).elim (fun hl => kept_of_not_removed hr hx hl.2) id

omit [DecidableEq Place] in
/-- Clean lists leave no link over and keep the new ones. -/
theorem CleanRounds.unregistered {d : AltPkg}
    (hc : CleanRounds env s d (s.rounds d.pkgname d.alternatives.keys d.alternatives))
    (h : RoundsDone env s s' d.pkgname d.alternatives.keys
      (s.rounds d.pkgname d.alternatives.keys d.alternatives))
    (hkey : ∀ g, s.current g = some d.pkgname → g ∈ d.alternatives.keys) :
    Unregistered env s s' d := by
  have hown : ∀ q g, s'.linksFor q g = s.linksFor q g := linksFor_congr h.pkgdb
  refine ⟨fun g hcur x hx hlink => ?_, fun g hcur q hcur' => ?_⟩
  · obtain ⟨r, hr, rfl⟩ := exists_round d.alternatives (hkey g hcur) hcur
    rcases (h.links x).mp hlink with ⟨hl, hnot⟩ | hkept
    · rcases hc.removed r hr x hx hl with ⟨r', hr', hx'⟩ | ⟨g, q, hq, hxq⟩
      · exact absurd hx' (hnot r' hr')
      · exact ⟨g, q, (h.currentAfter hkey g).trans hq, (hown q g).symm ▸ hxq⟩
    · obtain ⟨r', hr', hx'⟩ := exists_of_kept hkept
      obtain ⟨q, hq, -⟩ := mem_makes.mp hx'
      exact ⟨r'.group, q, (h.next hkey hr').trans hq, by rwa [hown, ← hc.found r' hr' q hq]⟩
  · obtain ⟨r, hr, rfl⟩ := exists_round d.alternatives (hkey g hcur) hcur
    have hq : r.next = some q := (h.next hkey hr).symm.trans hcur'
    rw [hown, ← hc.found r hr q hq]
    exact ⟨h.switched r hr (by rw [hq]; rfl),
      fun x hx => (h.links x).mpr (Or.inr (hc.kept r hr x hx))⟩

/-- After a removal that returns, no link of the package is left over and the links of
the next packages are there, iff the lists of the loop are clean. -/
theorem alternativesUnregister_iff {d : AltPkg} (h : AltInv s) (hd : s.pkgdb.get n = some d)
    (hupdate : d.update = false) (hlog : s.switched = [])
    (hs' : alternativesUnregister env s d = some s') :
    Unregistered env s s' d ↔
      CleanRounds env s d (s.rounds n d.alternatives.keys d.alternatives) := by
  rw [alternativesUnregister_eq h hd, hupdate] at hs'
  obtain rfl : d.pkgname = n := h.named n d hd
  have hout : RoundsOutcome env s s' d.pkgname d.alternatives.keys
      (s.rounds d.pkgname d.alternatives.keys d.alternatives) :=
    unregisterGroups_rounds d.alternatives.nodup hs'
  have hkey : ∀ g, s.current g = some d.pkgname → g ∈ d.alternatives.keys := by
    intro g hcur
    obtain ⟨rest, hget⟩ := current_eq_some_iff.mp hcur
    obtain ⟨d', hd', hg⟩ := (h.provided g d.pkgname).mp ⟨_, hget, List.mem_cons_self⟩
    rw [hd] at hd'
    cases hd'
    exact hg
  rcases hout with ⟨hall, hdone⟩ | ⟨⟨r, hr, hfail⟩, g, hg, q, hcur, hcur', hsw⟩
  · exact ⟨fun hu => hu.cleanRounds hdone hkey hlog hall, fun hc => hc.unregistered hdone hkey⟩
  · refine iff_of_false (fun hu => ?_) fun hc => ?_
    · have hin := hsw _ (hu.made g hcur q hcur').1
      rw [hlog] at hin
      cases hin
    · rw [hc.creatable r hr] at hfail
      cases hfail

/-- Register packages, and take one of them out again. -/
def viUnregister (pkgs : List AltPkg) (pkgname : String) :
    Option (AltState Str × AltPkg × AltState Str) :=
  (run (AltState.step viEnv) { fs := fun _ => none } (pkgs.map .register)).bind fun s =>
    (s.pkgdb.get pkgname.toList).bind fun d =>
      (alternativesUnregister viEnv s d).map fun s' => (s, d, s')

theorem viUnregister_spec {pkgs : List AltPkg} {pkgname : String} {s s' : AltState Str}
    {d : AltPkg} (h : viUnregister pkgs pkgname = some (s, d, s'))
    (hok : Along (AltState.step viEnv) (AltState.Proper viEnv) { fs := fun _ => none }
      (pkgs.map .register)) :
    AltInv s ∧ s.pkgdb.get pkgname.toList = some d ∧
      alternativesUnregister viEnv s d = some s' := by
  obtain ⟨s, hs, h⟩ := Option.bind_eq_some_iff.mp h
  obtain ⟨d, hd, h⟩ := Option.bind_eq_some_iff.mp h
  obtain ⟨s', hs', heq⟩ := Option.map_eq_some_iff.mp h
  cases heq
  exact ⟨(AltInv.empty _).run hok hs, hd, hs'⟩

/-- A package that heads one group leaves it to the other one. -/
theorem alternativesUnregister_vi :
    ∃ s d s', alternativesUnregister viEnv s d = some s' ∧ s.current "vi".toList = some d.pkgname ∧
      Unregistered viEnv s s' d := by
  have hcheck : ((viUnregister [viPkg "vim" [("vi", "vi:/usr/bin/vim")],
      viPkg "nvi" [("vi", "view:/usr/bin/nvi")]] "vim").map fun (s, d, _) =>
        let rounds := s.rounds "vim".toList d.alternatives.keys d.alternatives
        d.update = false ∧ s.switched = [] ∧ s.current "vi".toList = some d.pkgname ∧
          (∀ r ∈ rounds, ∀ q ∈ r.next, r.makes s = s.linksFor q r.group) ∧
          (∀ r ∈ rounds, (r.makes s).all viEnv.creatable = true) ∧
          (∀ r ∈ rounds, ∀ x ∈ viEnv.linkPlaces (linksOf d.alternatives r.group),
            ∃ r' ∈ rounds, viEnv.removed r'.removes x) ∧
          ∀ r ∈ rounds, ∀ x ∈ viEnv.linkPlaces (r.makes s), Kept viEnv s x rounds : Option Bool) =
      some true := by
    decide +kernel
  obtain ⟨⟨s, d, s'⟩, hrun, hcheck⟩ := Option.map_eq_some_iff.mp hcheck
  obtain ⟨hupdate, hlog, hcur, hfound, hcreatable, hremoved, hkept⟩ := of_decide_eq_true hcheck
  obtain ⟨hinv, hd, hs'⟩ := viUnregister_spec hrun (by decide +kernel)
  exact ⟨s, d, s', hs', hcur, (alternativesUnregister_iff hinv hd hupdate hlog hs').mpr
    ⟨hfound, hcreatable, fun r hr x hx _ => Or.inl (hremoved r hr x hx), hkept⟩⟩

/-- A package heads two groups, and the next package has another link for the second
one: the link of the first package stays.  And a next package whose name is found as the
version of another package gets none of its links. -/
theorem alternativesUnregister_stale :
    (∃ s d s', AltInv s ∧ s.pkgdb.get "vim".toList = some d ∧ d.update = false ∧
      alternativesUnregister viEnv s d = some s' ∧ s.current "vi".toList = some d.pkgname ∧
      "/r/usr/bin/vi".toList ∈ viEnv.linkPlaces (linksOf d.alternatives "vi".toList) ∧
      s'.fs "/r/usr/bin/vi".toList = some .link ∧ ¬ Unregistered viEnv s s' d) ∧
    ∃ s d s', AltInv s ∧ s.pkgdb.get "vim".toList = some d ∧ d.update = false ∧
      alternativesUnregister viEnv s d = some s' ∧ s.current "vi".toList = some d.pkgname ∧
      s'.current "vi".toList = some "nvi-1_1".toList ∧
      "/r/usr/bin/vi".toList ∈ viEnv.linkPlaces (s'.linksFor "nvi-1_1".toList "vi".toList) ∧
      s'.fs "/r/usr/bin/vi".toList = none ∧ ¬ Unregistered viEnv s s' d := by
  constructor
  · have hcheck : ((viUnregister [viPkg "vim" [("ex", "ex:/usr/bin/vim"), ("vi", "vi:/usr/bin/vim")],
        viPkg "nvi" [("ex", "ex:/usr/bin/nvi"), ("vi", "view:/usr/bin/nvi")]] "vim").map
          fun (s, d, s') =>
            d.update = false ∧ s.current "vi".toList = some d.pkgname ∧
              "/r/usr/bin/vi".toList ∈ viEnv.linkPlaces (linksOf d.alternatives "vi".toList) ∧
              s'.fs "/r/usr/bin/vi".toList = some .link ∧
              ∀ e ∈ s'.groups.entries, ∀ q ∈ e.2.head?,
                "/r/usr/bin/vi".toList ∉ viEnv.linkPlaces (s'.linksFor q e.1) : Option Bool) =
        some true := by
      decide +kernel
    obtain ⟨⟨s, d, s'⟩, hrun, hcheck⟩ := Option.map_eq_some_iff.mp hcheck
    obtain ⟨hupdate, hcur, hx, hlink, hnone⟩ := of_decide_eq_true hcheck
    obtain ⟨hinv, hd, hs'⟩ := viUnregister_spec hrun (by decide +kernel)
    refine ⟨s, d, s', hinv, hd, hupdate, hs', hcur, hx, hlink, fun hu => ?_⟩
    obtain ⟨g, q, hq, hxq⟩ := hu.gone "vi".toList hcur _ hx hlink
    obtain ⟨rest, hget⟩ := current_eq_some_iff.mp hq
    exact hnone (g, q :: rest) (Dict.mem_entries_iff.mpr hget) q rfl hxq
  · have hcheck : ((viUnregister [viPkg "vim" [("vi", "vi:/usr/bin/vim")],
        viPkg "nvi-1_1" [("vi", "vi:/usr/bin/nvi")], viPkg "nvi" []] "vim").map
          fun (s, d, s') =>
            d.update = false ∧ s.current "vi".toList = some d.pkgname ∧
              s'.current "vi".toList = some "nvi-1_1".toList ∧
              "/r/usr/bin/vi".toList ∈
                viEnv.linkPlaces (s'.linksFor "nvi-1_1".toList "vi".toList) ∧
              s'.fs "/r/usr/bin/vi".toList = none : Option Bool) =
        some true := by
      decide +kernel
    obtain ⟨⟨s, d, s'⟩, hrun, hcheck⟩ := Option.map_eq_some_iff.mp hcheck
    obtain ⟨hupdate, hcur, hnew, hx, hno⟩ := of_decide_eq_true hcheck
    obtain ⟨hinv, hd, hs'⟩ := viUnregister_spec hrun (by decide +kernel)
    refine ⟨s, d, s', hinv, hd, hupdate, hs', hcur, hnew, hx, hno, fun hu => ?_⟩
    rw [(hu.made "vi".toList hcur _ hnew).2 _ hx] at hno
    cases hno

end Flappy
