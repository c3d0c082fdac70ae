/-
What a preparation does to the package database
(`lib/transaction_prepare.c`, `lib/transaction_check_replaces.c`, `lib/transaction_pkg_deps.c`).

Packages of the database are handed out by reference.  The resolver marks those that
are only to be configured, and the `replaces` pass those that are to be removed, and
nothing takes the marks back when the preparation fails in the end.

* `preparedDb` — the database after a preparation, in whatever way it ends;
* `Configured`, `ReplacedFor` — what a package has been found for that is marked;
* `preparedDb_marked` — its packages are what they were, up to such marks.
-/
import Flappy.Turns

open CStr

namespace Flappy

/-! ### Packages up to marks -/

/-- A dictionary without the arrays that other dictionaries may share. -/
def PkgDict.unlisted (d : PkgDict) : PkgDict := { d with runDepends := none, replaces := none }

/-- The package is unpacked, and the resolver has found it for a dependency that it satisfies. -/
def Configured (looks : List Look) (d : PkgDict) : Prop :=
  d.state = some .unpacked ∧ ∃ l ∈ looks, l.reqpkg ∈ l.pkgRepod.runDepends.getD [] ∧
    pkgpatternMatch d.pkgver l.reqpkg = true ∧
    ∃ st e, depInstalled l.st l.queued l.pkgRepod l.reqpkg = (st, .configure e) ∧
      e.pkgver = d.pkgver

/-- What the resolver may do to a package: it marks one that it has found to be configured, it
drops dependencies by which it has found a package to depend on itself, and the array of
replaced packages, which a package to be configured shares with its entry, gets the pattern
for the package itself. -/
structure ConfiguredFrom (env : Env) (looks : List Look) (d d' : PkgDict) : Prop where
  mark : d'.unlisted = d.unlisted ∨
    (Configured looks d ∧ d'.unlisted = { d.unlisted with transaction := .configure })
  runDepends : ∃ drops : List Str,
    d'.runDepends = d.runDepends.map (fun deps => drops.foldl removeStringFromArray deps) ∧
      ∀ dep ∈ drops, ∃ l ∈ looks, l.reqpkg = dep ∧ l.itself env = true
  replaces : d'.replaces = d.replaces ∨ (Configured looks d ∧ ∃ n pkgname,
    d.pkgname = some pkgname ∧
      d'.replaces = d.replaces.map (· ++ List.replicate n (selfReplaced pkgname)))

/-- The installed package, or provider, that a pattern finds. -/
def installedFor (xhp : Handle) (pattern : Str) : Option PkgDict :=
  (pkgdbGetPkg xhp pattern).or (pkgdbGetVirtualpkg xhp pattern)

/-- A `replaces` pattern of an entry of the transaction finds the package, or one of a package
that is found so itself. -/
inductive ReplacedFor (xhp : Handle) (pkgs : List PkgDict) : PkgDict → Prop where
  | entry {e d : PkgDict} {pattern : Str} : e ∈ pkgs → pattern ∈ e.replaces.getD [] →
      installedFor xhp pattern = some d → ReplacedFor xhp pkgs d
  | chain {e d : PkgDict} {pattern : Str} : ReplacedFor xhp pkgs e →
      pattern ∈ e.replaces.getD [] → installedFor xhp pattern = some d → ReplacedFor xhp pkgs d

/-- The package is as the resolver leaves it, or is marked to be removed as well: then it is
not on hold, and the pass over the entries `st` has found it. -/
def PreparedFrom (env : Env) (looks : List Look) (st : State) (d d' : PkgDict) : Prop :=
  ConfiguredFrom env looks d d' ∨ ∃ d₁, ConfiguredFrom env looks d d₁ ∧ d.hold ≠ some true ∧
    ReplacedFor st.xhp st.packages d₁ ∧ d' = markReplaced d₁

/-- The databases have the same packages up to `R`. -/
def RelatedDb (R : PkgDict → PkgDict → Prop) (xhp xhp' : Handle) : Prop :=
  ∀ k, Option.Rel R (xhp.pkgdb.get k) (xhp'.pkgdb.get k)

theorem ConfiguredFrom.refl (env : Env) (looks : List Look) (d : PkgDict) :
    ConfiguredFrom env looks d d := by
  refine ⟨Or.inl rfl, ⟨[], ?_, List.forall_mem_nil _⟩, Or.inl rfl⟩
  cases d.runDepends <;> rfl

theorem PkgDict.of_unlisted_eq {d d' : PkgDict} (h : d.unlisted = d'.unlisted) :
    d.state = d'.state ∧ d.hold = d'.hold ∧ d.pkgver = d'.pkgver ∧ d.pkgname = d'.pkgname := by
  cases d
  cases d'
  simp only [PkgDict.unlisted, PkgDict.mk.injEq] at h
  simp [h]

variable {env : Env} {looks : List Look}

theorem ConfiguredFrom.same {d d' : PkgDict} (h : ConfiguredFrom env looks d d') :
    d'.state = d.state ∧ d'.hold = d.hold ∧ d'.pkgver = d.pkgver ∧ d'.pkgname = d.pkgname := by
  rcases h.mark with h | ⟨-, h⟩
  · exact PkgDict.of_unlisted_eq h
  · have h' : d'.unlisted = ({ d with transaction := .configure } : PkgDict).unlisted := h
    obtain ⟨hstate, hhold, hver, hname⟩ := PkgDict.of_unlisted_eq h'
    exact ⟨hstate, hhold, hver, hname⟩

/-- What the resolver has found does not depend on the marks. -/
theorem ConfiguredFrom.configured {d d' : PkgDict} (h : ConfiguredFrom env looks d d')
    (hc : Configured looks d') : Configured looks d := by
  obtain ⟨hstate, -, hver, -⟩ := h.same
  obtain ⟨hs, l, hl, hreq, hmatch, st, e, he, hv⟩ := hc
  exact ⟨hstate ▸ hs, l, hl, hreq, hver ▸ hmatch, st, e, he, hv.trans hver⟩

theorem ConfiguredFrom.trans {a b c : PkgDict} (h : ConfiguredFrom env looks a b)
    (h' : ConfiguredFrom env looks b c) : ConfiguredFrom env looks a c := by
  refine ⟨?_, ?_, ?_⟩
  · rcases h'.mark with hbc | ⟨hc, hbc⟩
    · rcases h.mark with hab | ⟨hc, hab⟩
      · exact Or.inl (hbc.trans hab)
      · exact Or.inr ⟨hc, hbc.trans hab⟩
    · refine Or.inr ⟨h.configured hc, hbc.trans ?_⟩
      rcases h.mark with hab | ⟨-, hab⟩
      · rw [hab]
      · rw [hab]
  · obtain ⟨drops, heq, hdrops⟩ := h.runDepends
    obtain ⟨drops', heq', hdrops'⟩ := h'.runDepends
    refine ⟨drops ++ drops', ?_, fun dep hdep => ?_⟩
    · rw [heq', heq]
      simp only [Option.map_map, Function.comp_def, List.foldl_append]
    · exact (List.mem_append.mp hdep).elim (hdrops dep) (hdrops' dep)
  · rcases h'.replaces with hbc | ⟨hc, n, pkgname, hn, hbc⟩
    · rcases h.replaces with hab | ⟨hc, n, pkgname, hn, hab⟩
      · exact Or.inl (hbc.trans hab)
      · exact Or.inr ⟨hc, n, pkgname, hn, hbc.trans hab⟩
    · have hname : a.pkgname = some pkgname := h.same.2.2.2 ▸ hn
      refine Or.inr ⟨h.configured hc, ?_⟩
      rcases h.replaces with hab | ⟨-, m, pkgname', hn', hab⟩
      · exact ⟨n, pkgname, hname, by rw [hbc, hab]⟩
      · obtain rfl : pkgname = pkgname' := Option.some.inj (hname.symm.trans hn')
        refine ⟨m + n, pkgname, hname, ?_⟩
        rw [hbc, hab]
        simp only [Option.map_map, Function.comp_def, List.append_assoc,
          List.replicate_append_replicate]

namespace RelatedDb

variable {R : PkgDict → PkgDict → Prop}

theorem of_eq (hR : ∀ d, R d d) {xhp xhp' : Handle} (h : xhp'.pkgdb = xhp.pkgdb) :
    RelatedDb R xhp xhp' := by
  intro k
  rw [h]
  cases xhp.pkgdb.get k with
  | none => exact .none
  | some d => exact .some (hR d)

theorem trans {S T : PkgDict → PkgDict → Prop} (hRS : ∀ a b c, R a b → S b c → T a c)
    {x y z : Handle} (h : RelatedDb R x y) (h' : RelatedDb S y z) : RelatedDb T x z := by
  intro k
  have h₁ := h k
  have h₂ := h' k
  generalize x.pkgdb.get k = o₁ at h₁
  generalize y.pkgdb.get k = o₂ at h₁ h₂
  generalize z.pkgdb.get k = o₃ at h₂
  cases h₁ with
  | none =>
    cases h₂ with
    | none => exact .none
  | some hab =>
    cases h₂ with
    | some hbc => exact .some (hRS _ _ _ hab hbc)

/-- A change of every value. -/
theorem mapValues {xhp xhp' : Handle} {f : PkgDict → PkgDict} (hf : ∀ d, R d (f d))
    (h : xhp'.pkgdb = xhp.pkgdb.mapValues f) : RelatedDb R xhp xhp' := by
  intro k
  rw [h, Dict.get_mapValues]
  cases xhp.pkgdb.get k with
  | none => exact .none
  | some d => exact .some (hf d)

/-- A change of one package. -/
theorem modifyPkgdb (hR : ∀ d, R d d) (xhp : Handle) {pkgd : PkgDict} {f : PkgDict → PkgDict}
    (hf : R pkgd (f pkgd)) : RelatedDb R xhp (xhp.modifyPkgdb pkgd f) := by
  refine mapValues (f := fun d => if d = pkgd then f d else d) (fun d => ?_) rfl
  by_cases h : d = pkgd
  · rw [if_pos h, h]
    exact hf
  · rw [if_neg h]
    exact hR d

end RelatedDb

/-! ### The resolver -/

theorem RelatedDb.configured {x y z : Handle} (h : RelatedDb (ConfiguredFrom env looks) x y)
    (h' : RelatedDb (ConfiguredFrom env looks) y z) : RelatedDb (ConfiguredFrom env looks) x z :=
  RelatedDb.trans (fun a b c (hab : ConfiguredFrom env looks a b)
    (hbc : ConfiguredFrom env looks b c) => hab.trans hbc) h h'

theorem depSatisfied_configure {curpkgd curpkgd' : PkgDict} {foundvpkg : Bool}
    {pkgname reqpkg : Str}
    (h : depSatisfied curpkgd foundvpkg pkgname reqpkg = .configure curpkgd') :
    curpkgd'.state = some .unpacked ∧ pkgpatternMatch curpkgd'.pkgver reqpkg = true := by
  rw [depSatisfied] at h
  cases hs : curpkgd.state with
  | none => simp [hs] at h
  | some state =>
    simp only [hs] at h
    split at h
    · cases h
    · split at h
      · -- the version requirement is not satisfied
        split at h
        · cases h
        · split at h
          · cases h
          · split at h
            · cases h
            · cases h
      · next hmatch =>
        split at h
        · obtain rfl := DepAction.configure.inj h
          exact ⟨hs, by simpa using hmatch⟩
        · cases h
        · cases h

/-- Only an unpacked package that satisfies the dependency is to be configured. -/
theorem depInstalled_configure {st st' : State} {queued : List PkgDict} {pkgRepod curpkgd : PkgDict}
    {reqpkg : Str} (h : depInstalled st queued pkgRepod reqpkg = (st', .configure curpkgd)) :
    curpkgd.state = some .unpacked ∧ pkgpatternMatch curpkgd.pkgver reqpkg = true := by
  rw [depInstalled] at h
  split at h
  · cases h
  · split at h
    · cases h
    · split at h
      · cases h
      · split at h
        · cases h
        · split at h
          · cases h
          · simp only at h
            split at h
            · exact depSatisfied_configure (Prod.mk.inj h).2
            · split at h
              · cases h
              · cases h

/-- Marking a package to be configured. -/
theorem State.storePkgdb_configures (st : State) {pkgd : PkgDict} (hc : Configured looks pkgd)
    (autoinst : Bool) :
    RelatedDb (ConfiguredFrom env looks) st.xhp (st.storePkgdb pkgd .configure autoinst).1.xhp := by
  have hrefl := ConfiguredFrom.refl env looks
  rw [State.storePkgdb]
  simp only
  split
  · refine RelatedDb.modifyPkgdb hrefl st.xhp ⟨Or.inr ⟨hc, rfl⟩, (hrefl pkgd).runDepends, Or.inl rfl⟩
  · next packages d' h =>
    have hx := (st.findPkg_looked { repoOpen := fun _ => none } (pkgd.pkgname.getD []) .unknown).xhp
    show RelatedDb _ st.xhp ((st.findPkg _ .unknown).1.xhp.modifyPkgdb pkgd _)
    rw [hx]
    refine RelatedDb.modifyPkgdb hrefl st.xhp ?_
    -- the copy may share its array of replaced packages
    obtain ⟨-, rfl⟩ | ⟨pkgname, rest, hn, -, -, rfl⟩ := transactionStore_cases h
    · exact ⟨Or.inr ⟨hc, rfl⟩, (hrefl pkgd).runDepends, Or.inl rfl⟩
    · exact ⟨Or.inr ⟨hc, rfl⟩, (hrefl pkgd).runDepends, Or.inr ⟨hc, 1, pkgname, hn, rfl⟩⟩

/-- Dropping a dependency by which a package depends on itself. -/
theorem State.removeRunDepend_configures (st : State) (id : Nat) {l : Look} (hl : l ∈ looks)
    (hitself : l.itself env = true) :
    RelatedDb (ConfiguredFrom env looks) st.xhp (st.removeRunDepend id l.reqpkg).xhp := by
  have hrefl := ConfiguredFrom.refl env looks
  rw [State.removeRunDepend]
  split
  · refine RelatedDb.mapValues (f := dropRunDepend id l.reqpkg) (fun d => ?_) rfl
    rw [dropRunDepend]
    split
    · refine ⟨Or.inl rfl, ⟨[l.reqpkg], rfl, fun dep hdep => ?_⟩, Or.inl rfl⟩
      exact ⟨l, hl, (List.mem_singleton.mp hdep).symm, hitself⟩
    · exact hrefl d
  · exact RelatedDb.of_eq hrefl rfl

/-- The places are known, and are about dependencies of their packages. -/
def LookIn (looks : List Look) (l : Look) : Prop :=
  l ∈ looks ∧ l.reqpkg ∈ l.pkgRepod.runDepends.getD []

/-- What every place of the resolver preserves. -/
theorem configuresRule (env : Env) (looks : List Look) (xhp : Handle) :
    PrepareRule env (LookIn looks) fun st => RelatedDb (ConfiguredFrom env looks) xhp st.xhp where
  looked hl h := hl.xhp.symm ▸ h
  missing h := h
  configure {l st curpkgd} hl hinst _ h := by
    obtain ⟨hstate, hmatch⟩ := depInstalled_configure hinst
    have hc : Configured looks curpkgd :=
      ⟨hstate, l, hl.1, hl.2, hmatch, st, curpkgd, hinst, rfl⟩
    exact h.configured (st.storePkgdb_configures hc _)
  remove {l st id} hl hitself h :=
    h.configured (st.removeRunDepend_configures id hl.1 hitself)
  store {l st₁ st₂ st₃ curpkgd ttype autoinst ref d d₃} _ _ _ _ _ _ _ h :=
    (st₃.store_spec ref _ autoinst).1.symm ▸ h
  packages _ h _ := h

/-! ### The dependencies that are looked at -/

/-- The places are about dependencies of their packages. -/
def LooksAsked (looks : List Look) : Prop := ∀ l ∈ looks, l.reqpkg ∈ l.pkgRepod.runDepends.getD []

section LooksAsked

variable {call : Resolver → PkgDict → Resolver × Rv}
  (hcall : ∀ r d, LooksAsked r.looks → LooksAsked (call r d).1.looks)

include hcall

theorem depStep_asked (env : Env) {r : Resolver} (h : LooksAsked r.looks) (pkgRepod : PkgDict)
    (rdeps : Option Nat) (reqpkg : Str) :
    LooksAsked (depStep env call r pkgRepod rdeps reqpkg).1.looks := by
  rw [depStep]
  split
  · exact h
  · exact h
  · exact h
  · exact h
  · next st curpkgd ttype autoinst _ =>
    have hbelow : ∀ {r₀ r₁ : Resolver} {d : PkgDict} {rv : Rv},
        depBelow call r₀ d = (r₁, rv) → r₀.looks = r.looks → LooksAsked r₁.looks := by
      intro r₀ r₁ d rv hb hr₀
      rw [depBelow] at hb
      split at hb
      · cases hb
        rw [hr₀]
        exact h
      · have hrec := hcall r₀ d (hr₀ ▸ h)
        rwa [hb] at hrec
    have hres := depResolve_cases env call { r with st } pkgRepod rdeps reqpkg curpkgd ttype autoinst
    generalize depResolve env call { r with st } pkgRepod rdeps reqpkg curpkgd ttype autoinst = res
      at hres ⊢
    cases hres with
    | failed _ _ | missing _ | unnamed _ _ | nullDeps _ _ _ _ _ | itself _ _ _ _ _
    | updating _ _ _ _ _ _ => exact h
    | @stored _ _ ref d _ _ r₁ _ _ _ _ _ _ hb =>
      have hlooks : (depStore r₁ ref curpkgd ttype autoinst).1.looks = r₁.looks := by
        rw [depStore]
        simp only
        split
        · rfl
        · split
          · rfl
          · rfl
      show LooksAsked (depStore r₁ ref curpkgd ttype autoinst).1.looks
      rw [hlooks]
      exact hbelow hb rfl
    | below _ _ _ _ _ _ hb _ => exact hbelow hb rfl

theorem depLoop_asked (env : Env) (depth : Nat) (pkgRepod : PkgDict) (edits : Nat) :
    ∀ {deps : List Str} {rdeps : Option Nat} {r : Resolver},
      deps ⊆ pkgRepod.runDepends.getD [] → LooksAsked r.looks →
      LooksAsked (depLoop env call depth pkgRepod edits deps rdeps r).1.looks := by
  intro deps
  induction deps with
  | nil => exact fun _ h => h
  | cons reqpkg deps ih =>
    intro rdeps r hsub h
    rw [depLoop]
    split
    · exact h
    · simp only
      have hlook : LooksAsked (r.looks ++ [⟨r.st, r.queued, depth, pkgRepod, reqpkg⟩]) := by
        intro l hl
        rcases List.mem_append.mp hl with hl | hl
        · exact h l hl
        · obtain rfl := List.mem_singleton.mp hl
          exact hsub List.mem_cons_self
      have hstep := depStep_asked hcall env (r := { r with
        looks := r.looks ++ [⟨r.st, r.queued, depth, pkgRepod, reqpkg⟩] }) hlook pkgRepod rdeps reqpkg
      split
      · next r' rdeps' heq =>
        rw [heq] at hstep
        exact ih (fun _ hx => hsub (List.mem_cons_of_mem _ hx)) hstep
      · next r' rdeps' rv _ heq =>
        rw [heq] at hstep
        exact hstep

end LooksAsked

theorem repoDeps_asked (env : Env) : ∀ (n : Nat) (r : Resolver) (pkgRepod : PkgDict),
    LooksAsked r.looks → LooksAsked (repoDeps env n r pkgRepod).1.looks := by
  intro n
  induction n with
  | zero => exact fun _ _ h => h
  | succ n ih =>
    intro r pkgRepod h
    rw [repoDeps]
    exact depLoop_asked ih env _ pkgRepod _ (List.Subset.refl _) h

theorem prepareLoop_asked (env : Env) :
    ∀ (n i : Nat) (st : State) {looks : List Look} (edges : List Str), LooksAsked looks →
      LooksAsked (prepareLoop env n i st looks edges).2.1 := by
  intro n
  induction n with
  | zero => exact fun _ _ _ _ h => h
  | succ n ih =>
    intro i st looks edges h
    rw [prepareLoop]
    cases st.packages[i]? with
    | none => exact h
    | some pkgd =>
      simp only
      split
      · exact ih (i + 1) st edges h
      · have hdeps : LooksAsked (transactionPkgDeps env st pkgd).2.1 :=
          repoDeps_asked env maxDepth { st } pkgd (List.forall_mem_nil _)
        have happ : ∀ {more : List Look}, LooksAsked more → LooksAsked (looks ++ more) := fun hm l hl =>
          (List.mem_append.mp hl).elim (h l) (hm l)
        split
        · next st' more heq =>
          rw [heq] at hdeps
          exact ih (i + 1) _ _ (happ hdeps)
        · next st' more rv _ heq =>
          rw [heq] at hdeps
          exact happ hdeps

theorem prepareDeps_asked (env : Env) (st : State) : LooksAsked (prepareDeps env st).2.1 := by
  have hloop := prepareLoop_asked env st.packages.length 0 st [] (List.forall_mem_nil _)
  rw [prepareDeps]
  split
  · next heq =>
    rw [heq] at hloop
    exact hloop
  · next heq =>
    rw [heq] at hloop
    exact hloop

/-- What the first half of a preparation does to the database. -/
theorem prepareDeps_configures (env : Env) (st : State) :
    RelatedDb (ConfiguredFrom env (prepareDeps env st).2.1) st.xhp (prepareDeps env st).1.xhp :=
  ((configuresRule env (prepareDeps env st).2.1 st.xhp).prepareDepsLeads st).inv
    (fun l hl => ⟨hl, prepareDeps_asked env st l hl⟩)
    (RelatedDb.of_eq (ConfiguredFrom.refl env _) rfl)

/-! ### The `replaces` pass -/

/-- The package of the database that a step of the pass marks to be removed, where it is. -/
def Walk.marks (xhp : Handle) (w : Walk) : Option PkgDict :=
  if w.done.isSome then none
  else
    match w.visit with
    | none | some (_, []) => none
    | some (pos, pattern :: _) =>
      match w.pkgs[pos]? with
      | none => none
      | some obj =>
        match replaceAction xhp w.pkgs obj pattern with
        | .add _ instd false => some instd
        | .add _ _ true | .skip | .fail | .turn _ _ => none

/-- The packages of the database that the first `n` steps of the pass mark. -/
def Walk.marked (xhp : Handle) : Nat → Walk → List PkgDict
  | 0, _ => []
  | n + 1, w =>
    match w.step xhp with
    | none => []
    | some w' => (w.marks xhp).toList ++ w'.marked xhp n

/-- The database after `flappy_transaction_prepare`, in whatever way it ends: the dictionaries it
hands out are marked where they are.  The entries of the transaction are no dictionaries of the
database before, as after requests to install and to update. -/
def preparedDb (env : Env) (fuel : Nat) (st : State) : Handle :=
  let cnt := st.packages.length
  match prepareDeps env st with
  | (st, _, .ok) =>
    if st.xhp.flags.downloadOnly = true ∨ allOnHold st.packages cnt = true then st.xhp
    else
      (Walk.marked st.xhp fuel { pkgs := st.packages }).foldl
        (fun xhp instd => xhp.modifyPkgdb instd markReplaced) st.xhp
  | (st, _, _) => st.xhp

/-- The pattern belongs to an entry of the transaction, or to a package that is found for one. -/
def PatternOf (xhp : Handle) (pkgs : List PkgDict) (pattern : Str) : Prop :=
  ∃ e, (e ∈ pkgs ∨ ReplacedFor xhp pkgs e) ∧ pattern ∈ e.replaces.getD []

theorem PatternOf.replacedFor {xhp : Handle} {pkgs : List PkgDict} {pattern : Str} {d : PkgDict}
    (h : PatternOf xhp pkgs pattern) (hd : installedFor xhp pattern = some d) :
    ReplacedFor xhp pkgs d := by
  obtain ⟨e, he | he, hmem⟩ := h
  · exact .entry he hmem hd
  · exact .chain he hmem hd

/-- All patterns that the pass may come to are such patterns. -/
structure Walk.Sourced (xhp : Handle) (pkgs : List PkgDict) (w : Walk) : Prop where
  entries : ∀ e ∈ w.pkgs, ∀ pattern ∈ e.replaces.getD [], PatternOf xhp pkgs pattern
  visit : ∀ pos left, w.visit = some (pos, left) → ∀ pattern ∈ left, PatternOf xhp pkgs pattern

theorem installedFor_of_candidate {xhp : Handle} {pkgs : List PkgDict} {pattern : Str}
    {instd : PkgDict} (h : replacedCandidate xhp pkgs pattern = some (instd, false)) :
    installedFor xhp pattern = some instd := by
  rw [replacedCandidate, Option.or_eq_some_iff] at h
  rcases h with h | ⟨-, h⟩
  · obtain ⟨d, hd, he⟩ := Option.map_eq_some_iff.mp h
    obtain ⟨rfl, -⟩ := Prod.mk.inj he
    exact hd
  · obtain ⟨d, -, he⟩ := Option.map_eq_some_iff.mp h
    cases he

/-- A step leaves the pass at patterns of the array, or at the rest of those it was at. -/
theorem Walk.step_visit {xhp : Handle} {w w' : Walk} (hstep : w.step xhp = some w') {pos : Nat}
    {left : List Str} (hvisit : w'.visit = some (pos, left)) :
    (∃ e ∈ w.pkgs, left = e.replaces.getD []) ∨
      ∃ pos₀ left₀, w.visit = some (pos₀, left₀) ∧ left ⊆ left₀ := by
  have hkept : w.visit = some (pos, left) →
      ∃ pos₀ left₀, w.visit = some (pos₀, left₀) ∧ left ⊆ left₀ :=
    fun h => ⟨pos, left, h, List.Subset.refl _⟩
  rw [Walk.step] at hstep
  split at hstep
  · cases hstep
  cases hv : w.visit with
  | none =>
    simp only [hv] at hstep
    split at hstep
    · obtain rfl := Option.some.inj hstep
      cases hvisit
    next obj hobj =>
      split at hstep
      · obtain rfl := Option.some.inj hstep
        cases hvisit
      split at hstep
      · obtain rfl := Option.some.inj hstep
        cases hvisit
      · -- the pass comes to an entry
        obtain rfl := Option.some.inj hstep
        simp only [Option.some.injEq, Prod.mk.injEq] at hvisit
        exact Or.inl ⟨obj, List.mem_of_getElem? hobj, hvisit.2.symm⟩
  | some v =>
    obtain ⟨pos₀, left₀⟩ := v
    simp only [hv] at hstep hkept
    cases left₀ with
    | nil =>
      obtain rfl := Option.some.inj hstep
      cases hvisit
    | cons pattern rest =>
      simp only at hstep
      split at hstep
      · obtain rfl := Option.some.inj hstep
        exact Or.inr (hkept hvisit)
      split at hstep
      · obtain rfl := Option.some.inj hstep
        obtain ⟨-, rfl⟩ := Prod.mk.inj (Option.some.inj hvisit)
        exact Or.inr ⟨pos₀, _, rfl, List.subset_cons_self _ _⟩
      · obtain rfl := Option.some.inj hstep
        exact Or.inr (hkept hvisit)

/-- The entries that a step marks or adds have the patterns they had. -/
theorem Walk.step_sourced {xhp : Handle} {pkgs : List PkgDict} {w w' : Walk}
    (h : w.Sourced xhp pkgs) (hstep : w.step xhp = some w') : w'.Sourced xhp pkgs := by
  refine ⟨fun x hx p hp => ?_, fun pos left hvisit p hp => ?_⟩
  · rcases Walk.step_pkgs hstep with hw | ⟨pos, pattern, rest, obj, hvisit, hobj, hw⟩
    · exact h.entries x (hw ▸ hx) p hp
    rw [hw] at hx
    have hpattern := h.visit pos (pattern :: rest) hvisit pattern List.mem_cons_self
    rcases mem_applyReplace hobj hx with hx | ⟨rfl, -⟩ | ⟨instd, inArray, n, hf, y, hy, hfrom⟩
    · exact h.entries x hx p hp
    · exact h.entries obj (List.mem_of_getElem? hobj) p hp
    · have hreplaces : (dropAutomaticInstall x).replaces =
          (dropAutomaticInstall (markReplaced y)).replaces := congrArg PkgDict.replaces hy
      rw [show x.replaces = y.replaces from hreplaces] at hp
      rcases hfrom with rfl | hfind
      · cases inArray with
        | false => exact ⟨y, Or.inr (hpattern.replacedFor (installedFor_of_candidate hf.candidate)), hp⟩
        | true =>
          have hmem := List.mem_of_find?_eq_some (find?_of_replacedCandidate hf.candidate).1
          exact h.entries y hmem p hp
      · exact h.entries y (List.mem_of_find?_eq_some hfind) p hp
  · rcases Walk.step_visit hstep hvisit with ⟨e, he, rfl⟩ | ⟨pos₀, left₀, hvisit₀, hsub⟩
    · exact h.entries e he p hp
    · exact h.visit pos₀ left₀ hvisit₀ p (hsub hp)

/-- A package that a step marks in the database is not on hold, and is found for a pattern. -/
theorem Walk.marks_replacedFor {xhp : Handle} {pkgs : List PkgDict} {w : Walk} {instd : PkgDict}
    (h : w.Sourced xhp pkgs) (hm : w.marks xhp = some instd) :
    instd.hold ≠ some true ∧ ReplacedFor xhp pkgs instd := by
  rw [Walk.marks] at hm
  split at hm
  · cases hm
  split at hm
  · cases hm
  · cases hm
  next pos pattern rest hvisit =>
    split at hm
    · cases hm
    next obj _ =>
      have hspec := replaceAction_spec xhp w.pkgs obj pattern
      cases hact : replaceAction xhp w.pkgs obj pattern with
      | skip | fail | turn _ _ =>
        rw [hact] at hm
        cases hm
      | add instdAuto instd' inArray =>
        rw [hact] at hm hspec
        obtain ⟨n, hfinds, -⟩ := hspec
        -- only a package that is not in the transaction is marked in the database
        cases inArray with
        | true => cases hm
        | false =>
          obtain rfl := Option.some.inj hm
          have hpattern := h.visit pos (pattern :: rest) hvisit pattern List.mem_cons_self
          exact ⟨hfinds.not_hold,
            hpattern.replacedFor (installedFor_of_candidate hfinds.candidate)⟩

theorem Walk.marked_replacedFor {xhp : Handle} {pkgs : List PkgDict} :
    ∀ {n : Nat} {w : Walk}, w.Sourced xhp pkgs →
      ∀ instd ∈ w.marked xhp n, instd.hold ≠ some true ∧ ReplacedFor xhp pkgs instd := by
  intro n
  induction n with
  | zero => exact fun _ instd h => by cases h
  | succ n ih =>
    intro w hw instd h
    rw [Walk.marked] at h
    split at h
    · cases h
    · next w' hstep =>
      rcases List.mem_append.mp h with h | h
      · exact Walk.marks_replacedFor hw (Option.mem_toList.mp h)
      · exact ih (Walk.step_sourced hw hstep) instd h

/-- The package is as it was, or is marked to be removed. -/
def ReplacedFrom (xhp : Handle) (pkgs : List PkgDict) (d d' : PkgDict) : Prop :=
  d' = d ∨ (d.hold ≠ some true ∧ ReplacedFor xhp pkgs d ∧ d' = markReplaced d)

theorem ReplacedFrom.trans {xhp : Handle} {pkgs : List PkgDict} {a b c : PkgDict}
    (h : ReplacedFrom xhp pkgs a b) (h' : ReplacedFrom xhp pkgs b c) : ReplacedFrom xhp pkgs a c := by
  rcases h with rfl | ⟨hhold, hfor, rfl⟩
  · exact h'
  · rcases h' with rfl | ⟨-, -, rfl⟩
    · exact Or.inr ⟨hhold, hfor, rfl⟩
    · exact Or.inr ⟨hhold, hfor, rfl⟩

theorem foldl_markReplaced {xhp₀ : Handle} {pkgs l : List PkgDict}
    (hl : ∀ instd ∈ l, instd.hold ≠ some true ∧ ReplacedFor xhp₀ pkgs instd) :
    ∀ xhp : Handle, RelatedDb (ReplacedFrom xhp₀ pkgs) xhp
      (l.foldl (fun xhp instd => xhp.modifyPkgdb instd markReplaced) xhp) := by
  induction l with
  | nil => exact fun xhp => RelatedDb.of_eq (fun _ => Or.inl rfl) rfl
  | cons instd l ih =>
    intro xhp
    rw [List.forall_mem_cons] at hl
    have hone : RelatedDb (ReplacedFrom xhp₀ pkgs) xhp (xhp.modifyPkgdb instd markReplaced) :=
      RelatedDb.modifyPkgdb (fun _ => Or.inl rfl) xhp (Or.inr ⟨hl.1.1, hl.1.2, rfl⟩)
    exact RelatedDb.trans (fun a b c (hab : ReplacedFrom xhp₀ pkgs a b)
      (hbc : ReplacedFrom xhp₀ pkgs b c) => hab.trans hbc) hone (ih hl.2 _)

/-- A package that is marked twice is marked to be removed. -/
theorem ConfiguredFrom.replaced {st : State} {a b c : PkgDict}
    (h : ConfiguredFrom env looks a b) (h' : ReplacedFrom st.xhp st.packages b c) :
    PreparedFrom env looks st a c := by
  rcases h' with rfl | ⟨hhold, hfor, rfl⟩
  · exact Or.inl h
  · exact Or.inr ⟨b, h, h.same.2.1 ▸ hhold, hfor, rfl⟩

/-- `c` replaces `b`, and needs a library that nothing provides. -/
def marksRepo : Dict Str PkgDict :=
  ⟨[("c".toList, { pkgver := "c-1_1".toList, replaces := some ["b>=0".toList]
                   shlibRequires := some ["libx.so.1".toList] })], List.nodup_singleton _⟩

def marksEnv : Env := { repoOpen := fun uri => if uri = "r".toList then some marksRepo else none }

/-- A request to install `c`, when `b` is installed. -/
def marksSession : Session :=
  (Session.start
    { pkgdb := ⟨[("b".toList, { pkgver := "b-1_1".toList, pkgname := some "b".toList
                                state := some .installed })], List.nodup_singleton _⟩ }
    ["r".toList]).requests marksEnv (fun _ _ => none) [.install "c".toList false]

end Flappy
