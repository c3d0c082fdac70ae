/-
Every entry of the transaction has its dependencies resolved.

The loop of `flappy_transaction_prepare` counts the entries before it starts and
takes them by their position, while the resolver may remove entries from the same
array.  A removal behind the current position is harmless: the entries that wait
move to the left and are still to come.  A removal at or before the current
position moves the next entry into the place that has just been dealt with, and it
is passed over.

* `DepsRun.resolved` — a package that the resolver stores has had its dependencies
  resolved before, unless it is only configured;
* `transactionPrepare_passed` — no entry is passed over, for turns in which no entry
  at or before the current position is replaced while others wait.
-/
import Flappy.Turns

open CStr

namespace Flappy

/-- The dependencies of the stored package have been resolved: there are none, or the resolver
has come along. -/
def StoreCall.Resolved (c : StoreCall) (looks : List Look) : Prop :=
  c.pkgrd.runDepends.getD [] = [] ∨ ∃ l ∈ looks, l.pkgRepod.pkgver = c.pkgrd.pkgver

/-- The entry that a store replaces is behind the position `i`, if the next entry waits. -/
def StoreCall.KeepsPlaces (i cnt : Nat) (c : StoreCall) : Prop :=
  ∀ d, c.replaced = some d → i + 1 < cnt →
    (∃ x, c.pkgs[i + 1]? = some x ∧ ¬(x.transaction = .remove ∨ x.transaction = .hold)) →
    i < c.pkgs.findIdx fun e => e.pkgver = d.pkgver

/-- The stores of the turn move no waiting entry to the position of the turn, and no installed
package that is only to be configured replaces an entry. -/
def Turn.KeepsPlaces (cnt : Nat) (t : Turn) : Prop :=
  ∀ c ∈ t.stores, c.KeepsPlaces t.i cnt ∧
    (c.replaced.isSome → c.pkgrd.transaction ≠ .configure)

/-! ### What is stored -/

theorem StoreCall.Resolved.mono {c : StoreCall} {looks looks' : List Look}
    (h : c.Resolved looks) (hsub : ∀ l ∈ looks, l ∈ looks') : c.Resolved looks' :=
  h.imp_right fun ⟨l, hl, heq⟩ => ⟨l, hsub l hl, heq⟩

/-- What a run stores, it has resolved before. -/
theorem DepsRun.resolved {env : Env} {R : PkgDict → Prop} {p : PkgDict} {r r' : Resolver}
    (h : DepsRun env R p r r') :
    ∃ new, r'.st.stores = r.st.stores ++ new ∧
      ∀ c ∈ new, c.pkgrd.transaction = .configure ∨ c.Resolved r'.looks := by
  induction h with
  | done => exact ⟨[], (List.append_nil _).symm, fun c hc => by cases hc⟩
  | quiet _ _ _ hq _ _ ih =>
    obtain ⟨new, hnew, hres⟩ := ih
    exact ⟨new, hq.stores ▸ hnew, hres⟩
  | @configured _ _ _ _ _ _ c _ _ _ hq hs _ hconf _ _ ih =>
    obtain ⟨new, hnew, hres⟩ := ih
    refine ⟨c :: new, ?_, List.forall_mem_cons.mpr ⟨Or.inl hconf, hres⟩⟩
    rw [hnew, hs.2.1, hq.stores, List.append_assoc, List.singleton_append]
  | @stored _ _ _ _ _ _ _ _ c _ _ _ hq _ hs _ hver _ hdeps _ hrest ihcall ih =>
    obtain ⟨newcall, hnewcall, hrescall⟩ := ihcall
    obtain ⟨new, hnew, hres⟩ := ih
    refine ⟨newcall ++ c :: new, ?_, ?_⟩
    · rw [hnew, hs.2.1, hnewcall, hq.stores]
      simp
    · rw [List.forall_mem_append, List.forall_mem_cons]
      refine ⟨fun c' hc' => (hrescall c' hc').imp_right fun h => h.mono hrest.looks_subset,
        Or.inr ?_, hres⟩
      -- its own run is below
      have hc : c.Resolved _ := hdeps.imp_right fun ⟨l, hl, heq⟩ => ⟨l, hl, heq.trans hver.symm⟩
      exact hc.mono hrest.looks_subset

/-! ### Where the entries wait -/

/-- An entry with this version waits at this position. -/
def Waits (st : State) (k : Nat) (v : Str) : Prop :=
  ∃ x, st.packages[k]? = some x ∧ x.pkgver = v ∧
    ¬(x.transaction = .remove ∨ x.transaction = .hold)

theorem Waits.quiet {st st' : State} (h : Quiet st st') {k : Nat} {v : Str} (hw : Waits st k v) :
    Waits st' k v := by
  obtain ⟨x, hx, hver, htype⟩ := hw
  have hbare := congrArg (fun l => l[k]?) h.packages
  simp only [List.getElem?_map, hx, Option.map_some] at hbare
  obtain ⟨x', hx', heq⟩ := Option.map_eq_some_iff.mp hbare
  obtain ⟨hver', -, htype'⟩ := PkgDict.of_bare_eq heq
  exact ⟨x', hx', hver'.trans hver, htype' ▸ htype⟩

/-- Where an element is after the first one with a property has been removed. -/
theorem getElem?_eraseP {α : Type*} {p : α → Bool} {l : List α} {k : Nat} {x : α}
    (hx : l[k]? = some x) (hne : k ≠ l.findIdx p) :
    (l.eraseP p)[if k < l.findIdx p then k else k - 1]? = some x := by
  have hlt : k < l.length := (List.getElem?_eq_some_iff.mp hx).1
  rw [List.eraseP_eq_eraseIdx]
  cases hj : l.findIdx? p with
  | none =>
    rw [List.findIdx?_eq_none_iff_findIdx_eq] at hj
    rw [if_pos (by omega)]
    exact hx
  | some j =>
    rw [List.findIdx?_eq_some_iff_findIdx_eq] at hj
    rw [hj.2] at hne ⊢
    simp only
    by_cases hk : k < j
    · rw [if_pos hk, List.getElem?_eraseIdx_of_lt hk]
      exact hx
    · rw [if_neg hk, List.getElem?_eraseIdx_of_ge (by omega), show k - 1 + 1 = k by omega]
      exact hx

/-- What a store does to an entry that waits behind the position `i`: it still waits there, or
it is replaced. -/
theorem Waits.store {st st' : State} {c : StoreCall} (h : Stores st c st') {i cnt k : Nat}
    {v : Str} (hi : i < k) (hcnt : k < cnt) (hw : Waits st k v) (hplaces : c.KeepsPlaces i cnt) :
    (∃ d, c.replaced = some d ∧ d.pkgver = v) ∨ ∃ k', i < k' ∧ k' < cnt ∧ Waits st' k' v := by
  obtain ⟨x, hx, hver, htype⟩ := hw
  have hlt : k < st.packages.length := (List.getElem?_eq_some_iff.mp hx).1
  have hpkgs : c.pkgs = st.packages := h.1
  obtain ⟨n, autoinst, ⟨-, heq⟩ | ⟨d, -, -, heq⟩ | ⟨d, -, hr, heq⟩⟩ := h.call
  · right
    refine ⟨k, hi, hcnt, x, ?_, hver, htype⟩
    rw [heq, List.getElem?_append_left hlt]
    exact hx
  · exact Or.inr ⟨k, hi, hcnt, x, heq ▸ hx, hver, htype⟩
  · have hfirst := hplaces d hr
    rw [hpkgs] at hfirst
    generalize hj : (st.packages.findIdx fun e => decide (e.pkgver = d.pkgver)) = j at hfirst
    by_cases hk : k = j
    · -- the first entry with the version is the one that waits
      left
      refine ⟨d, hr, ?_⟩
      rw [hk, ← hj] at hx
      obtain ⟨hlt', rfl⟩ := List.getElem?_eq_some_iff.mp hx
      have hprop := List.findIdx_getElem (w := hlt')
      rw [decide_eq_true_iff] at hprop
      exact hprop.symm.trans hver
    · right
      have herase := getElem?_eraseP hx (hj ▸ hk)
      rw [hj] at herase
      refine ⟨if k < j then k else k - 1, ?_, ?_, x, ?_, hver, htype⟩
      · by_cases hnext : k = i + 1
        · subst hnext
          have := hfirst hcnt ⟨x, hx, htype⟩
          split <;> omega
        · split <;> omega
      · split <;> omega
      · rw [heq, removePkgFromArrayByPkgver,
          List.getElem?_append_left (List.getElem?_eq_some_iff.mp herase).1]
        exact herase

/-! ### One turn -/

/-- The version has been replaced since the first `m` stores, or waits behind the position `i`. -/
def ReplacedOrWaits (m i cnt : Nat) (v : Str) (st : State) : Prop :=
  m ≤ st.stores.length ∧
    ((∃ c ∈ st.stores.drop m, ∃ d, c.replaced = some d ∧ d.pkgver = v) ∨
      ∃ k, i < k ∧ k < cnt ∧ Waits st k v)

theorem replacedOrWaits_rule (R : PkgDict → Prop) (m i cnt : Nat) (v : Str) :
    StoreRule R (StoreCall.KeepsPlaces i cnt) (ReplacedOrWaits m i cnt v) where
  quiet hq h := by
    refine ⟨hq.stores ▸ h.1, ?_⟩
    rw [hq.stores]
    exact h.2.imp_right fun ⟨k, hi, hcnt, hw⟩ => ⟨k, hi, hcnt, hw.quiet hq⟩
  store {st st' c} hs _ hok h := by
    obtain ⟨hm, h⟩ := h
    rw [ReplacedOrWaits, hs.2.1, List.drop_append_of_le_length hm, List.length_append]
    refine ⟨by omega, ?_⟩
    rcases h with ⟨c', hc', hd⟩ | ⟨k, hi, hcnt, hw⟩
    · exact Or.inl ⟨c', List.mem_append_left _ hc', hd⟩
    · rcases hw.store hs hi hcnt hok with hd | hk
      · exact Or.inl ⟨c, List.mem_append_right _ List.mem_cons_self, hd⟩
      · exact Or.inr hk

/-- The stores of a turn that replace an entry have had their dependencies resolved. -/
theorem Turn.KeepsPlaces.resolved {cnt : Nat} {t : Turn} (h : t.KeepsPlaces cnt) {env : Env}
    {R : PkgDict → Prop} {st st' : State} {p : PkgDict}
    (hrun : DepsRun env R p ⟨st, [], []⟩ ⟨st', [], t.looks⟩)
    (hstores : t.stores = st'.stores.drop st.stores.length) :
    ∀ c ∈ t.stores, c.replaced.isSome → c.Resolved t.looks := by
  intro c hc hr
  obtain ⟨new, hnew, hres⟩ := hrun.resolved
  have hmem : c ∈ new := by
    rw [hstores, hnew, List.drop_left] at hc
    exact hc
  rcases hres c hmem with hconf | hc'
  · exact absurd hconf ((h c hc).2 hr)
  · exact hc'

/-! ### Every run -/

/-- The turn passes this version to the resolver, or the one that replaces it. -/
def Turn.Passes (t : Turn) (v : Str) : Prop :=
  t.pkgd.pkgver = v ∨
    ∃ c ∈ t.stores, (∃ d, c.replaced = some d ∧ d.pkgver = v) ∧ c.Resolved t.looks

/-- The loop before the position `i`: every entry has been passed, or waits. -/
structure PassedInv (orig : List PkgDict) (i : Nat) (st : State) (turns : List Turn) : Prop where
  passed : ∀ e ∈ orig, ¬(e.transaction = .remove ∨ e.transaction = .hold) →
    (∃ t ∈ turns, t.Passes e.pkgver) ∨ ∃ k, i ≤ k ∧ k < orig.length ∧ Waits st k e.pkgver
  resolved : ∀ t ∈ turns, ∀ c ∈ t.stores, c.replaced.isSome → c.Resolved t.looks

theorem PassedInv.start (st : State) : PassedInv st.packages 0 st [] := by
  refine ⟨fun e he htype => Or.inr ?_, fun t ht => by cases ht⟩
  obtain ⟨k, hlt, rfl⟩ := List.mem_iff_getElem.mp he
  exact ⟨k, Nat.zero_le k, hlt, _, List.getElem?_eq_getElem hlt, rfl, htype⟩

theorem PassedInv.skip {orig : List PkgDict} {i : Nat} {st : State} {turns : List Turn}
    {pkgd : PkgDict} (h : PassedInv orig i st turns) (hi : st.packages[i]? = some pkgd)
    (htype : pkgd.transaction = .remove ∨ pkgd.transaction = .hold) :
    PassedInv orig (i + 1) st turns := by
  refine ⟨fun e he hne => ?_, h.resolved⟩
  rcases h.passed e he hne with hp | ⟨k, hk, hlt, x, hx, hver, hx'⟩
  · exact Or.inl hp
  · refine Or.inr ⟨k, ?_, hlt, x, hx, hver, hx'⟩
    rcases Nat.lt_or_eq_of_le hk with hk | rfl
    · exact hk
    · obtain rfl := Option.some.inj (hi.symm.trans hx)
      exact absurd htype hx'

theorem Waits.append {st : State} {k : Nat} {v : Str} (h : Waits st k v) (more : List PkgDict) :
    Waits { st with packages := st.packages ++ more } k v := by
  obtain ⟨x, hx, hver, htype⟩ := h
  refine ⟨x, ?_, hver, htype⟩
  show (st.packages ++ more)[k]? = some x
  rw [List.getElem?_append_left (List.getElem?_eq_some_iff.mp hx).1]
  exact hx

theorem PassedInv.turn {orig : List PkgDict} {i : Nat} {st st' : State} {turns : List Turn}
    {pkgd : PkgDict} {edges : List Str} {more : List Look} {env : Env} {xhp : Handle}
    (h : PassedInv orig i st turns) (hi : st.packages[i]? = some pkgd)
    (hst : DictInv xhp (fun _ => True) (fun _ => True) st)
    (hrun : transactionPkgDeps env st pkgd = (st', more, .ok))
    (hok : Turn.KeepsPlaces orig.length
      ⟨i, pkgd, edges, more, st'.stores.drop st.stores.length⟩) :
    PassedInv orig (i + 1) { st' with packages := st'.packages ++ [st'.refresh st.edits pkgd] }
      (turns ++ [⟨i, pkgd, edges, more, st'.stores.drop st.stores.length⟩]) := by
  have hresolved := hok.resolved ((ResolverInput.any env xhp).transactionPkgDeps hst hrun).1 rfl
  refine ⟨fun e he hne => ?_, fun t ht => ?_⟩
  · rcases h.passed e he hne with ⟨t, ht, hp⟩ | ⟨k, hk, hlt, hw⟩
    · exact Or.inl ⟨t, List.mem_append_left _ ht, hp⟩
    · rcases Nat.lt_or_eq_of_le hk with hk | rfl
      · have hturn := (replacedOrWaits_rule _ st.stores.length i orig.length e.pkgver).turn
          (ResolverInput.any env xhp) hst hrun (fun c hc => (hok c hc).1)
          ⟨Nat.le_refl _, Or.inr ⟨k, hk, hlt, hw⟩⟩
        rcases hturn.2 with ⟨c, hc, d, hr, hd⟩ | ⟨k', hk', hlt', hw'⟩
        · refine Or.inl ⟨_, List.mem_append_right _ List.mem_cons_self, Or.inr ?_⟩
          exact ⟨c, hc, ⟨d, hr, hd⟩, hresolved c hc (hr ▸ rfl)⟩
        · exact Or.inr ⟨k', hk', hlt', hw'.append _⟩
      · -- it is its turn
        obtain ⟨x, hx, hver, -⟩ := hw
        obtain rfl := Option.some.inj (hi.symm.trans hx)
        exact Or.inl ⟨_, List.mem_append_right _ List.mem_cons_self, Or.inl hver⟩
  · rcases List.mem_append.mp ht with ht | ht
    · exact h.resolved t ht
    · rw [List.mem_singleton.mp ht]
      exact hresolved

/-- **No entry is passed over.**  Take any array.  If no store moves a waiting entry to the
position that the loop is at, and no installed package that is only to be configured replaces
an entry, then every entry that is not removed or on hold is passed to the resolver, or is
replaced by a package that the resolver has been through; and so is whatever else is replaced. -/
theorem transactionPrepare_passed (env : Env) (st st' : State) (looks : List Look)
    (hturns : ∀ t ∈ st.turns env, t.KeepsPlaces st.packages.length)
    (h : prepareDeps env st = (st', looks, .ok)) :
    (∀ e ∈ st.packages, ¬(e.transaction = .remove ∨ e.transaction = .hold) →
        ∃ t ∈ st.turns env, t.Passes e.pkgver) ∧
      ∀ t ∈ st.turns env, ∀ c ∈ t.stores, c.replaced.isSome → c.Resolved t.looks := by
  have hst : DictInv st.xhp (fun _ => True) (fun _ => True) st :=
    ⟨SameDb.refl _, fun _ _ _ => trivial, fun _ _ => trivial⟩
  have hin := ResolverInput.any env st.xhp
  obtain ⟨st₁, edges, hloop, -⟩ := prepareDeps_ok h
  have hend := @prepareLoop_inv env (Turn.KeepsPlaces st.packages.length)
    (fun i st₁ _ _ turns => DictInv st.xhp (fun _ => True) (fun _ => True) st₁ ∧
      PassedInv st.packages i st₁ turns)
    (fun hi htype hJ => ⟨hJ.1, hJ.2.skip hi htype⟩)
    (fun {i st₁ looks₁ edges₁ turns₁ pkgd st₂ more} hi _ hrun hok hJ =>
      ⟨hin.append hi hJ.1 (hin.transactionPkgDeps hJ.1 hrun).2, hJ.2.turn hi hJ.1 hrun hok⟩)
    _ _ _ _ _ _ _ _ [] ⟨hst, PassedInv.start st⟩ hturns hloop
  refine ⟨fun e he hne => ?_, hend.2.resolved⟩
  rcases hend.2.passed e he hne with hp | ⟨k, hk, hlt, -⟩
  · exact hp
  · omega

instance (i cnt : Nat) (c : StoreCall) : Decidable (c.KeepsPlaces i cnt) :=
  decidable_of_iff (∀ d ∈ c.replaced, i + 1 < cnt →
    (∃ x ∈ c.pkgs[i + 1]?, ¬(x.transaction = .remove ∨ x.transaction = .hold)) →
    i < c.pkgs.findIdx fun e => e.pkgver = d.pkgver) Iff.rfl

instance (cnt : Nat) (t : Turn) : Decidable (t.KeepsPlaces cnt) :=
  inferInstanceAs (Decidable (∀ c ∈ t.stores, c.KeepsPlaces t.i cnt ∧
    (c.replaced.isSome → c.pkgrd.transaction ≠ .configure)))

/-- `b` needs a newer `a` than the one that waits behind it.  That one is replaced, and `e` is
dealt with in its place. -/
theorem transactionPrepare_passed_turnsEnv :
    (turnsSession ["b", "a", "e"]).st.packages.map PkgDict.pkgver =
        ["b-1_1", "a-1_1", "e-1_1"].map String.toList ∧
      ((turnsSession ["b", "a", "e"]).st.turns turnsEnv).map (fun t => t.pkgd.pkgver) =
        ["b-1_1", "e-1_1", "a-2_1"].map String.toList ∧
      ∀ e ∈ (turnsSession ["b", "a", "e"]).st.packages,
        ¬(e.transaction = .remove ∨ e.transaction = .hold) →
          ∃ t ∈ (turnsSession ["b", "a", "e"]).st.turns turnsEnv, t.Passes e.pkgver := by
  have hrv : (prepareDeps turnsEnv (turnsSession ["b", "a", "e"]).st).2.2 = .ok := by
    decide +kernel
  have hturns : ∀ t ∈ (turnsSession ["b", "a", "e"]).st.turns turnsEnv,
      t.KeepsPlaces (turnsSession ["b", "a", "e"]).st.packages.length := by decide +kernel
  refine ⟨by decide +kernel, by decide +kernel, ?_⟩
  exact (transactionPrepare_passed turnsEnv _ _ _ hturns (Prod.ext rfl (Prod.ext rfl hrv))).1

/-- In the other order `a` has been dealt with when it is replaced.  `e` moves to the place of
`b`, the copy of `a` is dealt with in its place, and no one looks at the dependency of `e`. -/
theorem transactionPrepare_passedOver :
    (prepareDeps turnsEnv (turnsSession ["a", "b", "e"]).st).2.2 = .ok ∧
      ∃ e ∈ (turnsSession ["a", "b", "e"]).st.packages,
        e.transaction = .install ∧ e.runDepends = some ["f>=0".toList] ∧
        (prepareDeps turnsEnv (turnsSession ["a", "b", "e"]).st).1.packages.map PkgDict.pkgver =
          [e.pkgver, "a-2_1".toList, "c-1_1".toList, "b-1_1".toList] ∧
        ∀ t ∈ (turnsSession ["a", "b", "e"]).st.turns turnsEnv, t.pkgd.pkgver ≠ e.pkgver ∧
          (∀ l ∈ t.looks, l.pkgRepod.pkgver ≠ e.pkgver) ∧
          ∀ c ∈ t.stores, ∀ d ∈ c.replaced, d.pkgver ≠ e.pkgver := by
  decide +kernel

end Flappy
