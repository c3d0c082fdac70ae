/-
A prepared transaction has dependencies first.

The loop of `flappy_transaction_prepare` leaves the entries it counts where they
are, and puts behind them what the resolver stores and then the entries
themselves; the counted ones go at the end.  What is stored for a package, is
stored before the package is, so the order is that of a depth-first walk.

A dependency that resolves to an entry which still waits breaks it: nothing is
stored, and the entry goes behind the package that needs it.  So does a store that
replaces an entry, since the new version goes to the end, and so does a package that
is found to depend on itself: the dependencies behind that one are not looked at.

* `DepsRun.order` — what is put behind the counted entries by a run of the resolver
  is below its package, and comes after what it depends on;
* `transactionPrepare_dependencyFirst` — the prepared transaction has dependencies
  first, for turns in which none of this happens.
-/
import Flappy.Once

open CStr Relation

namespace Flappy

/-- `v` is what a dependency of `q` resolves to, where the resolver has come along. -/
def ResolvedFor (env : Env) (looks : List Look) (v q : Str) : Prop :=
  ∃ l ∈ looks, l.target env = some v ∧ l.pkgRepod.pkgver = q

/-- The entry is a package to be installed or updated. -/
def PkgDict.Installs (d : PkgDict) : Prop :=
  d.transaction = .install ∨ d.transaction = .update

/-- The resolver has come along every dependency of the package. -/
def ExaminedIn (looks : List Look) (p : PkgDict) : Prop :=
  ∀ dep ∈ p.runDepends.getD [], ∃ l ∈ looks, l.pkgRepod.pkgver = p.pkgver ∧ l.reqpkg = dep

/-- It is known what all dependencies of the packages to be installed or updated resolve to, and
no such package comes before one that it depends on. -/
structure DependencyFirst (env : Env) (looks : List Look) (pkgs : List PkgDict) : Prop where
  examined : ∀ p ∈ pkgs, p.Installs → ExaminedIn looks p
  first : pkgs.Pairwise fun a b =>
    a.Installs → b.Installs → ¬ ResolvedFor env looks b.pkgver a.pkgver

/-- The entries for which the loop takes a turn. -/
def takesTurn (d : PkgDict) : Bool := !decide (d.transaction = .remove ∨ d.transaction = .hold)

/-- The versions behind the first `cnt` entries. -/
def placed (cnt : Nat) (pkgs : List PkgDict) : List Str := (pkgs.drop cnt).map PkgDict.pkgver

/-- The versions of the counted entries that wait for a turn at the position `i` or later. -/
def waiting (counted : List PkgDict) (i : Nat) : List Str :=
  ((counted.drop i).filter takesTurn).map PkgDict.pkgver

/-- The store replaces nothing, and the version has not been put behind the first `cnt` entries
before. -/
def StoreCall.Places (cnt : Nat) (c : StoreCall) : Prop :=
  c.replaced = none ∧ c.pkgrd.pkgver ∉ placed cnt c.pkgs

/-- The turn stores packages that have no place yet, no dependency resolves to an entry that
still waits, and no package is found to depend on itself. -/
structure Turn.KeepsOrder (env : Env) (cnt : Nat) (t : Turn) : Prop where
  stores : ∀ c ∈ t.stores, c.Places cnt
  looks : ∀ l ∈ t.looks, ∀ v ∈ l.target env,
    v ∉ waiting (l.st.packages.take cnt) (t.i + 1)
  itself : ∀ l ∈ t.looks, l.itself env = false

/-! ### What is in the array -/

/-- Nothing will be put into the array with this version: there is an entry of that name, and
it is not one that waits. -/
def Settled (orig : List PkgDict) (i : Nat) (v : Str) (pkgs : List PkgDict) : Prop :=
  v ∉ waiting orig i ∧ ∃ e ∈ pkgs, pkgName e.pkgver = pkgName v

/-- What holds in a turn at the position `i`: the counted entries are still there, the rest is in
order, and so it will stay, except for dependencies that are `pending`. -/
structure OrderInv (env : Env) (orig : List PkgDict) (i : Nat) (pending : Look → Prop)
    (looks : List Look) (pkgs : List PkgDict) : Prop where
  plain : ∀ e ∈ pkgs, PlainNamed e
  head : (pkgs.take orig.length).map PkgDict.bare = orig.map PkgDict.bare
  fresh : ∀ v ∈ placed orig.length pkgs, v ∉ waiting orig i
  order : (placed orig.length pkgs).Pairwise fun a b => ¬ ResolvedFor env looks b a
  settled : ∀ l ∈ looks, ∀ v, l.target env = some v → pending l ∨ Settled orig i v pkgs
  examined : ∀ e ∈ pkgs.drop orig.length, e.Installs → ExaminedIn looks e

theorem ExaminedIn.mono {looks looks' : List Look} {p q : PkgDict} (h : ExaminedIn looks p)
    (hlooks : looks ⊆ looks') (hver : q.pkgver = p.pkgver)
    (hdeps : q.runDepends.getD [] ⊆ p.runDepends.getD []) : ExaminedIn looks' q := by
  intro dep hdep
  obtain ⟨l, hl, hl', hreq⟩ := h dep (hdeps hdep)
  exact ⟨l, hlooks hl, hl'.trans hver.symm, hreq⟩

theorem PkgDict.installs_congr {d d' : PkgDict} (h : d.transaction = d'.transaction) :
    d.Installs ↔ d'.Installs := by
  rw [PkgDict.Installs, PkgDict.Installs, h]

theorem waiting_mono (orig : List PkgDict) {i j : Nat} (h : i ≤ j) {v : Str}
    (hv : v ∈ waiting orig j) : v ∈ waiting orig i :=
  (((List.drop_sublist_drop_left orig h).filter takesTurn).map PkgDict.pkgver).subset hv

theorem waiting_eq_cons {orig : List PkgDict} {i : Nat} {entry : PkgDict}
    (h : orig[i]? = some entry) (hturn : takesTurn entry = true) :
    waiting orig i = entry.pkgver :: waiting orig (i + 1) := by
  rw [waiting, List.drop_eq_getElem?_toList_append, h, Option.toList_some, List.singleton_append,
    List.filter_cons_of_pos hturn]
  rfl

/-- Without the dependencies, the same entries have the same versions. -/
theorem pkgvers_of_bare {l l' : List PkgDict} (h : l.map PkgDict.bare = l'.map PkgDict.bare) :
    l.map PkgDict.pkgver = l'.map PkgDict.pkgver ∧
      (l.filter takesTurn).map PkgDict.pkgver = (l'.filter takesTurn).map PkgDict.pkgver := by
  constructor
  · have hver := congrArg (List.map PkgDict.pkgver) h
    rwa [List.map_map, List.map_map] at hver
  · have hver := congrArg (fun l => (l.filter takesTurn).map PkgDict.pkgver) h
    simp only [List.filter_map, List.map_map] at hver
    exact hver

theorem Quiet.placed {st st' : State} (h : Quiet st st') (cnt : Nat) :
    placed cnt st'.packages = placed cnt st.packages := by
  rw [Flappy.placed, Flappy.placed, List.map_drop, List.map_drop, h.pkgvers]

theorem Quiet.exists_name {st st' : State} (h : Quiet st st') {n : Option Str}
    (hn : ∃ e ∈ st.packages, pkgName e.pkgver = n) : ∃ e ∈ st'.packages, pkgName e.pkgver = n := by
  obtain ⟨e, he, rfl⟩ := hn
  have hver : e.pkgver ∈ st'.packages.map PkgDict.pkgver := h.pkgvers ▸ List.mem_map_of_mem he
  obtain ⟨e', he', heq⟩ := List.mem_map.mp hver
  exact ⟨e', he', heq ▸ rfl⟩

namespace OrderInv

variable {env : Env} {orig : List PkgDict} {i : Nat} {pending : Look → Prop} {looks : List Look}
  {pkgs : List PkgDict} {st st' : State}

theorem quiet (h : OrderInv env orig i pending looks st.packages) (hq : Quiet st st') :
    OrderInv env orig i pending looks st'.packages where
  plain := hq.plain h.plain
  head := by
    rw [List.map_take, hq.packages, ← List.map_take]
    exact h.head
  fresh := hq.placed orig.length ▸ h.fresh
  order := hq.placed orig.length ▸ h.order
  settled l hl v hv := (h.settled l hl v hv).imp_right fun hs => ⟨hs.1, hq.exists_name hs.2⟩
  examined e' he' hi := by
    obtain ⟨e, he, hbare, hdeps⟩ := hq.origin he'
    obtain ⟨hver, -, ht⟩ := PkgDict.of_bare_eq hbare
    exact (h.examined e he ((PkgDict.installs_congr ht).mpr hi)).mono (List.Subset.refl _)
      hver.symm hdeps

/-- The resolver comes along a dependency of a package that has no place yet. -/
theorem look (h : OrderInv env orig i pending looks pkgs) (pending' : Look → Prop)
    (hsub : ∀ l, pending l → pending' l) {l : Look}
    (hp : l.pkgRepod.pkgver ∉ placed orig.length pkgs)
    (hl : ∀ v, l.target env = some v → pending' l ∨ Settled orig i v pkgs) :
    OrderInv env orig i pending' (looks ++ [l]) pkgs where
  plain := h.plain
  head := h.head
  fresh := h.fresh
  order := by
    refine h.order.imp_of_mem ?_
    rintro a b ha - hnot ⟨l', hl', hv, rfl⟩
    rcases List.mem_append.mp hl' with hl' | hl'
    · exact hnot ⟨l', hl', hv, rfl⟩
    · rw [List.mem_singleton.mp hl'] at ha
      exact hp ha
  settled l' hl' v hv := by
    rcases List.mem_append.mp hl' with hl' | hl'
    · exact (h.settled l' hl' v hv).imp_left (hsub l')
    · rw [List.mem_singleton.mp hl'] at hv ⊢
      exact hl v hv
  examined e he hi :=
    (h.examined e he hi).mono (fun _ => List.mem_append_left _) rfl (List.Subset.refl _)

/-- The resolver comes along a dependency, which is pending from now on. -/
theorem lookPending (h : OrderInv env orig i pending looks st.packages) {l : Look}
    (hp : l.pkgRepod.pkgver ∉ placed orig.length st.packages) (hq : Quiet st st') :
    OrderInv env orig i (fun l' => pending l' ∨ l' = l) (looks ++ [l]) st'.packages :=
  (h.look (fun l' => pending l' ∨ l' = l) (fun _ => Or.inl) hp
    fun _ _ => Or.inl (Or.inr rfl)).quiet hq

/-- A dependency is not pending any more. -/
theorem settle (h : OrderInv env orig i pending looks pkgs) {pending' : Look → Prop}
    (hsettled : ∀ l, pending l → ∀ v, l.target env = some v →
      pending' l ∨ Settled orig i v pkgs) : OrderInv env orig i pending' looks pkgs where
  plain := h.plain
  head := h.head
  fresh := h.fresh
  order := h.order
  settled l hl v hv := (h.settled l hl v hv).elim (fun hp => hsettled l hp v hv) Or.inr
  examined := h.examined

/-- The loop goes on. -/
theorem mono (h : OrderInv env orig i pending looks pkgs) {j : Nat} (hij : i ≤ j) :
    OrderInv env orig j pending looks pkgs where
  plain := h.plain
  head := h.head
  fresh v hv hw := h.fresh v hv (waiting_mono orig hij hw)
  order := h.order
  settled l hl v hv := (h.settled l hl v hv).imp_right fun hs =>
    ⟨fun hw => hs.1 (waiting_mono orig hij hw), hs.2⟩
  examined := h.examined

theorem length_le (h : OrderInv env orig i pending looks pkgs) : orig.length ≤ pkgs.length := by
  have := congrArg List.length h.head
  simp only [List.length_map, List.length_take] at this
  omega

/-- What waits is in the array. -/
theorem exists_of_waiting (h : OrderInv env orig i pending looks pkgs) {v : Str}
    (hv : v ∈ waiting orig i) : ∃ e ∈ pkgs, e.pkgver = v := by
  obtain ⟨e, he, rfl⟩ := List.mem_map.mp hv
  have hbare : e.bare ∈ (pkgs.take orig.length).map PkgDict.bare :=
    h.head ▸ List.mem_map_of_mem (List.mem_of_mem_drop (List.mem_of_mem_filter he))
  obtain ⟨x, hx, heq⟩ := List.mem_map.mp hbare
  exact ⟨x, List.mem_of_mem_take hx, (PkgDict.of_bare_eq heq).1⟩

/-- Something is put at the end, and no package that has a place depends on it. -/
theorem append (h : OrderInv env orig i pending looks pkgs) {j : Nat} (hij : i ≤ j) {e : PkgDict}
    (he : PlainNamed e) (hexamined : e.Installs → ExaminedIn looks e)
    (hnew : e.pkgver ∉ waiting orig j)
    (hnot : ∀ a ∈ placed orig.length pkgs, ¬ ResolvedFor env looks e.pkgver a) :
    placed orig.length (pkgs ++ [e]) = placed orig.length pkgs ++ [e.pkgver] ∧
      OrderInv env orig j pending looks (pkgs ++ [e]) := by
  have hplaced : placed orig.length (pkgs ++ [e]) = placed orig.length pkgs ++ [e.pkgver] := by
    rw [placed, List.drop_append_of_le_length h.length_le, List.map_append]
    rfl
  refine ⟨hplaced, fun x hx => ?_, ?_, fun v hv => ?_, ?_, fun l hl v hv => ?_,
    fun x hx hi => ?_⟩
  · rcases List.mem_append.mp hx with hx | hx
    · exact h.plain x hx
    · rw [List.mem_singleton.mp hx]
      exact he
  · rw [List.take_append_of_le_length h.length_le]
    exact h.head
  · rw [hplaced] at hv
    rcases List.mem_append.mp hv with hv | hv
    · exact fun hw => h.fresh v hv (waiting_mono orig hij hw)
    · rw [List.mem_singleton.mp hv]
      exact hnew
  · rw [hplaced, List.pairwise_append]
    refine ⟨h.order, List.pairwise_singleton _ _, fun a ha b hb => ?_⟩
    rw [List.mem_singleton.mp hb]
    exact hnot a ha
  · refine (h.settled l hl v hv).imp_right fun hs => ⟨fun hw => hs.1 (waiting_mono orig hij hw), ?_⟩
    obtain ⟨x, hx, hname⟩ := hs.2
    exact ⟨x, List.mem_append_left _ hx, hname⟩
  · rw [List.drop_append_of_le_length h.length_le] at hx
    rcases List.mem_append.mp hx with hx | hx
    · exact h.examined x hx hi
    · rw [List.mem_singleton.mp hx] at hi ⊢
      exact hexamined hi

/-- A store puts the package at the end, or there is an entry of its name. -/
theorem store (h : OrderInv env orig i pending looks st.packages) {c : StoreCall}
    (hs : Stores st c st') (hc : PlainNamed c.pkgrd) (hok : c.Places orig.length)
    (hexamined : c.pkgrd.Installs → ExaminedIn looks c.pkgrd)
    (hpending : ∀ l, pending l → l.pkgRepod.pkgver ∉ placed orig.length st.packages) :
    ∃ new, placed orig.length st'.packages = placed orig.length st.packages ++ new ∧
      (∀ x ∈ new, x = c.pkgrd.pkgver) ∧
      (∃ e ∈ st'.packages, pkgName e.pkgver = pkgName c.pkgrd.pkgver) ∧
      OrderInv env orig i pending looks st'.packages := by
  obtain ⟨hnone, hsome⟩ := @StoreCall.found_name c (hs.1 ▸ h.plain) hc
  rw [hs.1] at hnone hsome
  obtain ⟨n, autoinst, ⟨hf, heq⟩ | ⟨d, hf, -, heq⟩ | ⟨d, -, hr, -⟩⟩ := hs.call
  · -- no entry has the name
    have hname := hnone hf
    have hwait : c.pkgrd.pkgver ∉ waiting orig i := by
      intro hw
      obtain ⟨e, he, hver⟩ := h.exists_of_waiting hw
      exact hname e he (congrArg pkgName hver)
    have hnot : ∀ a ∈ placed orig.length st.packages, ¬ ResolvedFor env looks c.pkgrd.pkgver a := by
      rintro a ha ⟨l, hl, hv, rfl⟩
      rcases h.settled l hl _ hv with hp | ⟨-, e, he, heq⟩
      · exact hpending l hp ha
      · exact hname e he heq
    obtain ⟨hplaced, hinv⟩ := h.append (Nat.le_refl i) (e := storedCopy c.pkgrd n autoinst)
      (hc.congr rfl rfl) (fun hi => (hexamined hi).mono (List.Subset.refl _) rfl
        (List.Subset.refl _)) hwait hnot
    rw [heq]
    exact ⟨_, hplaced, fun x hx => List.mem_singleton.mp hx,
      ⟨_, List.mem_append_right _ List.mem_cons_self, rfl⟩, hinv⟩
  · obtain ⟨hd, hname⟩ := hsome d hf
    rw [heq]
    exact ⟨[], (List.append_nil _).symm, fun x hx => (by cases hx), ⟨d, hd, hname⟩, h⟩
  · exact absurd (hr.symm.trans hok.1) (by simp)

end OrderInv

/-! ### A run of the resolver -/

/-- A call for the package `p`: it has no place yet, and is below the packages that are queued,
below the entry of the turn, and below those with a dependency that is pending. -/
structure CallBelow (T : Str → Str → Prop) (cnt : Nat) (entry : Str) (pending : Look → Prop)
    (p : PkgDict) (queued pkgs : List PkgDict) : Prop where
  free : p.pkgver ∉ placed cnt pkgs
  queued : ∀ a ∈ queued, ReflTransGen T p.pkgver a.pkgver
  entry : ReflTransGen T p.pkgver entry
  pending : ∀ l, pending l →
    TransGen T p.pkgver l.pkgRepod.pkgver ∧ l.pkgRepod.pkgver ∉ placed cnt pkgs

namespace CallBelow

variable {T : Str → Str → Prop} {cnt : Nat} {entry : Str} {pending : Look → Prop} {p : PkgDict}
  {queued pkgs pkgs' : List PkgDict}

/-- What is below the package gets its place. -/
theorem grow (h : CallBelow T cnt entry pending p queued pkgs) (hacyclic : ∀ v, ¬ TransGen T v v)
    {new : List Str} (hnew : placed cnt pkgs' = placed cnt pkgs ++ new)
    (hbelow : ∀ x ∈ new, TransGen T x p.pkgver) :
    CallBelow T cnt entry pending p queued pkgs' := by
  refine ⟨?_, h.queued, h.entry, fun l hl => ⟨(h.pending l hl).1, ?_⟩⟩
  · rw [hnew, List.mem_append, not_or]
    exact ⟨h.free, fun hx => hacyclic _ (hbelow _ hx)⟩
  · obtain ⟨habove, hfree⟩ := h.pending l hl
    rw [hnew, List.mem_append, not_or]
    exact ⟨hfree, fun hx => hacyclic _ ((hbelow _ hx).trans habove)⟩

/-- The call for a dependency of the package. -/
theorem call (h : CallBelow T cnt entry pending p queued pkgs) {d : PkgDict} {l : Look}
    (hl : l.pkgRepod = p) (hT : T d.pkgver p.pkgver) (hfree : d.pkgver ∉ placed cnt pkgs) :
    CallBelow T cnt entry (fun l' => pending l' ∨ l' = l) d (queued ++ [d]) pkgs := by
  refine ⟨hfree, fun a ha => ?_, ReflTransGen.head hT h.entry, fun l' hl' => ?_⟩
  · rcases List.mem_append.mp ha with ha | ha
    · exact ReflTransGen.head hT (h.queued a ha)
    · rw [List.mem_singleton.mp ha]
  · rcases hl' with hl' | rfl
    · exact ⟨TransGen.head hT (h.pending l' hl').1, (h.pending l' hl').2⟩
    · rw [hl]
      exact ⟨TransGen.single hT, h.free⟩

end CallBelow

theorem findAnyInArray_mem {xhp : Handle} {array : List PkgDict} {reqpkg : Str} {d : PkgDict}
    (h : findAnyInArray xhp array reqpkg = some d) : d ∈ array := by
  rw [findAnyInArray, Option.or_eq_some_iff] at h
  rcases h with h | ⟨-, h⟩
  · exact findPkgInArray_mem h
  · exact findVirtualpkgInArray_mem h

theorem Look.mem_of_answer {l : Look} {d : PkgDict} (h : l.answer = some d) :
    d ∈ l.queued ∨ d ∈ l.st.packages := by
  rw [Look.answer, Option.or_eq_some_iff] at h
  rcases h with h | ⟨-, h⟩
  · exact Or.inl (findAnyInArray_mem h)
  · exact Or.inr (findAnyInArray_mem (Option.filter_eq_some_iff.mp h).1)

/-- What has a place keeps it. -/
theorem placed_rule (R : PkgDict → Prop) (cnt : Nat) (v : Str) :
    StoreRule R (fun c => c.replaced = none) fun st => v ∈ placed cnt st.packages where
  quiet hq h := hq.placed cnt ▸ h
  store {st st' c} hs _ hok h := by
    obtain ⟨n, autoinst, ⟨-, heq⟩ | ⟨d, -, -, heq⟩ | ⟨d, -, hr, -⟩⟩ := hs.call
    · rw [heq, placed, List.drop_append, List.map_append]
      exact List.mem_append_left _ h
    · rw [heq]
      exact h
    · exact absurd (hr.symm.trans hok) (by simp)

section Runs

variable {env : Env} {orig : List PkgDict} {i : Nat} {prev all : List Look} {entry : Str}

/-- Where a dependency resolves to does not wait. -/
theorem not_mem_waiting {pending : Look → Prop} {p : PkgDict} {r : Resolver} {looks : List Look}
    (hacyclic : ∀ v, ¬ TransGen (ResolvedFor env all) v v)
    (hentry : waiting orig i = entry :: waiting orig (i + 1))
    (hinv : OrderInv env orig i pending looks r.st.packages)
    (hcall : CallBelow (ResolvedFor env all) orig.length entry pending p r.queued r.st.packages)
    {l : Look} (hl : l ∈ all) (hst : l.st = r.st) (hp : l.pkgRepod = p)
    {v : Str} (hv : l.target env = some v)
    (hlook : v ∉ waiting (l.st.packages.take orig.length) (i + 1)) :
    v ∉ waiting orig i := by
  have hdep : ResolvedFor env all v p.pkgver := ⟨l, hl, hv, congrArg PkgDict.pkgver hp⟩
  have hsame : waiting orig (i + 1) = waiting (l.st.packages.take orig.length) (i + 1) := by
    refine (pkgvers_of_bare ?_).2
    rw [List.map_drop, List.map_drop, hst, hinv.head]
  rw [hentry, List.mem_cons, not_or, hsame]
  refine ⟨?_, hlook⟩
  rintro rfl
  exact hacyclic _ (TransGen.head' hdep hcall.entry)

/-- The package that a dependency of `p` resolves to is stored, after what has been put below
it. -/
theorem CallBelow.store {pending : Look → Prop} {p : PkgDict} {queued pkgs : List PkgDict}
    {looks : List Look} {l : Look} {st st' : State} {c : StoreCall} {new : List Str}
    (hcall : CallBelow (ResolvedFor env all) orig.length entry pending p queued pkgs)
    (hacyclic : ∀ v, ¬ TransGen (ResolvedFor env all) v v)
    (hnew : placed orig.length st.packages = placed orig.length pkgs ++ new)
    (hbelow : ∀ x ∈ new, TransGen (ResolvedFor env all) x p.pkgver)
    (hinv : OrderInv env orig i (fun l' => pending l' ∨ l' = l) looks st.packages)
    (hs : Stores st c st') (hc : PlainNamed c.pkgrd) (hok : c.Places orig.length)
    (hexamined : c.pkgrd.Installs → ExaminedIn looks c.pkgrd) (hl : l ∈ all) (hp : l.pkgRepod = p) (htarget : l.target env = some c.pkgrd.pkgver)
    (hwaits : c.pkgrd.pkgver ∉ waiting orig i) :
    ∃ new', placed orig.length st'.packages = placed orig.length pkgs ++ new' ∧
      (∀ x ∈ new', TransGen (ResolvedFor env all) x p.pkgver) ∧
      CallBelow (ResolvedFor env all) orig.length entry pending p queued st'.packages ∧
      OrderInv env orig i pending looks st'.packages := by
  have hgrown := hcall.grow hacyclic hnew hbelow
  obtain ⟨last, hlast, heq, hname, hinv'⟩ := hinv.store hs hc hok hexamined fun l' hl' => by
    rcases hl' with hl' | rfl
    · exact (hgrown.pending l' hl').2
    · exact hp ▸ hgrown.free
  have hdep : ResolvedFor env all c.pkgrd.pkgver p.pkgver :=
    ⟨l, hl, htarget, congrArg PkgDict.pkgver hp⟩
  have hbelow' : ∀ x ∈ last, TransGen (ResolvedFor env all) x p.pkgver := by
    intro x hx
    rw [heq x hx]
    exact TransGen.single hdep
  refine ⟨new ++ last, ?_, List.forall_mem_append.mpr ⟨hbelow, hbelow'⟩,
    hgrown.grow hacyclic hlast hbelow', hinv'.settle fun l' hl' v hv => ?_⟩
  · rw [hlast, hnew, List.append_assoc]
  · rcases hl' with hl' | rfl
    · exact Or.inl hl'
    · obtain rfl := Option.some.inj (htarget.symm.trans hv)
      exact Or.inr ⟨hwaits, hname⟩

/-- What a run puts behind the counted entries is below its package, and in order. -/
theorem DepsRun.order {p : PkgDict} {r r' : Resolver} (h : DepsRun env PlainNamed p r r')
    (hacyclic : ∀ v, ¬ TransGen (ResolvedFor env all) v v)
    (hentry : waiting orig i = entry :: waiting orig (i + 1)) :
    ∀ {pending : Look → Prop} {stores : List StoreCall},
      CallBelow (ResolvedFor env all) orig.length entry pending p r.queued r.st.packages →
      (∀ l ∈ r'.looks, l ∈ all ∧ (∀ v ∈ l.target env,
        v ∉ waiting (l.st.packages.take orig.length) (i + 1)) ∧ l.itself env = false) →
      r'.st.stores = r.st.stores ++ stores → (∀ c ∈ stores, c.Places orig.length) →
      OrderInv env orig i pending (prev ++ r.looks) r.st.packages →
      ∃ new, placed orig.length r'.st.packages = placed orig.length r.st.packages ++ new ∧
        (∀ x ∈ new, TransGen (ResolvedFor env all) x p.pkgver) ∧
        OrderInv env orig i pending (prev ++ r'.looks) r'.st.packages := by
  induction h with
  | done =>
    intro pending stores hcall _ _ _ hinv
    exact ⟨[], (List.append_nil _).symm, fun x hx => (by cases hx), hinv⟩
  | @quiet p r r' l st hst hqueued hp hq htarget hrest ih =>
    intro pending stores hcall hlooks hstores hok hinv
    obtain ⟨hl, hlook, -⟩ := hlooks l
      (hrest.looks_subset l (List.mem_append_right _ List.mem_cons_self))
    -- the dependency is answered by an entry, or else there is a cycle
    have hsettled : ∀ v, l.target env = some v → pending l ∨ Settled orig i v r.st.packages := by
      intro v hv
      obtain ⟨d, hd, rfl⟩ := htarget v hv
      rcases Look.mem_of_answer hd with hd | hd
      · have hdep : ResolvedFor env all d.pkgver p.pkgver := ⟨l, hl, hv, congrArg PkgDict.pkgver hp⟩
        exact absurd (TransGen.head' hdep (hcall.queued d (hqueued ▸ hd))) (hacyclic _)
      · exact Or.inr ⟨not_mem_waiting hacyclic hentry hinv hcall hl hst hp hv (hlook _ hv),
          d, hst ▸ hd, rfl⟩
    have hnext := (hinv.look pending (fun _ h => h) (hp ▸ hcall.free) hsettled).quiet hq
    rw [List.append_assoc] at hnext
    have hplaced := hq.placed orig.length
    obtain ⟨new, hnew, hbelow, hend⟩ := ih (hcall.grow hacyclic
      (hplaced.trans (List.append_nil _).symm) fun x hx => by cases hx) hlooks
      (hq.stores ▸ hstores) hok hnext
    exact ⟨new, hplaced ▸ hnew, hbelow, hend⟩
  | @configured p r r' l st st' c hst hqueued hp hq hs hc hconf htarget hrest ih =>
    intro pending stores hcall hlooks hstores hok hinv
    obtain ⟨hl, hlook, -⟩ := hlooks l
      (hrest.looks_subset l (List.mem_append_right _ List.mem_cons_self))
    obtain ⟨more, hmore⟩ := hrest.stores_append
    obtain rfl : stores = c :: more := by
      rw [hstores, hs.2.1, hq.stores, List.append_assoc] at hmore
      exact List.append_cancel_left hmore
    rw [List.forall_mem_cons] at hok
    have hwaits := not_mem_waiting hacyclic hentry hinv hcall hl hst hp htarget (hlook _ htarget)
    have hlooked := hinv.lookPending (hp ▸ hcall.free) hq
    rw [List.append_assoc] at hlooked
    have hnot : ¬ c.pkgrd.Installs := by
      rw [PkgDict.Installs, hconf]
      simp
    obtain ⟨new, hnew, hbelow, hcall', hinv'⟩ := hcall.store hacyclic
      ((hq.placed orig.length).trans (List.append_nil _).symm) (fun x hx => (by cases hx)) hlooked
      hs hc hok.1 (fun hi => absurd hi hnot) hl hp htarget hwaits
    obtain ⟨new', hnew', hbelow', hend⟩ := ih hcall' hlooks hmore hok.2 hinv'
    refine ⟨new ++ new', ?_, List.forall_mem_append.mpr ⟨hbelow, hbelow'⟩, hend⟩
    rw [hnew', hnew, List.append_assoc]
  | @stored p d r r₁ r' l st st' c hst hqueued hp hq hrun hs hc hver htarget _ hexamines hrest
    ihcall ih =>
    intro pending stores hcall hlooks hstores hok hinv
    have hlooks₁ := fun l' hl' => hlooks l' (hrest.looks_subset l' hl')
    obtain ⟨hl, hlook, -⟩ := hlooks₁ l
      (hrun.looks_subset l (List.mem_append_right _ List.mem_cons_self))
    obtain ⟨stores₁, hstores₁⟩ := hrun.stores_append
    obtain ⟨more, hmore⟩ := hrest.stores_append
    obtain rfl : stores = stores₁ ++ c :: more := by
      rw [hstores, hs.2.1, hstores₁, hq.stores, List.append_assoc, List.append_assoc] at hmore
      exact List.append_cancel_left hmore
    rw [List.forall_mem_append, List.forall_mem_cons] at hok
    have hwaits := not_mem_waiting hacyclic hentry hinv hcall hl hst hp htarget (hlook _ htarget)
    have hdep : ResolvedFor env all d.pkgver p.pkgver :=
      ⟨l, hl, htarget, congrArg PkgDict.pkgver hp⟩
    have hplaced := hq.placed orig.length
    have hlooked := hinv.lookPending (hp ▸ hcall.free) hq
    rw [List.append_assoc] at hlooked
    -- it has no place when it is stored, so it had none before
    have hfree : d.pkgver ∉ placed orig.length st.packages := by
      intro hmem
      obtain ⟨_, hnew, hkeeps⟩ := (placed_rule PlainNamed orig.length d.pkgver).keeps hrun
      obtain rfl := List.append_cancel_left (hnew.symm.trans hstores₁)
      have hmem₁ := hkeeps (fun c' hc' => (hok.1 c' hc').1) hmem
      rw [← hver, ← hs.1] at hmem₁
      exact hok.2.1.2 hmem₁
    have hcall₁ := (hcall.grow hacyclic (hplaced.trans (List.append_nil _).symm)
      fun x hx => (by cases hx)).call hp hdep hfree
    obtain ⟨new₁, hnew₁, hbelow₁, hinv₁⟩ := ihcall hcall₁ hlooks₁ hstores₁ hok.1 hlooked
    rw [← hver] at htarget hwaits
    -- the resolver has come along its dependencies
    have hexamined : ExaminedIn (prev ++ r₁.looks) c.pkgrd := by
      intro dep hreq
      obtain ⟨l', hl', hl'ver, hl'req⟩ := hexamines (fun l' hl' => (hlooks₁ l' hl').2.2) dep hreq
      exact ⟨l', List.mem_append_right _ hl', hl'ver.trans hver.symm, hl'req⟩
    obtain ⟨new, hnew, hbelow, hcall', hinv'⟩ := hcall.store hacyclic (hplaced ▸ hnew₁)
      (fun x hx => (hbelow₁ x hx).tail hdep) hinv₁ hs hc hok.2.1 (fun _ => hexamined) hl hp htarget
      hwaits
    obtain ⟨new', hnew', hbelow', hend⟩ := ih hcall' hlooks hmore hok.2.2 hinv'
    refine ⟨new ++ new', ?_, List.forall_mem_append.mpr ⟨hbelow, hbelow'⟩, hend⟩
    rw [hnew', hnew, List.append_assoc]

end Runs

/-! ### The loop -/

/-- What the resolver has looked at is what it looks at in the turns. -/
theorem prepareLoop_looks {env : Env} {st st' : State} {looks : List Look} {edges : List Str}
    (h : prepareLoop env st.packages.length 0 st [] [] = (st', looks, edges, .ok)) :
    looks = (st.turns env).flatMap Turn.looks := by
  refine @prepareLoop_inv env (fun _ => True)
    (fun _ _ looks₁ _ turns => looks₁ = turns.flatMap Turn.looks) (fun _ _ hJ => hJ)
    (fun _ _ _ _ hJ => ?_) _ _ _ _ _ _ _ _ [] rfl (fun _ _ => trivial) h
  rw [hJ, List.flatMap_append, List.flatMap_singleton]

section Loop

variable {env : Env} {xhp : Handle} {orig : List PkgDict} {i : Nat} {looks all : List Look}
  {st st' : State} {pkgd : PkgDict} {more : List Look}

/-- The entry at the position of the loop is the one that was counted. -/
theorem OrderInv.getElem? {pending : Look → Prop}
    (h : OrderInv env orig i pending looks st.packages) (hlt : i < orig.length)
    (hi : st.packages[i]? = some pkgd) :
    ∃ entry, orig[i]? = some entry ∧ entry.bare = pkgd.bare := by
  have hbare := congrArg (fun l => l[i]?) h.head
  simp only [List.getElem?_map, List.getElem?_take_of_lt hlt, hi, Option.map_some] at hbare
  obtain ⟨entry, hentry, heq⟩ := Option.map_eq_some_iff.mp hbare.symm
  exact ⟨entry, hentry, heq⟩

/-- One turn. -/
theorem OrderInv.turn (hin : PlainInput env xhp) (hst : PlainInv xhp st)
    (hi : st.packages[i]? = some pkgd)
    (h : OrderInv env orig i (fun _ => False) looks st.packages)
    (hnodup : (orig.map PkgDict.pkgver).Nodup)
    (hacyclic : ∀ v, ¬ TransGen (ResolvedFor env all) v v) {entry : PkgDict}
    (hentry : orig[i]? = some entry) (hbare : entry.bare = pkgd.bare)
    (hturn : takesTurn entry = true)
    (hrun : transactionPkgDeps env st pkgd = (st', more, .ok)) (hall : ∀ l ∈ more, l ∈ all)
    {edges : List Str} (hok : Turn.KeepsOrder env orig.length
      ⟨i, pkgd, edges, more, st'.stores.drop st.stores.length⟩) :
    OrderInv env orig (i + 1) (fun _ => False) (looks ++ more)
      (st'.packages ++ [st'.refresh st.edits pkgd]) := by
  have hver := (PkgDict.of_bare_eq hbare).1
  have hsplit := waiting_eq_cons hentry hturn
  have hcall : CallBelow (ResolvedFor env all) orig.length entry.pkgver (fun _ => False) pkgd []
      st.packages := by
    refine ⟨fun hmem => ?_, fun a ha => (by cases ha), hver ▸ ReflTransGen.refl,
      fun _ hl => hl.elim⟩
    refine h.fresh _ hmem ?_
    rw [hsplit, hver]
    exact List.mem_cons_self
  obtain ⟨hdeps, hst'⟩ := hin.resolver.transactionPkgDeps hst hrun
  obtain ⟨stores, hstores⟩ : ∃ stores, st'.stores = st.stores ++ stores := hdeps.stores_append
  have hplaces := hok.stores
  simp only [hstores, List.drop_left] at hplaces
  obtain ⟨new, -, -, hinv⟩ := hdeps.order hacyclic hsplit hcall
    (fun l hl => ⟨hall l hl, hok.looks l hl, hok.itself l hl⟩) hstores hplaces
    (by rwa [List.append_nil])
  -- the entry goes to the end, and it has waited until now
  have hbare' := PkgDict.of_bare_eq (st'.bare_refresh st.edits pkgd)
  have hplain : PlainNamed (st'.refresh st.edits pkgd) :=
    (hst.entries pkgd (List.mem_of_getElem? hi)).congr hbare'.1 hbare'.2.1
  obtain ⟨hedits, hexamines⟩ := transactionPkgDeps_examines hrun hok.itself
  refine (hinv.append (Nat.le_succ i) hplain (fun _ => ?_) ?_ ?_).2
  · rw [State.refresh, if_pos (by rw [hedits])]
    intro dep hdep
    obtain ⟨l, hl, rfl, hreq⟩ := hexamines dep hdep
    exact ⟨l, List.mem_append_right _ hl, rfl, hreq⟩
  · rw [hbare'.1, ← hver]
    have hwaits : (waiting orig i).Nodup :=
      ((List.filter_sublist.trans (List.drop_sublist i orig)).map PkgDict.pkgver).nodup hnodup
    rw [hsplit, List.nodup_cons] at hwaits
    exact hwaits.1
  · rintro a ha ⟨l, hl, hv, rfl⟩
    rw [hbare'.1, ← hver] at hv
    rcases hinv.settled l hl _ hv with hp | ⟨hnot, -⟩
    · exact hp
    · rw [hsplit] at hnot
      exact hnot List.mem_cons_self

theorem prepareLoop_order (hin : PlainInput env xhp) (hst : PlainInv xhp st)
    (hnodup : (st.packages.map PkgDict.pkgver).Nodup) {edges : List Str}
    (hacyclic : ∀ v, ¬ TransGen (ResolvedFor env looks) v v)
    (hturns : ∀ t ∈ st.turns env, t.KeepsOrder env st.packages.length)
    (h : prepareLoop env st.packages.length 0 st [] [] = (st', looks, edges, .ok)) :
    PlainInv xhp st' ∧ edges = (st.packages.filter takesTurn).map PkgDict.pkgver ∧
      OrderInv env st.packages st.packages.length (fun _ => False) looks st'.packages := by
  have hlooks := prepareLoop_looks h
  have hstart : OrderInv env st.packages 0 (fun _ => False) [] st.packages := by
    refine ⟨hst.entries, by rw [List.take_length], fun v hv => ?_, ?_, fun l hl => (by cases hl),
      fun e he => ?_⟩
    · rw [placed, List.drop_length] at hv
      cases hv
    · rw [placed, List.drop_length]
      exact List.Pairwise.nil
    · rw [List.drop_length] at he
      cases he
  have hend := @prepareLoop_inv env
    (fun t => (∀ l ∈ t.looks, l ∈ looks) ∧ t.KeepsOrder env st.packages.length)
    (fun i st₁ looks₁ edges₁ _ => i ≤ st.packages.length → PlainInv xhp st₁ ∧
      edges₁ = ((st.packages.take i).filter takesTurn).map PkgDict.pkgver ∧
      OrderInv env st.packages i (fun _ => False) looks₁ st₁.packages)
    (fun {i st₁ looks₁ edges₁ turns₁ pkgd} hi htype hJ hle => ?_)
    (fun {i st₁ looks₁ edges₁ turns₁ pkgd st₂ more} hi htype hrun hok hJ hle => ?_)
    _ _ _ _ _ _ _ _ [] (fun _ => ⟨hst, rfl, hstart⟩) (fun t ht => ⟨fun l hl => ?_, hturns t ht⟩) h
  · have := hend (by omega)
    rwa [Nat.zero_add, List.take_length] at this
  · obtain ⟨hst₁, hedges, hinv⟩ := hJ (by omega)
    obtain ⟨entry, hentry, hbare⟩ := hinv.getElem? (by omega) hi
    refine ⟨hst₁, ?_, hinv.mono (Nat.le_succ i)⟩
    have hpasses : takesTurn entry = false := by
      rw [takesTurn, (PkgDict.of_bare_eq hbare).2.2, decide_eq_true htype]
      rfl
    rw [List.take_add_one, hentry, hedges, List.filter_append, Option.toList_some,
      List.filter_cons_of_neg (by simp [hpasses]), List.filter_nil, List.append_nil]
  · obtain ⟨hst₁, hedges, hinv⟩ := hJ (by omega)
    obtain ⟨entry, hentry, hbare⟩ := hinv.getElem? (by omega) hi
    have htakes : takesTurn entry = true := by
      rw [takesTurn, (PkgDict.of_bare_eq hbare).2.2, decide_eq_false htype]
      rfl
    refine ⟨hin.resolver.append hi hst₁ (hin.resolver.transactionPkgDeps hst₁ hrun).2, ?_,
      hinv.turn hin hst₁ hi hnodup hacyclic hentry hbare htakes hrun hok.1 hok.2⟩
    rw [List.take_add_one, hentry, hedges, List.filter_append, List.map_append, Option.toList_some,
      List.filter_cons_of_pos htakes, List.filter_nil, List.map_singleton,
      (PkgDict.of_bare_eq hbare).1]
  · rw [hlooks]
    exact List.mem_flatMap.mpr ⟨t, ht, hl⟩

end Loop

/-! ### The end of the loop -/

theorem foldl_remove_cons {a : PkgDict} : ∀ {edges : List Str} {pkgs : List PkgDict},
    a.pkgver ∉ edges → edges.foldl removePkgFromArrayByPkgver (a :: pkgs) =
      a :: edges.foldl removePkgFromArrayByPkgver pkgs := by
  intro edges
  induction edges with
  | nil => exact fun _ => rfl
  | cons v edges ih =>
    intro pkgs h
    rw [List.mem_cons, not_or] at h
    have hkeep : removePkgFromArrayByPkgver (a :: pkgs) v =
        a :: removePkgFromArrayByPkgver pkgs v :=
      List.eraseP_cons_of_neg (by simpa using h.1)
    rw [List.foldl_cons, hkeep, ih h.2, List.foldl_cons]

/-- Removing the versions of some of the counted entries leaves the other ones, and what is
behind them. -/
theorem foldl_remove_filter (p : PkgDict → Bool) (rest : List PkgDict) :
    ∀ {pkgs : List PkgDict}, (pkgs.map PkgDict.pkgver).Nodup →
      ((pkgs.filter p).map PkgDict.pkgver).foldl removePkgFromArrayByPkgver (pkgs ++ rest) =
        pkgs.filter (fun d => !p d) ++ rest := by
  intro pkgs
  induction pkgs with
  | nil => exact fun _ => rfl
  | cons a pkgs ih =>
    intro hnodup
    rw [List.map_cons, List.nodup_cons] at hnodup
    cases hp : p a with
    | true =>
      have hfirst : removePkgFromArrayByPkgver (a :: (pkgs ++ rest)) a.pkgver = pkgs ++ rest :=
        List.eraseP_cons_of_pos (decide_eq_true rfl)
      rw [List.filter_cons_of_pos hp, List.filter_cons_of_neg (by simp [hp]), List.map_cons,
        List.foldl_cons, List.cons_append, hfirst, ih hnodup.2]
    | false =>
      rw [List.filter_cons_of_neg (by simp [hp]), List.filter_cons_of_pos (by simp [hp]),
        List.cons_append, foldl_remove_cons, ih hnodup.2, List.cons_append]
      intro hmem
      exact hnodup.1 (((List.filter_sublist).map PkgDict.pkgver).subset hmem)

theorem not_installs_of_takesTurn {d : PkgDict} (h : takesTurn d = false) : ¬ d.Installs := by
  rw [takesTurn, Bool.not_eq_false', decide_eq_true_iff] at h
  rintro (hd | hd)
  · rw [hd] at h
    simp at h
  · rw [hd] at h
    simp at h

/-- When the counted entries are gone, the rest is in order. -/
theorem OrderInv.removed {env : Env} {orig pkgs : List PkgDict} {looks : List Look}
    (h : OrderInv env orig orig.length (fun _ => False) looks pkgs)
    (hnodup : (orig.map PkgDict.pkgver).Nodup) :
    DependencyFirst env looks (((orig.filter takesTurn).map PkgDict.pkgver).foldl
      removePkgFromArrayByPkgver pkgs) := by
  obtain ⟨hall, hturns⟩ := pkgvers_of_bare h.head
  rw [← hturns]
  have hremove := foldl_remove_filter takesTurn (pkgs.drop orig.length) (hall ▸ hnodup)
  rw [List.take_append_drop] at hremove
  rw [hremove]
  -- what the loop has passed over is not installed
  have hskipped : ∀ d ∈ (pkgs.take orig.length).filter (fun d => !takesTurn d), ¬ d.Installs := by
    intro d hd
    have hd' := (List.mem_filter.mp hd).2
    exact not_installs_of_takesTurn (by simpa using hd')
  refine ⟨fun p hp hi => ?_, List.pairwise_append.mpr
    ⟨List.pairwise_of_forall_mem_list fun a ha b _ hi => absurd hi (hskipped a ha), ?_,
      fun a ha b _ hi => absurd hi (hskipped a ha)⟩⟩
  · rcases List.mem_append.mp hp with hp | hp
    · exact absurd hi (hskipped p hp)
    · exact h.examined p hp hi
  · exact (List.pairwise_map.mp h.order).imp fun hnot _ _ => hnot

/-- Decisions of the `replaces` pass keep the order. -/
theorem DependencyFirst.marks {env : Env} {looks : List Look} {pkgs pkgs' : List PkgDict}
    (h : DependencyFirst env looks pkgs) (hmarks : MarksAll pkgs pkgs') :
    DependencyFirst env looks pkgs' := by
  have hinstalls : ∀ {y x : PkgDict}, Marks y x → x.Installs → y.Installs := by
    rintro y x ⟨-, -, ht | ht, -⟩ hx
    · rwa [PkgDict.Installs, ← ht]
    · rw [PkgDict.Installs, ht] at hx
      simp at hx
  obtain ⟨hlen, hget⟩ := List.forall₂_iff_get.mp hmarks
  refine ⟨fun p hp hi => ?_, List.pairwise_iff_getElem.mpr fun i j hi hj hij ha hb => ?_⟩
  · obtain ⟨i, hlt, rfl⟩ := List.mem_iff_getElem.mp hp
    have hlt' : i < pkgs.length := hlen ▸ hlt
    have hm : Marks pkgs[i] pkgs'[i] := hget i hlt' hlt
    exact (h.examined _ (List.getElem_mem hlt') (hinstalls hm hi)).mono (List.Subset.refl _)
      hm.pkgver (by rw [hm.runDepends]; exact List.Subset.refl _)
  have hi' : i < pkgs.length := hlen ▸ hi
  have hj' : j < pkgs.length := hlen ▸ hj
  have hmi : Marks pkgs[i] pkgs'[i] := hget i hi' hi
  have hmj : Marks pkgs[j] pkgs'[j] := hget j hj' hj
  rw [hmi.pkgver, hmj.pkgver]
  exact List.pairwise_iff_getElem.mp h.first i j hi' hj' hij (hinstalls hmi ha) (hinstalls hmj hb)

/-- A decision keeps the order: what it adds is a removal. -/
theorem applyReplace_dependencyFirst {env : Env} {looks : List Look} {xhp : Handle}
    {pkgs : List PkgDict} {pos : Nat} {obj : PkgDict} {pattern : Str}
    (hdb : ∀ p ∈ xhp.pkgdb.values, PlainNamed p)
    (h : (∀ e ∈ pkgs, PlainNamed e) ∧ DependencyFirst env looks pkgs) :
    (∀ e ∈ (applyReplace pkgs pos obj pattern (replaceAction xhp pkgs obj pattern)).1,
        PlainNamed e) ∧
      DependencyFirst env looks
        (applyReplace pkgs pos obj pattern (replaceAction xhp pkgs obj pattern)).1 := by
  obtain ⟨pkgs', hmarks, heq | ⟨x, heq, hx, hplain, -⟩⟩ :=
    @applyReplace_marks xhp pkgs pos obj pattern hdb h.1
  · rw [heq]
    exact ⟨hmarks.plain h.1, h.2.marks hmarks⟩
  · rw [heq]
    have hnot : ¬ x.Installs := by
      rw [PkgDict.Installs, hx]
      simp
    have hmarked := h.2.marks hmarks
    exact ⟨List.forall_mem_cons.mpr ⟨hplain, hmarks.plain h.1⟩,
      List.forall_mem_cons.mpr ⟨fun hi => absurd hi hnot, hmarked.examined⟩,
      List.pairwise_cons.mpr ⟨fun b _ hi => absurd hi hnot, hmarked.first⟩⟩

/-! ### The requests -/

theorem State.store_packages (st : State) (ref : PkgRef) (d : PkgDict) (autoinst : Bool) :
    (st.store ref d autoinst).1.packages = st.packages ∨ ∃ d',
      transactionStore st.packages d autoinst =
        some ((st.store ref d autoinst).1.packages, d') := by
  rw [State.store]
  cases h : transactionStore st.packages d autoinst with
  | none => exact Or.inl rfl
  | some r => exact Or.inr ⟨r.2, rfl⟩

theorem State.storePkgdb_packages (st : State) (pkgd : PkgDict) (ttype : TransType)
    (autoinst : Bool) :
    (st.storePkgdb pkgd ttype autoinst).1.packages = st.packages ∨ ∃ d',
      transactionStore st.packages { pkgd with transaction := ttype } autoinst =
        some ((st.storePkgdb pkgd ttype autoinst).1.packages, d') := by
  rw [State.storePkgdb]
  simp only
  cases h : transactionStore st.packages { pkgd with transaction := ttype } autoinst with
  | none => exact Or.inl rfl
  | some r => exact Or.inr ⟨r.2, rfl⟩

theorem transQueue_packages (st : State) (found : Found) (d : PkgDict) (force : Bool) :
    (transQueue st found d force).1.packages = st.packages ∨ ∃ d' autoinst copy,
      d'.pkgver = d.pkgver ∧ d'.pkgname = d.pkgname ∧ transactionStore st.packages d' autoinst =
        some ((transQueue st found d force).1.packages, copy) := by
  rw [transQueue]
  cases transCompare found d with
  | none => exact Or.inl rfl
  | some ttype =>
    simp only
    generalize hq : (if ttype = .update then
        (st.setRepod found.pkgRepod (respect found.pkgPkgdb d)).findPkg
          (respect found.pkgPkgdb d).pkgver .unknown
      else (st.setRepod found.pkgRepod (respect found.pkgPkgdb d), none)) = r
    obtain ⟨st₁, queued⟩ := r
    have hpkgs : st₁.packages = st.packages := by
      split at hq
      · obtain rfl : _ = st₁ := congrArg Prod.fst hq
        exact (State.findPkg_looked { repoOpen := fun _ => none } _ _ _).packages
      · obtain rfl : _ = st₁ := congrArg Prod.fst hq
        rfl
    simp only
    split
    · exact Or.inl hpkgs
    · split
      · exact Or.inl hpkgs
      · next pkgname _ =>
        split
        · exact Or.inl hpkgs
        · next state _ =>
          have hpkgs₂ : (st₁.pkgdbGetPkg pkgname).1.packages = st.packages :=
            (st₁.pkgdbGetPkg_looked { repoOpen := fun _ => none } pkgname).packages.trans hpkgs
          rcases (st₁.pkgdbGetPkg pkgname).1.store_packages found.pkgRepod
            (queuedDict (respect found.pkgPkgdb d) ttype state force)
            (queuedAuto (st₁.pkgdbGetPkg pkgname).1.xhp
              (queuedDict (respect found.pkgPkgdb d) ttype state force)) with hs | ⟨copy, hs⟩
          · exact Or.inl (hs.trans hpkgs₂)
          · rw [hpkgs₂] at hs
            exact Or.inr ⟨queuedDict (respect found.pkgPkgdb d) ttype state force, _, copy,
              respect_pkgver found.pkgPkgdb d, respect_pkgname found.pkgPkgdb d, hs⟩

/-- A request leaves the array alone, or stores the package that it has found. -/
theorem transFindPkg_packages (env : Env) (st : State) (pkg : Str) (force : Bool) :
    (transFindPkg env st pkg force).1.packages = st.packages ∨
      ∃ st₁ found d d' autoinst copy, transLookup env st pkg force = (st₁, .ok found) ∧
        st₁.pool.get found.pkgRepod = some d ∧ d'.pkgver = d.pkgver ∧ d'.pkgname = d.pkgname ∧
        transactionStore st.packages d' autoinst =
          some ((transFindPkg env st pkg force).1.packages, copy) := by
  have hl := transLookup_spec env st pkg force
  rw [transFindPkg]
  cases h : transLookup env st pkg force with
  | mk st₁ r =>
    rw [h] at hl
    have hpkgs : st₁.packages = st.packages := hl.looked.packages
    cases r with
    | error rv => exact Or.inl hpkgs
    | ok found =>
      simp only
      cases hd : st₁.pool.get found.pkgRepod with
      | none => exact Or.inl hpkgs
      | some d =>
        simp only
        rcases transQueue_packages st₁ found d force with hq | ⟨d', autoinst, copy, hv, hn, hs⟩
        · exact Or.inl (hq.trans hpkgs)
        · rw [hpkgs] at hs
          exact Or.inr ⟨st₁, found, d, d', autoinst, copy, rfl, hd, hv, hn, hs⟩

/-- Requests build an array with distinct names. -/
theorem PlainInput.sessionRule {env : Env} {xhp : Handle} (hin : PlainInput env xhp) :
    SessionRule env true (fun _ => True)
      (fun st => PlainInv xhp st ∧
        ∃ offers, StoresBest (fun _ _ => True) offers st.packages) where
  looked hl h := ⟨hin.rule.looked hl h.1, hl.packages.symm ▸ h.2⟩
  flags h := ⟨hin.rule.sessionRule.flags h.1, h.2⟩
  removal {st pkgd} hp h := by
    refine ⟨hin.rule.sessionRule.removal hp h.1, ?_⟩
    obtain ⟨offers, hbest⟩ := h.2
    rcases st.storePkgdb_packages pkgd .remove false with hs | ⟨d', hs⟩
    · exact ⟨offers, hs ▸ hbest⟩
    · have hplain : PlainNamed { pkgd with transaction := .remove } :=
        (hin.installed h.1.db hp).congr rfl rfl
      obtain ⟨pkgs', d'', hs', hbest'⟩ := hbest.store hplain (.trivial _) false
      obtain ⟨rfl, -⟩ := Prod.mk.inj (Option.some.inj (hs'.symm.trans hs))
      exact ⟨_, hbest'⟩
  find {st pkg force} hf hok h := by
    refine ⟨hin.rule.find hf hok h.1, ?_⟩
    obtain ⟨offers, hbest⟩ := h.2
    rcases transFindPkg_packages env st pkg force with
      hs | ⟨st₁, found, d, d', autoinst, copy, hfound, hd, hv, hn, hs⟩
    · exact ⟨offers, hs ▸ hbest⟩
    · have hl := transLookup_spec env st pkg force
      rw [hfound] at hl
      have hpool := (hin.rule.looked hl.looked h.1).pool _ _ hd
      have hplain : PlainNamed d' := by
        obtain ⟨n, hn', -⟩ := transactionStore_call hs
        exact (hpool.plainNamed (hn.symm.trans hn')).congr hv hn
      obtain ⟨pkgs', d'', hs', hbest'⟩ := hbest.store hplain (.trivial _) autoinst
      obtain ⟨rfl, -⟩ := Prod.mk.inj (Option.some.inj (hs'.symm.trans hs))
      exact ⟨_, hbest'⟩

theorem PlainInput.session_distinct {env : Env} {xhp : Handle} (hin : PlainInput env xhp)
    (orphansOf : Handle → Str → Option (List Str)) (repositories : List Str) {reqs : List Req}
    {s : Session} (hs : s = (Session.start xhp repositories).requests env orphansOf reqs) :
    (s.st.packages.map PkgDict.pkgver).Nodup := by
  have hreq := hin.sessionRule.requestsLeads orphansOf reqs (Session.start xhp repositories)
    fun _ _ _ => rfl
  rw [← hs] at hreq
  obtain ⟨hst, offers, hbest⟩ := hreq.inv (fun _ _ => trivial)
    ⟨DictInv.start xhp repositories _ _, [], fun e he => (by cases he), Best.nil⟩
  have hnames := hbest.best.distinct
  rw [List.pairwise_map] at hnames
  refine List.pairwise_map.mpr (hnames.imp_of_mem fun {a b} ha hb hne hver => hne ?_)
  show a.pkgname = b.pkgname
  rw [← (hst.entries _ ha).name_eq, ← (hst.entries _ hb).name_eq, hver]

/-! ### Every run -/

/-- **Dependencies come first.**  Take any requests whose packages have no cyclic dependencies.
If in every turn the resolver stores packages that have no place yet, replaces no entry,
resolves no dependency to an entry that still waits for its turn, and finds no package that
depends on itself, then it has come along every dependency of the packages to be installed or
updated, and in the prepared transaction none of them comes before another one that one of its
dependencies resolves to. -/
theorem transactionPrepare_dependencyFirst (env : Env)
    (orphansOf : Handle → Str → Option (List Str)) (xhp : Handle) (repositories : List Str)
    (reqs : List Req) (s : Session)
    (hs : s = (Session.start xhp repositories).requests env orphansOf reqs)
    (hin : PlainInput env xhp)
    (hacyclic : ∀ v, ¬ TransGen (ResolvedFor env (prepareDeps env s.st).2.1) v v)
    (hturns : ∀ t ∈ s.st.turns env, t.KeepsOrder env s.st.packages.length) (stats : State → Rv)
    (fuel : Nat) (st' : State) (h : transactionPrepare env stats fuel s.st = some (st', .ok)) :
    DependencyFirst env (prepareDeps env s.st).2.1 st'.packages := by
  have hst := hin.resolver.session orphansOf repositories hs
  have hnodup := hin.session_distinct orphansOf repositories hs
  obtain ⟨st₁, looks, edges, hloop, hpkgs⟩ := transactionPrepare_ok h
  have hlooks : (prepareDeps env s.st).2.1 = looks := by rw [prepareDeps, hloop]
  rw [hlooks] at hacyclic ⊢
  obtain ⟨hst₁, rfl, hinv⟩ := prepareLoop_order hin hst hnodup hacyclic hturns hloop
  have hremoved := hinv.removed hnodup
  rcases hpkgs with hpkgs | hpkgs
  · rw [hpkgs]
    exact hremoved
  · rw [hpkgs]
    have hplain : ∀ e ∈ ((s.st.packages.filter takesTurn).map PkgDict.pkgver).foldl
        removePkgFromArrayByPkgver st₁.packages, PlainNamed e :=
      fun e he => hst₁.entries e (PrepareRule.mem_of_mem_foldl_remove he)
    exact (@Walk.run_inv _ (fun pkgs => (∀ e ∈ pkgs, PlainNamed e) ∧
      DependencyFirst env looks pkgs) (fun _ _ _ _ hQ _ => applyReplace_dependencyFirst
        (fun p hp => hin.installed hst₁.db hp) hQ) fuel _ ⟨hplain, hremoved⟩).2

/-- Ranks that grow along the dependencies leave no room for a cycle. -/
theorem ResolvedFor.acyclic {env : Env} {looks : List Look} (rank : Str → Nat)
    (h : ∀ l ∈ looks, ∀ v ∈ l.target env, rank v < rank l.pkgRepod.pkgver) :
    ∀ v, ¬ TransGen (ResolvedFor env looks) v v := by
  have hlt : ∀ {v w}, TransGen (ResolvedFor env looks) v w → rank v < rank w := by
    intro v w hvw
    induction hvw with
    | single hdep =>
      obtain ⟨l, hl, hv, rfl⟩ := hdep
      exact h l hl _ hv
    | tail _ hdep ih =>
      obtain ⟨l, hl, hv, rfl⟩ := hdep
      exact ih.trans (h l hl _ hv)
  exact fun v hv => Nat.lt_irrefl _ (hlt hv)

instance (env : Env) (looks : List Look) (v q : Str) : Decidable (ResolvedFor env looks v q) :=
  inferInstanceAs (Decidable (∃ l ∈ looks, l.target env = some v ∧ l.pkgRepod.pkgver = q))

instance (d : PkgDict) : Decidable d.Installs :=
  inferInstanceAs (Decidable (d.transaction = .install ∨ d.transaction = .update))

instance (looks : List Look) (p : PkgDict) : Decidable (ExaminedIn looks p) :=
  inferInstanceAs (Decidable (∀ dep ∈ p.runDepends.getD [],
    ∃ l ∈ looks, l.pkgRepod.pkgver = p.pkgver ∧ l.reqpkg = dep))

instance (env : Env) (looks : List Look) (pkgs : List PkgDict) :
    Decidable (DependencyFirst env looks pkgs) :=
  decidable_of_iff ((∀ p ∈ pkgs, p.Installs → ExaminedIn looks p) ∧ pkgs.Pairwise fun a b =>
      a.Installs → b.Installs → ¬ ResolvedFor env looks b.pkgver a.pkgver)
    ⟨fun h => ⟨h.1, h.2⟩, fun h => ⟨h.examined, h.first⟩⟩

instance (cnt : Nat) (c : StoreCall) : Decidable (c.Places cnt) :=
  inferInstanceAs (Decidable (_ ∧ _))

instance (env : Env) (cnt : Nat) (t : Turn) : Decidable (t.KeepsOrder env cnt) :=
  decidable_of_iff ((∀ c ∈ t.stores, c.Places cnt) ∧ (∀ l ∈ t.looks, ∀ v ∈ l.target env,
      v ∉ waiting (l.st.packages.take cnt) (t.i + 1)) ∧ ∀ l ∈ t.looks, l.itself env = false)
    ⟨fun h => ⟨h.1, h.2.1, h.2.2⟩, fun h => ⟨h.stores, h.looks, h.itself⟩⟩

/-- Where a version stands in this list. -/
def turnsRank (pkgvers : List String) (v : Str) : Nat := (pkgvers.map String.toList).idxOf v

/-- `f` is requested before `e`, which needs it, and `c` brings `a` along. -/
theorem transactionPrepare_dependencyFirst_turnsEnv :
    ∃ st', transactionPrepare turnsEnv (fun _ => .ok) 100 (turnsSession ["f", "e", "c"]).st =
        some (st', .ok) ∧
      st'.packages.map PkgDict.pkgver = ["f-1_1", "e-1_1", "a-1_1", "c-1_1"].map String.toList ∧
      ResolvedFor turnsEnv (prepareDeps turnsEnv (turnsSession ["f", "e", "c"]).st).2.1
        "f-1_1".toList "e-1_1".toList ∧
      DependencyFirst turnsEnv (prepareDeps turnsEnv (turnsSession ["f", "e", "c"]).st).2.1
        st'.packages := by
  have hrun : (transactionPrepare turnsEnv (fun _ => .ok) 100
      (turnsSession ["f", "e", "c"]).st).map (fun r => (r.1.packages.map PkgDict.pkgver, r.2)) =
      some (["f-1_1", "e-1_1", "a-1_1", "c-1_1"].map String.toList, .ok) := by decide +kernel
  obtain ⟨⟨st', rv⟩, hprep, heq⟩ := Option.map_eq_some_iff.mp hrun
  rw [Prod.mk.injEq] at heq
  obtain ⟨hpkgs, rfl⟩ := heq
  have hacyclic := @ResolvedFor.acyclic turnsEnv
    (prepareDeps turnsEnv (turnsSession ["f", "e", "c"]).st).2.1
    (turnsRank ["f-1_1", "e-1_1", "a-1_1", "c-1_1"]) (by decide +kernel)
  exact ⟨st', hprep, hpkgs, by decide +kernel, transactionPrepare_dependencyFirst turnsEnv
    (fun _ _ => none) {} _ _ _ rfl plainInput_turnsEnv hacyclic (by decide +kernel) _ _ _ hprep⟩

/-- `a` needs a newer version of itself, and `d`. -/
def selfRepos : List (Str × Dict Str PkgDict) :=
  [("r".toList, ⟨[turnsPkg "a" "a-1_1" ["a>=2", "d>=0"] 1, turnsPkg "d" "d-1_1" [] 2], by decide⟩),
    ("s".toList, ⟨[turnsPkg "a" "a-2_1" [] 3], List.nodup_singleton _⟩)]

def selfEnv : Env := { repoOpen := fun uri => selfRepos.lookup uri }

/-- Requests to install `a` and `d`, when nothing is installed. -/
def selfSession : Session :=
  (Session.start {} (selfRepos.map Prod.fst)).requests selfEnv (fun _ _ => none)
    [.install "a".toList false, .install "d".toList false]

/-- In the other order `f` still waits when `e` is dealt with, so that nothing is stored for it,
and it comes last.  `d` comes behind `a` because the resolver never looks at that dependency. -/
theorem transactionPrepare_dependencyLast :
    ((∀ v, ¬ TransGen
        (ResolvedFor turnsEnv (prepareDeps turnsEnv (turnsSession ["e", "f"]).st).2.1) v v) ∧
      ∃ st', transactionPrepare turnsEnv (fun _ => .ok) 100 (turnsSession ["e", "f"]).st =
          some (st', .ok) ∧
        st'.packages.map (fun d => (d.pkgver, d.transaction)) =
          [("e-1_1".toList, .install), ("f-1_1".toList, .install)] ∧
        ResolvedFor turnsEnv (prepareDeps turnsEnv (turnsSession ["e", "f"]).st).2.1
          "f-1_1".toList "e-1_1".toList ∧
        ¬ DependencyFirst turnsEnv (prepareDeps turnsEnv (turnsSession ["e", "f"]).st).2.1
          st'.packages) ∧
      ((transactionPrepare selfEnv (fun _ => .ok) 100 selfSession.st).map fun r =>
        (r.1.packages.map fun d => (d.pkgver, d.runDepends.getD []), r.2,
          decide (DependencyFirst selfEnv (prepareDeps selfEnv selfSession.st).2.1
            r.1.packages))) =
        some ([("a-1_1".toList, ["d>=0".toList]), ("d-1_1".toList, [])], .ok, false) := by
  refine ⟨⟨ResolvedFor.acyclic (turnsRank ["f-1_1", "e-1_1"]) (by decide +kernel), ?_⟩,
    by decide +kernel⟩
  have hrun : (transactionPrepare turnsEnv (fun _ => .ok) 100
      (turnsSession ["e", "f"]).st).map (fun r => (r.1.packages.map
        (fun d => (d.pkgver, d.transaction)), r.2,
        decide (DependencyFirst turnsEnv (prepareDeps turnsEnv (turnsSession ["e", "f"]).st).2.1
          r.1.packages))) =
      some ([("e-1_1".toList, .install), ("f-1_1".toList, .install)], .ok, false) := by
    decide +kernel
  obtain ⟨⟨st', rv⟩, hprep, heq⟩ := Option.map_eq_some_iff.mp hrun
  simp only [Prod.mk.injEq] at heq
  obtain ⟨hpkgs, rfl, hlast⟩ := heq
  exact ⟨st', hprep, hpkgs, by decide +kernel, of_decide_eq_false hlast⟩

end Flappy
