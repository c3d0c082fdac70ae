/-
The transaction array (`lib/transaction_store.c`).

The array holds copies of package dictionaries.  A copy shares its arrays with
the original; the store puts a `replaces` of the package by itself into one of
them, so that the original changes as well.

* `mem_transactionStore` — what is in the array after a store was in it before
  or is the copy;
* `storeAll_best` — after any stores of versions on which `flappy_cmpver` is a
  preorder, the array holds one best version of every package that was stored.
-/
import Flappy.Plist
import Flappy.Lib.Best

open CStr

namespace Flappy

/-- The pattern with which every stored package replaces itself. -/
def selfReplaced (pkgname : Str) : Str := pkgname ++ ">=0".toList

/-- The copy of a package dictionary that is added to the array. -/
def storedCopy (pkgrd : PkgDict) (pkgname : Str) (autoinst : Bool) : PkgDict :=
  { pkgrd with
    automaticInstall := if autoinst then some true else pkgrd.automaticInstall
    replaces := some (pkgrd.replaces.getD [] ++ [selfReplaced pkgname]) }

/-- The original, whose `replaces` array is that of the copy if it had one. -/
def sharedOriginal (pkgrd : PkgDict) (pkgname : Str) : PkgDict :=
  { pkgrd with replaces := pkgrd.replaces.map (· ++ [selfReplaced pkgname]) }

/-- `flappy_transaction_store`: the array and the original afterwards, `none` if it
fails. -/
def transactionStore (pkgs : List PkgDict) (pkgrd : PkgDict) (autoinst : Bool) :
    Option (List PkgDict × PkgDict) :=
  match pkgrd.pkgname with
  | none => none
  | some pkgname =>
    match findPkgInArray pkgs pkgname .unknown with
    | none =>
      some (pkgs ++ [storedCopy pkgrd pkgname autoinst], sharedOriginal pkgrd pkgname)
    | some d =>
      let rv := cmpver pkgrd.pkgver d.pkgver
      -- same version or stored version greater than current
      if rv = 0 ∨ rv = -1 then some (pkgs, pkgrd)
      else
        some (removePkgFromArrayByPkgver pkgs d.pkgver ++ [storedCopy pkgrd pkgname autoinst],
          sharedOriginal pkgrd pkgname)

/-- A call of `flappy_transaction_store` that succeeds: the array before it, and the package. -/
structure StoreCall where
  pkgs : List PkgDict
  pkgrd : PkgDict
deriving DecidableEq, Repr

/-- The entry that the store finds under the name of the package. -/
def StoreCall.found (c : StoreCall) : Option PkgDict :=
  c.pkgrd.pkgname.bind fun pkgname => findPkgInArray c.pkgs pkgname .unknown

/-- The entry whose version the package replaces. -/
def StoreCall.replaced (c : StoreCall) : Option PkgDict :=
  c.found.filter fun d =>
    ¬(cmpver c.pkgrd.pkgver d.pkgver = 0 ∨ cmpver c.pkgrd.pkgver d.pkgver = -1)

/-- What a store does: it appends the copy, keeps the array, or replaces an entry. -/
theorem transactionStore_call {pkgs pkgs' : List PkgDict} {pkgrd pkgrd' : PkgDict}
    {autoinst : Bool} (h : transactionStore pkgs pkgrd autoinst = some (pkgs', pkgrd')) :
    ∃ pkgname, pkgrd.pkgname = some pkgname ∧
      (((⟨pkgs, pkgrd⟩ : StoreCall).found = none ∧
          pkgs' = pkgs ++ [storedCopy pkgrd pkgname autoinst]) ∨
        (∃ d, (⟨pkgs, pkgrd⟩ : StoreCall).found = some d ∧
          (⟨pkgs, pkgrd⟩ : StoreCall).replaced = none ∧ pkgs' = pkgs) ∨
        ∃ d, (⟨pkgs, pkgrd⟩ : StoreCall).found = some d ∧
          (⟨pkgs, pkgrd⟩ : StoreCall).replaced = some d ∧
          pkgs' = removePkgFromArrayByPkgver pkgs d.pkgver ++
            [storedCopy pkgrd pkgname autoinst]) := by
  rw [transactionStore] at h
  cases hn : pkgrd.pkgname with
  | none => simp [hn] at h
  | some pkgname =>
    refine ⟨pkgname, rfl, ?_⟩
    simp only [StoreCall.replaced, StoreCall.found, hn, Option.bind_some]
    simp only [hn] at h
    cases hf : findPkgInArray pkgs pkgname .unknown with
    | none =>
      simp only [hf, Option.some.injEq, Prod.mk.injEq] at h
      exact Or.inl ⟨rfl, h.1.symm⟩
    | some d =>
      simp only [hf] at h
      right
      by_cases hc : cmpver pkgrd.pkgver d.pkgver = 0 ∨ cmpver pkgrd.pkgver d.pkgver = -1
      · rw [if_pos hc, Option.some.injEq, Prod.mk.injEq] at h
        exact Or.inl ⟨d, rfl, Option.filter_some_neg (decide_eq_false (not_not_intro hc)), h.1.symm⟩
      · rw [if_neg hc, Option.some.injEq, Prod.mk.injEq] at h
        exact Or.inr ⟨d, rfl, Option.filter_some_pos (decide_eq_true hc), h.1.symm⟩

/-- What a store does: nothing, or the copy goes to the end of the array, and at
most one entry leaves it. -/
theorem transactionStore_cases {pkgs pkgs' : List PkgDict} {pkgrd pkgrd' : PkgDict}
    {autoinst : Bool} (h : transactionStore pkgs pkgrd autoinst = some (pkgs', pkgrd')) :
    (pkgs' = pkgs ∧ pkgrd' = pkgrd) ∨
      ∃ pkgname rest, pkgrd.pkgname = some pkgname ∧ rest.Sublist pkgs ∧
        pkgs' = rest ++ [storedCopy pkgrd pkgname autoinst] ∧
        pkgrd' = sharedOriginal pkgrd pkgname := by
  rw [transactionStore] at h
  cases hn : pkgrd.pkgname with
  | none => simp [hn] at h
  | some pkgname =>
    simp only [hn] at h
    cases hf : findPkgInArray pkgs pkgname .unknown with
    | none =>
      simp only [hf, Option.some.injEq, Prod.mk.injEq] at h
      exact Or.inr ⟨pkgname, pkgs, rfl, List.Sublist.refl pkgs, h.1.symm, h.2.symm⟩
    | some d =>
      simp only [hf] at h
      split at h
      · simp only [Option.some.injEq, Prod.mk.injEq] at h
        exact Or.inl ⟨h.1.symm, h.2.symm⟩
      · simp only [Option.some.injEq, Prod.mk.injEq] at h
        exact Or.inr ⟨pkgname, _, rfl, List.eraseP_sublist, h.1.symm, h.2.symm⟩

/-- Everything in the array after a store was there before, or is the copy. -/
theorem mem_transactionStore {pkgs pkgs' : List PkgDict} {pkgrd pkgrd' : PkgDict}
    {autoinst : Bool} (h : transactionStore pkgs pkgrd autoinst = some (pkgs', pkgrd'))
    {e : PkgDict} (he : e ∈ pkgs') :
    e ∈ pkgs ∨ ∃ pkgname, pkgrd.pkgname = some pkgname ∧ e = storedCopy pkgrd pkgname autoinst := by
  obtain ⟨rfl, -⟩ | ⟨pkgname, rest, hn, hsub, rfl, -⟩ := transactionStore_cases h
  · exact Or.inl he
  · rcases List.mem_append.mp he with he | he
    · exact Or.inl (hsub.subset he)
    · exact Or.inr ⟨pkgname, hn, List.mem_singleton.mp he⟩

/-- The original changes in its `replaces` at most. -/
theorem transactionStore_original {pkgs pkgs' : List PkgDict} {pkgrd pkgrd' : PkgDict}
    {autoinst : Bool} (h : transactionStore pkgs pkgrd autoinst = some (pkgs', pkgrd')) :
    pkgrd' = { pkgrd with replaces := pkgrd'.replaces } := by
  obtain ⟨-, rfl⟩ | ⟨pkgname, rest, -, -, -, rfl⟩ := transactionStore_cases h
  · rfl
  · rfl

/-! ### One best version for each package -/

/-- The dictionary carries the name of its package, and a lookup by this name is one for a
name. -/
def PlainNamed (d : PkgDict) : Prop :=
  ∃ n, d.pkgname = some n ∧ pkgName d.pkgver = some n ∧ request n = .pkgname

/-- Store packages one after the other. -/
def storeAll : List (PkgDict × Bool) → List PkgDict → Option (List PkgDict)
  | [], pkgs => some pkgs
  | (pkgrd, autoinst) :: offers, pkgs =>
    (transactionStore pkgs pkgrd autoinst).bind fun r => storeAll offers r.1

/-- What a store goes by: the name and the version. -/
def PkgDict.offer (d : PkgDict) : Option Str × Str := (d.pkgname, d.pkgver)

/-- The version is not better than the other one. -/
def NotBetter (a b : Option Str × Str) : Prop := cmpver a.2 b.2 ≤ 0

theorem NotBetter.refl (a : Option Str × Str) : NotBetter a a := Int.le_of_eq (cmpver_self a.2)

/-- The array holds the best of the offers so far. -/
structure StoresBest (le : Option Str × Str → Option Str × Str → Prop)
    (offers : List (Option Str × Str)) (pkgs : List PkgDict) : Prop where
  named : ∀ e ∈ pkgs, PlainNamed e
  best : Best Prod.fst le offers (pkgs.map PkgDict.offer)

/-- A store goes by this relation on the offers for one name. -/
structure StoreOrder (le : Option Str × Str → Option Str × Str → Prop)
    (offers : List (Option Str × Str)) : Prop where
  refl : ∀ a, le a a
  kept : ∀ {n v w}, (n, v) ∈ offers → (n, w) ∈ offers → cmpver v w ≤ 0 → le (n, v) (n, w)
  replaced : ∀ {n v w}, (n, v) ∈ offers → (n, w) ∈ offers → ¬ cmpver v w ≤ 0 → le (n, w) (n, v)
  trans : ∀ {n u v w}, (n, u) ∈ offers → (n, v) ∈ offers → (n, w) ∈ offers →
    le (n, u) (n, v) → le (n, v) (n, w) → le (n, u) (n, w)

theorem StoreOrder.mono {le : Option Str × Str → Option Str × Str → Prop}
    {offers offers' : List (Option Str × Str)} (h : StoreOrder le offers') (hsub : offers ⊆ offers') :
    StoreOrder le offers :=
  ⟨h.refl, fun hv hw => h.kept (hsub hv) (hsub hw), fun hv hw => h.replaced (hsub hv) (hsub hw),
    fun hu hv hw => h.trans (hsub hu) (hsub hv) (hsub hw)⟩

/-- One that makes no difference between offers. -/
theorem StoreOrder.trivial (offers : List (Option Str × Str)) :
    StoreOrder (fun _ _ => True) offers :=
  ⟨fun _ => True.intro, fun _ _ _ => True.intro, fun _ _ _ => True.intro,
    fun _ _ _ _ _ => True.intro⟩

theorem StoreOrder.notBetter {offers : List (Option Str × Str)}
    (hcmp : ∀ n, CmpverPreorder fun v => (n, v) ∈ offers) : StoreOrder NotBetter offers := by
  refine ⟨NotBetter.refl, fun _ _ h => h, fun {n v w} hv hw h => ?_, fun hu hv hw =>
    (hcmp _).trans hu hv hw⟩
  show cmpver w v ≤ 0
  rw [(hcmp n).swap hv hw]
  omega

/-- Looking for the name of a package finds an entry with this name. -/
theorem findPkgInArray_name {pkgs : List PkgDict} (h : ∀ e ∈ pkgs, PlainNamed e) {n : Str}
    (hn : request n = .pkgname) :
    (findPkgInArray pkgs n .unknown = none → ∀ e ∈ pkgs, e.pkgname ≠ some n) ∧
      ∀ d, findPkgInArray pkgs n .unknown = some d → d ∈ pkgs ∧ d.pkgname = some n := by
  have hmatch : ∀ e ∈ pkgs, matchesRequest n false e = true ↔ e.pkgname = some n := by
    intro e he
    obtain ⟨m, hm, hm', -⟩ := h e he
    rw [matchesRequest, if_neg (by simp), hn, hm, hm']
    simp
  rw [findPkgInArray_unknown]
  refine ⟨fun hnone e he heq => ?_, fun d hd => ?_⟩
  · exact List.find?_eq_none.mp hnone e he ((hmatch e he).mpr heq)
  · have hmem := List.mem_of_find?_eq_some hd
    exact ⟨hmem, (hmatch d hmem).mp (List.find?_some hd)⟩

section

variable {le : Option Str × Str → Option Str × Str → Prop}

/-- One store. -/
theorem StoresBest.store {offers : List (Option Str × Str)} {pkgs : List PkgDict}
    (h : StoresBest le offers pkgs) {pkgrd : PkgDict} (hwf : PlainNamed pkgrd)
    (hle : StoreOrder le (offers ++ [pkgrd.offer])) (autoinst : Bool) :
    ∃ pkgs' pkgrd', transactionStore pkgs pkgrd autoinst = some (pkgs', pkgrd') ∧
      StoresBest le (offers ++ [pkgrd.offer]) pkgs' := by
  obtain ⟨n, hn, hver, hreq⟩ := hwf
  obtain ⟨hnone, hsome⟩ := findPkgInArray_name h.named hreq
  have hcopy : PlainNamed (storedCopy pkgrd n autoinst) := ⟨n, hn, hver, hreq⟩
  have happend : ∀ {l : List PkgDict}, (∀ e ∈ l, PlainNamed e) →
      ∀ e ∈ l ++ [storedCopy pkgrd n autoinst], PlainNamed e := by
    intro l hl e he
    rcases List.mem_append.mp he with he | he
    · exact hl e he
    · rw [List.mem_singleton.mp he]
      exact hcopy
  have hnew : (pkgrd.pkgname, pkgrd.pkgver) ∈ offers ++ [pkgrd.offer] :=
    List.mem_append_right _ List.mem_cons_self
  have hheld : ∀ e ∈ pkgs, e.pkgname = pkgrd.pkgname →
      (pkgrd.pkgname, e.pkgver) ∈ offers ++ [pkgrd.offer] := fun e he heq =>
    heq ▸ List.mem_append_left _ (h.best.offered (List.mem_map_of_mem he))
  rw [transactionStore, hn]
  simp only
  cases hf : findPkgInArray pkgs n .unknown with
  | none =>
    refine ⟨_, _, rfl, happend h.named, ?_⟩
    rw [List.map_append]
    refine h.best.add (fun a ha => ?_) (hle.refl _)
    obtain ⟨e, he, rfl⟩ := List.mem_map.mp ha
    exact fun heq => hnone hf e he (heq.trans hn)
  | some d =>
    obtain ⟨hd, hdn⟩ := hsome d hf
    simp only
    by_cases hc : cmpver pkgrd.pkgver d.pkgver = 0 ∨ cmpver pkgrd.pkgver d.pkgver = -1
    · rw [if_pos hc]
      have hname : d.pkgname = pkgrd.pkgname := hdn.trans hn.symm
      have hkept : le pkgrd.offer d.offer := by
        rw [PkgDict.offer, PkgDict.offer, hname]
        exact hle.kept hnew (hheld d hd hname) (cmpver_kept_iff.mp hc)
      exact ⟨_, _, rfl, h.named, h.best.keep (List.mem_map_of_mem hd) hname hkept⟩
    · rw [if_neg hc]
      refine ⟨_, _, rfl, happend fun e he => h.named e (List.mem_of_mem_eraseP he), ?_⟩
      -- the entry that goes has the version that was found
      obtain ⟨a, l₁, l₂, -, ha, hsplit, herase⟩ :=
        @List.exists_of_eraseP _ (fun e : PkgDict => decide (e.pkgver = d.pkgver)) pkgs d hd
          (decide_eq_true rfl)
      have hav : a.pkgver = d.pkgver := of_decide_eq_true ha
      have han : a.pkgname = some n := by
        obtain ⟨m, hm, hm', -⟩ := h.named a (hsplit ▸ List.mem_append_right _ List.mem_cons_self)
        obtain ⟨k, hk, hk', -⟩ := h.named d hd
        rw [hav, hk'] at hm'
        rw [hm, ← hm', ← hk, hdn]
      rw [removePkgFromArrayByPkgver, herase, List.map_append, List.map_append]
      have hbest := h.best
      rw [hsplit, List.map_append, List.map_cons] at hbest
      have hname : a.pkgname = pkgrd.pkgname := han.trans hn.symm
      have ha' := hheld a (hsplit ▸ List.mem_append_right _ List.mem_cons_self) hname
      refine hbest.replace hname ?_ (hle.refl _) ?_
      · -- the version found is not better than the one stored
        rw [cmpver_kept_iff, ← hav] at hc
        rw [PkgDict.offer, PkgDict.offer, hname]
        exact hle.replaced hnew ha' hc
      · rintro ⟨m, v⟩ hv rfl hva hao
        have hoffer : a.offer = (pkgrd.pkgname, a.pkgver) := congrArg (·, a.pkgver) hname
        rw [hoffer] at hva hao
        exact hle.trans (List.mem_append_left _ hv) ha' hnew hva hao

/-- All stores succeed. -/
theorem StoresBest.storeAll :
    ∀ {todo : List (PkgDict × Bool)} {offers : List (Option Str × Str)} {pkgs : List PkgDict},
      StoresBest le offers pkgs → (∀ o ∈ todo, PlainNamed o.1) →
      StoreOrder le (offers ++ todo.map fun o => o.1.offer) →
      ∃ pkgs', Flappy.storeAll todo pkgs = some pkgs' ∧
        StoresBest le (offers ++ todo.map fun o => o.1.offer) pkgs' := by
  intro todo
  induction todo with
  | nil => exact fun h _ _ => ⟨_, rfl, by simpa using h⟩
  | cons o todo ih =>
    intro offers pkgs h hwf hle
    have hsplit : offers ++ (o :: todo).map (fun o => o.1.offer) =
        offers ++ [o.1.offer] ++ todo.map fun o => o.1.offer := by
      rw [List.append_assoc]
      rfl
    rw [hsplit] at hle
    obtain ⟨pkgs', pkgrd', hs, h'⟩ := h.store (hwf o List.mem_cons_self)
      (hle.mono fun v hv => List.mem_append_left _ hv) o.2
    obtain ⟨pkgs'', hall, h''⟩ := ih h' (fun o' ho' => hwf o' (List.mem_cons_of_mem o ho')) hle
    refine ⟨pkgs'', ?_, ?_⟩
    · rw [Flappy.storeAll, hs]
      exact hall
    · rwa [hsplit]

end

/-- Storing packages in any order leaves one entry for each name, with a version that is
not worse than any that was stored under that name.  In another order the versions are the
same up to those that compare equal. -/
theorem storeAll_best (offers : List (PkgDict × Bool)) (hwf : ∀ o ∈ offers, PlainNamed o.1)
    (hcmp : ∀ n, CmpverPreorder fun v => ∃ o ∈ offers, o.1.pkgname = n ∧ o.1.pkgver = v) :
    ∃ pkgs, storeAll offers [] = some pkgs ∧
      pkgs.Pairwise (fun a b => a.pkgname ≠ b.pkgname) ∧
      (∀ o ∈ offers, ∃ e ∈ pkgs, e.pkgname = o.1.pkgname) ∧
      (∀ e ∈ pkgs, (∃ o ∈ offers, o.1.pkgname = e.pkgname ∧ o.1.pkgver = e.pkgver) ∧
        ∀ o ∈ offers, o.1.pkgname = e.pkgname → cmpver o.1.pkgver e.pkgver ≤ 0) ∧
      ∀ offers', offers'.Perm offers → ∃ pkgs', storeAll offers' [] = some pkgs' ∧
        ∀ e ∈ pkgs, ∃ e' ∈ pkgs', e'.pkgname = e.pkgname ∧ cmpver e.pkgver e'.pkgver = 0 := by
  have hnil : StoresBest NotBetter [] [] := ⟨fun e he => (by cases he), Best.nil⟩
  have hoffered : ∀ offers' : List (PkgDict × Bool), offers'.Perm offers →
      StoreOrder NotBetter ([] ++ offers'.map fun o => o.1.offer) := by
    refine fun offers' hperm => .notBetter fun n => (hcmp n).mono fun v hv => ?_
    obtain ⟨o, ho, heq⟩ := List.mem_map.mp hv
    exact ⟨o, hperm.subset ho, congrArg Prod.fst heq, congrArg Prod.snd heq⟩
  obtain ⟨pkgs, hall, h⟩ := hnil.storeAll hwf (hoffered offers (List.Perm.refl _))
  rw [List.nil_append] at h
  refine ⟨pkgs, hall, ?_, fun o ho => ?_, fun e he => ⟨?_, ?_⟩, fun offers' hperm => ?_⟩
  · have hdistinct := h.best.distinct
    rwa [List.pairwise_map] at hdistinct
  · obtain ⟨a, ha, hk, -⟩ := h.best.covers o.1.offer (List.mem_map_of_mem ho)
    obtain ⟨e, he, rfl⟩ := List.mem_map.mp ha
    exact ⟨e, he, hk⟩
  · obtain ⟨o, ho, heq⟩ := List.mem_map.mp (h.best.offered (List.mem_map_of_mem he))
    exact ⟨o, ho, congrArg Prod.fst heq, congrArg Prod.snd heq⟩
  · intro o ho hk
    have ho' : o.1.offer ∈ offers.map fun o => o.1.offer := List.mem_map.mpr ⟨o, ho, rfl⟩
    have he' : e.offer ∈ pkgs.map PkgDict.offer := List.mem_map.mpr ⟨e, he, rfl⟩
    have hle : NotBetter o.1.offer e.offer := h.best.le_of_mem he' ho' hk
    exact hle
  · obtain ⟨pkgs', hall', h'⟩ := hnil.storeAll (fun o ho => hwf o (hperm.subset ho))
      (hoffered offers' hperm)
    rw [List.nil_append] at h'
    refine ⟨pkgs', hall', fun e he => ?_⟩
    obtain ⟨b, hb, hk, hle, hge⟩ := h.best.unique h'.best (hperm.symm.map _).subset
      (hperm.map _).subset (List.mem_map_of_mem he)
    obtain ⟨e', he', rfl⟩ := List.mem_map.mp hb
    refine ⟨e', he', hk, ?_⟩
    -- both were offered, so the comparison is symmetric on them
    obtain ⟨o, ho, heq⟩ := List.mem_map.mp (h.best.offered (List.mem_map_of_mem he))
    obtain ⟨o', ho', heq'⟩ := List.mem_map.mp (h'.best.offered (List.mem_map_of_mem he'))
    have hswap : cmpver e'.pkgver e.pkgver = -cmpver e.pkgver e'.pkgver := (hcmp e.pkgname).swap
      ⟨o, ho, congrArg Prod.fst heq, congrArg Prod.snd heq⟩
      ⟨o', hperm.subset ho', (congrArg Prod.fst heq').trans hk, congrArg Prod.snd heq'⟩
    have hle' : cmpver e.pkgver e'.pkgver ≤ 0 := hle
    have hge' : cmpver e'.pkgver e.pkgver ≤ 0 := hge
    omega

/-- A package to be stored. -/
def storeDemo (name pkgver : String) : PkgDict × Bool :=
  ({ pkgver := pkgver.toList, pkgname := some name.toList }, false)

instance (d : PkgDict) : Decidable (PlainNamed d) :=
  decidable_of_iff (∃ n ∈ d.pkgname, pkgName d.pkgver = some n ∧ request n = .pkgname) Iff.rfl

theorem storeAll_best_storeDemo :
    ∃ pkgs, storeAll [storeDemo "a" "a-1_1", storeDemo "b" "b-2_1", storeDemo "a" "a-3_1",
        storeDemo "a" "a-2_1"] [] = some pkgs ∧
      pkgs.map PkgDict.pkgver = ["b-2_1".toList, "a-3_1".toList] ∧
      pkgs.Pairwise fun a b => a.pkgname ≠ b.pkgname := by
  have hsmall : ∀ o ∈ [storeDemo "a" "a-1_1", storeDemo "b" "b-2_1", storeDemo "a" "a-3_1",
      storeDemo "a" "a-2_1"], SmallVersion o.1.pkgver := by decide
  obtain ⟨pkgs, hall, hdistinct, -⟩ := storeAll_best [storeDemo "a" "a-1_1",
    storeDemo "b" "b-2_1", storeDemo "a" "a-3_1", storeDemo "a" "a-2_1"] (by decide) fun n => by
      refine cmpverPreorder_of_comparable ?_
      rintro _ _ ⟨o, ho, -, rfl⟩ ⟨o', ho', -, rfl⟩
      exact comparable_of_small (hsmall o ho) (hsmall o' ho')
  refine ⟨pkgs, hall, ?_, hdistinct⟩
  have hrun : (storeAll [storeDemo "a" "a-1_1", storeDemo "b" "b-2_1", storeDemo "a" "a-3_1",
      storeDemo "a" "a-2_1"] []).map (fun pkgs => pkgs.map PkgDict.pkgver) =
      some ["b-2_1".toList, "a-3_1".toList] := by decide
  rw [hall] at hrun
  exact Option.some.inj hrun

/-- The versions 1.0 and 1.00 compare equal: the first one stays, so the order matters.  And a
name that reads as a pattern finds another package, which the store then replaces. -/
theorem storeAll_order :
    (storeAll [storeDemo "a" "a-1.0_1", storeDemo "a" "a-1.00_1"] []).map
        (fun pkgs => pkgs.map PkgDict.pkgver) = some ["a-1.0_1".toList] ∧
      (storeAll [storeDemo "a" "a-1.00_1", storeDemo "a" "a-1.0_1"] []).map
        (fun pkgs => pkgs.map PkgDict.pkgver) = some ["a-1.00_1".toList] ∧
      pkgName "a*-2_1".toList = some "a*".toList ∧ pkgVersion "a*".toList = none ∧
      (storeAll [storeDemo "ab" "ab-1_1", storeDemo "a*" "a*-2_1"] []).map
        (fun pkgs => pkgs.map PkgDict.pkgver) = some ["a*-2_1".toList] := by
  decide

end Flappy
