/-
A prepared transaction names each package once.

During the loop the array holds entries twice: those that were appended again
after their dependencies.  What is left when these copies are taken away names
every package once, and removing the edges at the end leaves just that.

A store that replaces an entry removes the first one with the version it finds
under the name of its package.  If that version is left in the array only as such
a copy, because the entry itself was replaced before, the count is wrong, and two
versions of the package stay.

* `applyReplace_marks` — what a decision of the `replaces` pass does to the array;
* `transactionPrepare_once` — the claim, for turns in which this does not happen.
-/
import Flappy.Turns
import Mathlib.Data.List.Perm.Basic

open CStr

namespace Flappy

/-! ### The loop -/

/-- Beside the copies of the entries in `edges`, the array has one version of each package, and
it has all the packages `names`. -/
structure OnceInv (names : List (Option Str)) (edges : List Str) (st : State) : Prop where
  plain : ∀ e ∈ st.packages, PlainNamed e
  rest : ∃ rest, (st.packages.map PkgDict.pkgver).Perm (edges ++ rest) ∧
    (rest.map pkgName).Nodup ∧ ∀ n ∈ names, n ∈ rest.map pkgName

/-- The version that a store replaces is not left as a copy only. -/
def ReplacesOwn (edges : List Str) (c : StoreCall) : Prop :=
  ∀ d, c.replaced = some d → edges.count d.pkgver < (c.pkgs.map PkgDict.pkgver).count d.pkgver

theorem PlainNamed.name_eq {d : PkgDict} (h : PlainNamed d) : pkgName d.pkgver = d.pkgname := by
  obtain ⟨n, hn, hv, -⟩ := h
  rw [hn, hv]

/-- The entry that a store finds has the name of the package. -/
theorem StoreCall.found_name {c : StoreCall} (hplain : ∀ e ∈ c.pkgs, PlainNamed e)
    (hc : PlainNamed c.pkgrd) :
    (c.found = none → ∀ e ∈ c.pkgs, pkgName e.pkgver ≠ pkgName c.pkgrd.pkgver) ∧
      ∀ d, c.found = some d → d ∈ c.pkgs ∧ pkgName d.pkgver = pkgName c.pkgrd.pkgver := by
  obtain ⟨n, hn, hv, hreq⟩ := hc
  obtain ⟨hnone, hsome⟩ := findPkgInArray_name hplain hreq
  rw [StoreCall.found, hn, Option.bind_some, hv]
  refine ⟨fun h e he heq => ?_, fun d hd => ?_⟩
  · rw [(hplain e he).name_eq] at heq
    exact hnone h e he heq
  · obtain ⟨hmem, hname⟩ := hsome d hd
    exact ⟨hmem, (hplain d hmem).name_eq.trans hname⟩

/-- A version is replaced, beside the copies. -/
theorem perm_replace {l edges rest : List Str} {v w : Str} (h : l.Perm (edges ++ rest))
    (hv : v ∈ rest) : (l.erase v ++ [w]).Perm (edges ++ (rest.erase v ++ [w])) := by
  have hfront : (edges ++ rest).Perm (v :: (edges ++ rest.erase v)) :=
    (List.Perm.append_left edges (List.perm_cons_erase hv)).trans List.perm_middle
  have herase := (h.trans hfront).erase v
  rw [List.erase_cons_head] at herase
  rw [← List.append_assoc]
  exact herase.append_right [w]

theorem onceInv_rule (names : List (Option Str)) (edges : List Str) :
    StoreRule PlainNamed (ReplacesOwn edges) (OnceInv names edges) where
  quiet hq h := ⟨hq.plain h.plain, hq.pkgvers ▸ h.rest⟩
  store {st st' c} hs hc hok h := by
    have hpkgs : c.pkgs = st.packages := hs.1
    obtain ⟨hnone, hsome⟩ := @StoreCall.found_name c (hpkgs ▸ h.plain) hc
    obtain ⟨rest, hperm, hnodup, hnames⟩ := h.rest
    refine ⟨hs.plain hc h.plain, ?_⟩
    rcases hs.pkgvers with ⟨hf, heq⟩ | heq | ⟨d, hf, hr, heq⟩
    · -- a package of a new name
      refine ⟨rest ++ [c.pkgrd.pkgver], ?_, ?_, fun n hn => ?_⟩
      · rw [heq, ← List.append_assoc]
        exact hperm.append_right _
      · rw [List.map_append, List.nodup_append]
        refine ⟨hnodup, List.nodup_singleton _, fun a ha b hb => ?_⟩
        obtain ⟨v, hv, rfl⟩ := List.mem_map.mp ha
        rw [List.map_singleton, List.mem_singleton] at hb
        obtain ⟨e, he, rfl⟩ := List.mem_map.mp (hperm.symm.subset (List.mem_append_right _ hv))
        exact hb ▸ hnone hf e (hpkgs ▸ he)
      · rw [List.map_append]
        exact List.mem_append_left _ (hnames n hn)
    · rw [heq]
      exact ⟨rest, hperm, hnodup, hnames⟩
    · obtain ⟨hd, hname⟩ := hsome d hf
      have hown := hok d hr
      rw [hpkgs, hperm.count_eq, List.count_append] at hown
      have hmem : d.pkgver ∈ rest := List.count_pos_iff.mp (by omega)
      have hsame : ((rest.erase d.pkgver ++ [c.pkgrd.pkgver]).map pkgName).Perm
          (rest.map pkgName) := by
        rw [List.map_append, List.map_singleton, ← hname]
        refine (List.perm_append_singleton _ _).trans ?_
        rw [← List.map_cons]
        exact ((List.perm_cons_erase hmem).symm).map pkgName
      refine ⟨rest.erase d.pkgver ++ [c.pkgrd.pkgver], ?_, hsame.nodup_iff.mpr hnodup,
        fun n hn => hsame.symm.subset (hnames n hn)⟩
      rw [heq]
      exact perm_replace hperm hmem

theorem foldl_removePkgFromArrayByPkgver (edges : List Str) :
    ∀ (pkgs : List PkgDict), (edges.foldl removePkgFromArrayByPkgver pkgs).map PkgDict.pkgver =
      (pkgs.map PkgDict.pkgver).diff edges := by
  induction edges with
  | nil => exact fun pkgs => (List.diff_nil _).symm
  | cons v edges ih =>
    intro pkgs
    rw [List.foldl_cons, ih, map_removePkgFromArrayByPkgver, List.diff_cons]

theorem append_diff_left (edges rest : List Str) : (edges ++ rest).diff edges = rest := by
  induction edges with
  | nil => exact List.diff_nil rest
  | cons v edges ih => rw [List.cons_append, List.diff_cons, List.erase_cons_head, ih]

/-- Each package once, and all the packages `names`. -/
structure NamesOnce (names : List (Option Str)) (pkgs : List PkgDict) : Prop where
  plain : ∀ e ∈ pkgs, PlainNamed e
  nodup : (pkgs.map PkgDict.pkgname).Nodup
  names : ∀ n ∈ names, n ∈ pkgs.map PkgDict.pkgname

/-- Removing the edges takes the copies away. -/
theorem OnceInv.removed {names : List (Option Str)} {edges : List Str} {st : State}
    (h : OnceInv names edges st) :
    NamesOnce names (edges.foldl removePkgFromArrayByPkgver st.packages) := by
  obtain ⟨rest, hperm, hnodup, hnames⟩ := h.rest
  have hplain : ∀ e ∈ edges.foldl removePkgFromArrayByPkgver st.packages, PlainNamed e :=
    fun e he => h.plain e (PrepareRule.mem_of_mem_foldl_remove he)
  have hdiff : ((edges.foldl removePkgFromArrayByPkgver st.packages).map PkgDict.pkgver).Perm
      rest := by
    rw [foldl_removePkgFromArrayByPkgver]
    refine (hperm.diff_right edges).trans ?_
    rw [append_diff_left]
  have hname : ((edges.foldl removePkgFromArrayByPkgver st.packages).map PkgDict.pkgname).Perm
      (rest.map pkgName) := by
    refine List.Perm.trans ?_ (hdiff.map pkgName)
    rw [List.map_map]
    refine List.Perm.of_eq (List.map_congr_left fun e he => ?_)
    exact (hplain e he).name_eq.symm
  exact ⟨hplain, hname.nodup_iff.mpr hnodup, fun n hn => hname.symm.subset (hnames n hn)⟩

/-! ### The `replaces` pass -/

/-- The entry stays, or becomes a removal. -/
structure Marks (y x : PkgDict) : Prop where
  pkgname : x.pkgname = y.pkgname
  pkgver : x.pkgver = y.pkgver
  transaction : x.transaction = y.transaction ∨ x.transaction = .remove
  runDepends : x.runDepends = y.runDepends

theorem Marks.refl (y : PkgDict) : Marks y y := ⟨rfl, rfl, Or.inl rfl, rfl⟩

theorem Marks.trans {a b c : PkgDict} (h : Marks a b) (h' : Marks b c) : Marks a c := by
  refine ⟨h'.pkgname.trans h.pkgname, h'.pkgver.trans h.pkgver, ?_,
    h'.runDepends.trans h.runDepends⟩
  rcases h'.transaction with ht | ht
  · rw [ht]
    exact h.transaction
  · exact Or.inr ht

theorem marks_dropAutomaticInstall (d : PkgDict) : Marks d (dropAutomaticInstall d) :=
  ⟨rfl, rfl, Or.inl rfl, rfl⟩

theorem marks_markReplaced (d : PkgDict) : Marks d (markReplaced d) :=
  ⟨rfl, rfl, Or.inr rfl, rfl⟩

/-- All entries stay, or become removals. -/
def MarksAll (pkgs pkgs' : List PkgDict) : Prop := List.Forall₂ Marks pkgs pkgs'

theorem MarksAll.refl (pkgs : List PkgDict) : MarksAll pkgs pkgs :=
  List.forall₂_same.mpr fun e _ => Marks.refl e

theorem MarksAll.trans {a b c : List PkgDict} (h : MarksAll a b) (h' : MarksAll b c) :
    MarksAll a c := by
  induction h generalizing c with
  | nil =>
    cases h'
    exact List.Forall₂.nil
  | cons hm _ ih =>
    cases h' with
    | cons hm' hrest => exact List.Forall₂.cons (hm.trans hm') (ih hrest)

theorem MarksAll.modify {f : PkgDict → PkgDict} (hf : ∀ d, Marks d (f d)) :
    ∀ (pkgs : List PkgDict) (i : Nat), MarksAll pkgs (pkgs.modify i f) := by
  intro pkgs
  induction pkgs with
  | nil => exact fun i => by simpa using MarksAll.refl []
  | cons e pkgs ih =>
    intro i
    cases i with
    | zero =>
      rw [List.modify_zero_cons]
      exact List.Forall₂.cons (hf e) (MarksAll.refl pkgs)
    | succ i =>
      rw [List.modify_succ_cons]
      exact List.Forall₂.cons (Marks.refl e) (ih i)

theorem MarksAll.names {pkgs pkgs' : List PkgDict} (h : MarksAll pkgs pkgs') :
    pkgs'.map PkgDict.pkgname = pkgs.map PkgDict.pkgname := by
  induction h with
  | nil => rfl
  | cons hm _ ih => rw [List.map_cons, List.map_cons, ih, hm.pkgname]

theorem MarksAll.plain {pkgs pkgs' : List PkgDict} (h : MarksAll pkgs pkgs')
    (hplain : ∀ e ∈ pkgs, PlainNamed e) : ∀ e ∈ pkgs', PlainNamed e := by
  induction h with
  | nil => exact hplain
  | cons hm _ ih =>
    rw [List.forall_mem_cons] at hplain ⊢
    exact ⟨hplain.1.congr hm.pkgver hm.pkgname, ih hplain.2⟩

theorem marksAll_dropAt (pkgs : List PkgDict) (pos : Nat) (drop : Bool) :
    MarksAll pkgs (dropAt pkgs pos drop) := by
  cases drop with
  | true => exact MarksAll.modify marks_dropAutomaticInstall pkgs pos
  | false => exact MarksAll.refl pkgs

theorem marksAll_markFound (pkgs : List PkgDict) (pos : Nat) (drop : Bool) (str : Str) :
    MarksAll pkgs (markFound (dropAt pkgs pos drop) str) :=
  (marksAll_dropAt pkgs pos drop).trans (MarksAll.modify marks_markReplaced _ _)

/-- The entry with the name that is looked for is put back in its place. -/
theorem arrayReplaceDictByName_self {pkgs pkgs' : List PkgDict} {n : Str} {d : PkgDict}
    (hplain : ∀ e ∈ pkgs, PlainNamed e) (hreq : request n = .pkgname)
    (hd : pkgs[pkgs.findIdx (matchesRequest n false)]? = some d)
    (h : arrayReplaceDictByName pkgs d n = some pkgs') : pkgs' = pkgs := by
  obtain ⟨i, hi, rfl⟩ := Option.map_eq_some_iff.mp h
  have hmatch : ∀ e ∈ pkgs, matchesRequest n false e = decide (e.pkgname = some n) := by
    intro e he
    rw [matchesRequest, if_neg (by simp), hreq, (hplain e he).name_eq]
  -- both searches stop at the same entry
  have hsame : pkgs.findIdx (matchesRequest n false) = i := by
    rw [List.findIdx?_eq_some_iff_findIdx_eq] at hi
    rw [← hi.2]
    clear hd hi h
    induction pkgs with
    | nil => rfl
    | cons e pkgs ih =>
      rw [List.forall_mem_cons] at hplain hmatch
      rw [List.findIdx_cons, List.findIdx_cons, hmatch.1, ih hplain.2 hmatch.2]
  rw [hsame] at hd
  obtain ⟨hlt, rfl⟩ := List.getElem?_eq_some_iff.mp hd
  exact List.set_getElem_self hlt

/-- A package is added only if there is no entry of its name. -/
theorem replaceAction_add {xhp : Handle} {pkgs : List PkgDict} {obj instd : PkgDict}
    {pattern : Str} {instdAuto inArray : Bool}
    (h : replaceAction xhp pkgs obj pattern = .add instdAuto instd inArray) :
    ∃ n, pkgName instd.pkgver = some n ∧ findPkgInArray pkgs n .unknown = none ∧
      replacedCandidate xhp pkgs pattern = some (instd, inArray) := by
  rw [replaceAction] at h
  split at h
  · cases h
  · next instd' inArray' hc =>
    split at h
    · cases h
    · split at h
      · cases h
      · next n hn =>
        split at h
        · cases h
        · split at h
          · next hf =>
            cases h
            exact ⟨n, hn, hf, hc⟩
          · split at h
            · cases h
            · split at h
              · cases h
              · cases h

/-- What a decision does: entries become removals, and a removal under a new name may come to
the head. -/
theorem applyReplace_marks {xhp : Handle} {pkgs : List PkgDict} {pos : Nat} {obj : PkgDict}
    {pattern : Str} (hdb : ∀ p ∈ xhp.pkgdb.values, PlainNamed p)
    (hplain : ∀ e ∈ pkgs, PlainNamed e) :
    ∃ pkgs', MarksAll pkgs pkgs' ∧
      ((applyReplace pkgs pos obj pattern (replaceAction xhp pkgs obj pattern)).1 = pkgs' ∨
        ∃ x, (applyReplace pkgs pos obj pattern (replaceAction xhp pkgs obj pattern)).1 =
            x :: pkgs' ∧ x.transaction = .remove ∧ PlainNamed x ∧
          ∀ e ∈ pkgs, e.pkgname ≠ x.pkgname) := by
  have hspec := replaceAction_spec xhp pkgs obj pattern
  -- the package that is found has a plain name
  have hinstd : ∀ {instd inArray}, replacedCandidate xhp pkgs pattern = some (instd, inArray) →
      PlainNamed instd := by
    intro instd inArray hc
    cases inArray with
    | true => exact hplain instd (List.mem_of_find?_eq_some (find?_of_replacedCandidate hc).1)
    | false => exact hdb instd (mem_of_replacedCandidate hc)
  have hcases := applyReplace_cases pkgs pos obj pattern (replaceAction xhp pkgs obj pattern)
  generalize applyReplace pkgs pos obj pattern (replaceAction xhp pkgs obj pattern) = res
    at hcases ⊢
  -- a package that is added comes to the head, and has no entry yet
  have hadd : ∀ {instdAuto instd inArray pkgs₁},
      replaceAction xhp pkgs obj pattern = .add instdAuto instd inArray → MarksAll pkgs pkgs₁ →
      ∃ pkgs', MarksAll pkgs pkgs' ∧ (markReplaced instd :: pkgs₁ = pkgs' ∨
        ∃ x, markReplaced instd :: pkgs₁ = x :: pkgs' ∧ x.transaction = .remove ∧
          PlainNamed x ∧ ∀ e ∈ pkgs, e.pkgname ≠ x.pkgname) := by
    intro instdAuto instd inArray pkgs₁ ha hmarks
    obtain ⟨n, hn, hf, hc⟩ := replaceAction_add ha
    obtain ⟨m, hm, hv, hreq⟩ := hinstd hc
    obtain rfl := Option.some.inj (hn.symm.trans hv)
    refine ⟨pkgs₁, hmarks, Or.inr ⟨markReplaced instd, rfl, rfl, ⟨n, hm, hv, hreq⟩, ?_⟩⟩
    exact fun e he heq => (findPkgInArray_name hplain hreq).1 hf e he (heq.trans hm)
  generalize ha : replaceAction xhp pkgs obj pattern = action at hspec hcases
  cases hcases with
  | skip => exact ⟨pkgs, MarksAll.refl pkgs, Or.inl rfl⟩
  | fail => exact ⟨pkgs, MarksAll.refl pkgs, Or.inl rfl⟩
  | stuck => exact ⟨_, marksAll_markFound pkgs pos _ _, Or.inl rfl⟩
  | @turned instdAuto curpkgname reppkgd pkgs' hr hset =>
    obtain ⟨instd, inArray, -, hf, -⟩ := hspec
    have hreq : request curpkgname = .pkgname := by
      obtain ⟨n, -, hv, hreq⟩ := hinstd hf.candidate
      obtain rfl := Option.some.inj (hf.name.symm.trans hv)
      exact hreq
    have hmarks := marksAll_markFound pkgs pos (!instdAuto) curpkgname
    refine ⟨_, hmarks, Or.inl (arrayReplaceDictByName_self (hmarks.plain hplain) hreq ?_ hset)⟩
    -- marking does not move the entry that the search finds
    have hsees : ∀ d, matchesRequest curpkgname false (markReplaced d) =
        matchesRequest curpkgname false d := fun _ => rfl
    rw [← hr, markFound, findIdx_modify hsees]
  | added => exact hadd ha (marksAll_dropAt pkgs pos _)
  | marked => exact hadd ha (marksAll_markFound pkgs pos _ pattern)

/-- A decision keeps the names apart. -/
theorem NamesOnce.applyReplace {names : List (Option Str)} {xhp : Handle} {pkgs : List PkgDict}
    {pos : Nat} {obj : PkgDict} {pattern : Str} (h : NamesOnce names pkgs)
    (hdb : ∀ p ∈ xhp.pkgdb.values, PlainNamed p) :
    NamesOnce names
      (applyReplace pkgs pos obj pattern (replaceAction xhp pkgs obj pattern)).1 := by
  obtain ⟨pkgs', hmarks, heq | ⟨x, heq, -, hx, hnew⟩⟩ :=
    @applyReplace_marks xhp pkgs pos obj pattern hdb h.plain
  · rw [heq]
    exact ⟨hmarks.plain h.plain, hmarks.names ▸ h.nodup, hmarks.names ▸ h.names⟩
  · rw [heq]
    refine ⟨List.forall_mem_cons.mpr ⟨hx, hmarks.plain h.plain⟩, ?_, fun n hn => ?_⟩
    · rw [List.map_cons, hmarks.names, List.nodup_cons]
      refine ⟨fun hmem => ?_, h.nodup⟩
      obtain ⟨e, he, hname⟩ := List.mem_map.mp hmem
      exact hnew e he hname
    · rw [List.map_cons, hmarks.names]
      exact List.mem_cons_of_mem _ (h.names n hn)

/-! ### Every run -/

theorem prepareLoop_once {env : Env} {xhp : Handle} (hin : PlainInput env xhp) {st st' : State}
    {looks : List Look} {edges : List Str} (hst : PlainInv xhp st)
    (hdistinct : (st.packages.map PkgDict.pkgname).Nodup)
    (hturns : ∀ t ∈ st.turns env, ∀ c ∈ t.stores, ReplacesOwn t.edges c)
    (h : prepareLoop env st.packages.length 0 st [] [] = (st', looks, edges, .ok)) :
    PlainInv xhp st' ∧ OnceInv (st.packages.map PkgDict.pkgname) edges st' := by
  have hnames : (st.packages.map PkgDict.pkgver).map pkgName = st.packages.map PkgDict.pkgname := by
    rw [List.map_map]
    exact List.map_congr_left fun e he => (hst.entries e he).name_eq
  have hstart : OnceInv (st.packages.map PkgDict.pkgname) [] st :=
    ⟨hst.entries, st.packages.map PkgDict.pkgver, List.Perm.refl _, hnames.symm ▸ hdistinct,
      fun n hn => hnames.symm ▸ hn⟩
  refine @prepareLoop_inv env (fun t => ∀ c ∈ t.stores, ReplacesOwn t.edges c)
    (fun _ st₁ _ edges₁ _ => PlainInv xhp st₁ ∧
      OnceInv (st.packages.map PkgDict.pkgname) edges₁ st₁) (fun _ _ hJ => hJ)
    (fun {i st₁ looks₁ edges₁ turns₁ pkgd st₂ more} hi _ hrun hok hJ => ?_) _ _ _ _ _ _ _ _ []
    ⟨hst, hstart⟩ hturns h
  obtain ⟨-, hst₂⟩ := hin.resolver.transactionPkgDeps hJ.1 hrun
  have hplain := hin.resolver.append hi hJ.1 hst₂
  obtain ⟨-, rest, hperm, hnodup, hall⟩ :=
    (onceInv_rule _ edges₁).turn hin.resolver hJ.1 hrun hok hJ.2
  refine ⟨hplain, hplain.entries, rest, ?_, hnodup, hall⟩
  -- the entry and its edge are added
  rw [List.map_append, List.map_singleton, (PkgDict.of_bare_eq (st₂.bare_refresh _ pkgd)).1]
  have hswap : ((edges₁ ++ rest) ++ [pkgd.pkgver]).Perm ((edges₁ ++ [pkgd.pkgver]) ++ rest) := by
    rw [List.append_assoc, List.append_assoc]
    exact List.perm_append_comm.append_left edges₁
  exact (hperm.append_right _).trans hswap

/-- **Each package once.**  Take any requests that lead to an array with distinct names.  If no
store replaces a version that is left in the array only as a copy of an entry that was passed
to the resolver before, the prepared transaction has one entry for each package, and one for
each package of the array it started with. -/
theorem transactionPrepare_once (env : Env) (orphansOf : Handle → Str → Option (List Str))
    (xhp : Handle) (repositories : List Str) (reqs : List Req) (s : Session)
    (hs : s = (Session.start xhp repositories).requests env orphansOf reqs)
    (hin : PlainInput env xhp)
    (hdistinct : s.st.packages.Pairwise fun a b => a.pkgname ≠ b.pkgname)
    (hturns : ∀ t ∈ s.st.turns env, ∀ c ∈ t.stores, ReplacesOwn t.edges c) (stats : State → Rv)
    (fuel : Nat) (st' : State) (h : transactionPrepare env stats fuel s.st = some (st', .ok)) :
    (st'.packages.Pairwise fun a b => a.pkgname ≠ b.pkgname) ∧
      ∀ e ∈ s.st.packages, ∃ e' ∈ st'.packages, e'.pkgname = e.pkgname := by
  have hst := hin.resolver.session orphansOf repositories hs
  obtain ⟨st₁, looks, edges, hloop, hpkgs⟩ := transactionPrepare_ok h
  obtain ⟨hst₁, honce⟩ := prepareLoop_once hin hst (List.pairwise_map.mpr hdistinct) hturns hloop
  have hremoved := honce.removed
  have hfinal : NamesOnce (s.st.packages.map PkgDict.pkgname) st'.packages := by
    rcases hpkgs with hpkgs | hpkgs
    · rw [hpkgs]
      exact hremoved
    · rw [hpkgs]
      exact Walk.run_inv (fun _ _ _ _ hQ _ => hQ.applyReplace fun p hp =>
        hin.installed hst₁.db hp) fuel _ hremoved
  refine ⟨List.pairwise_map.mp hfinal.nodup, fun e he => ?_⟩
  obtain ⟨e', he', hname⟩ := List.mem_map.mp (hfinal.names _ (List.mem_map_of_mem he))
  exact ⟨e', he', hname⟩

/-- `b` needs `c` and a newer `a` than the one requested before it, and `c` is content with that
one. -/
theorem transactionPrepare_once_turnsEnv :
    ∃ st', transactionPrepare turnsEnv (fun _ => .ok) 100 (turnsSession ["a", "b"]).st =
        some (st', .ok) ∧
      st'.packages.map PkgDict.pkgver = ["a-2_1", "c-1_1", "b-1_1"].map String.toList ∧
      st'.packages.Pairwise fun a b => a.pkgname ≠ b.pkgname := by
  have hrun : (transactionPrepare turnsEnv (fun _ => .ok) 100 (turnsSession ["a", "b"]).st).map
      (fun r => (r.1.packages.map PkgDict.pkgver, r.2)) =
      some (["a-2_1", "c-1_1", "b-1_1"].map String.toList, .ok) := by decide +kernel
  obtain ⟨⟨st', rv⟩, hprep, heq⟩ := Option.map_eq_some_iff.mp hrun
  rw [Prod.mk.injEq] at heq
  obtain ⟨hpkgs, rfl⟩ := heq
  have hown : ∀ t ∈ (turnsSession ["a", "b"]).st.turns turnsEnv, ∀ c ∈ t.stores,
      ∀ d ∈ c.replaced, t.edges.count d.pkgver < (c.pkgs.map PkgDict.pkgver).count d.pkgver := by
    decide +kernel
  exact ⟨st', hprep, hpkgs, (transactionPrepare_once turnsEnv (fun _ _ => none) {} _ _ _ rfl
    plainInput_turnsEnv (by decide +kernel) hown _ _ _ hprep).1⟩

/-- `z` needs `y`, which needs a still newer `a` than `z` itself.  The entry of `a` is replaced,
then its copy is taken for the entry, and the version in between stays. -/
theorem transactionPrepare_twice :
    ((turnsSession ["a", "z"]).st.packages.Pairwise fun a b => a.pkgname ≠ b.pkgname) ∧
      ∃ st', transactionPrepare turnsEnv (fun _ => .ok) 100 (turnsSession ["a", "z"]).st =
          some (st', .ok) ∧
        st'.packages.map PkgDict.pkgver =
          ["a-2_1", "a-3_1", "y-1_1", "z-1_1"].map String.toList ∧
        ¬ st'.packages.Pairwise fun a b => a.pkgname ≠ b.pkgname := by
  have hrun : (transactionPrepare turnsEnv (fun _ => .ok) 100 (turnsSession ["a", "z"]).st).map
      (fun r => (r.1.packages.map PkgDict.pkgver, r.2,
        decide (r.1.packages.Pairwise fun a b => a.pkgname ≠ b.pkgname))) =
      some (["a-2_1", "a-3_1", "y-1_1", "z-1_1"].map String.toList, .ok, false) := by
    decide +kernel
  obtain ⟨⟨st', rv⟩, hprep, heq⟩ := Option.map_eq_some_iff.mp hrun
  simp only [Prod.mk.injEq] at heq
  obtain ⟨hpkgs, rfl, hdup⟩ := heq
  exact ⟨by decide +kernel, st', hprep, hpkgs, of_decide_eq_false hdup⟩

end Flappy
