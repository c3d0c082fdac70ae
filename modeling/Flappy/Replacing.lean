/-
Which packages go for a `replaces` (`lib/transaction_check_replaces.c`, second part).

The pass reads the patterns of all entries it comes to, of those it has put in front
too: it comes back to them when an entry puts more than one package in front.  What
it decides about a pattern can be read off the array as it was, behind what was put
in front; entries that were marked in the meantime make no difference.

* `frontAt` — what is in front when the pass comes to an index;
* `FindsToGo` — the package that a pattern finds to go;
* `replaceAction_follows` — the decision about the array as it is, and the one about
  the array as it was;
* `NothingForeign` — nothing else is found for the patterns of entries that are not
  installed, nor for virtual packages;
* `walk_replacedOk_iff` — exactly then every removal comes from an entry that is
  installed, updated or reinstalled.
-/
import Mathlib.Data.List.Forall2
import Mathlib.Data.List.Induction
import Flappy.Replaces
import Flappy.Store

open CStr

namespace Flappy

/-! ### Lists of entries that answer to each other -/

section Forall₂

variable {α β : Type*} {R : α → β → Prop} {l : List α} {l' : List β}

theorem forall₂_getElem? (h : List.Forall₂ R l l') {i : Nat} {b : β} (hb : l'[i]? = some b) :
    ∃ a, l[i]? = some a ∧ R a b := by
  induction h generalizing i with
  | nil => cases hb
  | cons hr _ ih =>
    cases i with
    | zero =>
      obtain rfl := Option.some.inj hb
      exact ⟨_, rfl, hr⟩
    | succ i => exact ih hb

theorem getElem?_forall₂ (h : List.Forall₂ R l l') {i : Nat} {a : α} (ha : l[i]? = some a) :
    ∃ b, l'[i]? = some b ∧ R a b := by
  induction h generalizing i with
  | nil => cases ha
  | cons hr _ ih =>
    cases i with
    | zero =>
      obtain rfl := Option.some.inj ha
      exact ⟨_, rfl, hr⟩
    | succ i => exact ih ha

/-- Changing one element. -/
theorem forall₂_modify {f : β → β} (h : List.Forall₂ R l l') {i : Nat}
    (hf : ∀ a b, l[i]? = some a → l'[i]? = some b → R a b → R a (f b)) :
    List.Forall₂ R l (l'.modify i f) := by
  induction h generalizing i with
  | nil =>
    rw [List.modify_nil]
    exact .nil
  | cons hr hrest ih =>
    cases i with
    | zero => exact .cons (hf _ _ rfl rfl hr) hrest
    | succ i => exact .cons hr (ih fun a b ha hb => hf a b ha hb)

variable {p : α → Bool} {q : β → Bool}

theorem forall₂_findIdx (h : List.Forall₂ R l l') (hp : ∀ a b, R a b → p a = q b) :
    l.findIdx p = l'.findIdx q := by
  induction h with
  | nil => rfl
  | cons hr _ ih => rw [List.findIdx_cons, List.findIdx_cons, hp _ _ hr, ih]

/-- A search stops in both lists, or in neither. -/
theorem forall₂_find? (h : List.Forall₂ R l l') (hp : ∀ a b, R a b → p a = q b) :
    (l.find? p = none ∧ l'.find? q = none) ∨
      ∃ a b, l.find? p = some a ∧ l'.find? q = some b ∧ R a b := by
  induction h with
  | nil => exact Or.inl ⟨rfl, rfl⟩
  | @cons a b _ _ hr _ ih =>
    rw [List.find?_cons, List.find?_cons, hp a b hr]
    cases q b with
    | true => exact Or.inr ⟨a, b, rfl, rfl, hr⟩
    | false => exact ih

end Forall₂

/-! ### What the pass may do to the array -/

/-- The package answers to a `replaces` pattern of an entry that the transaction installs,
updates or reinstalls. -/
def AnswersInstall (pkgs₀ : List PkgDict) (d : PkgDict) : Prop :=
  ∃ r ∈ pkgs₀, r.transaction.unpacks = true ∧ ∃ pattern ∈ r.replaces.getD [], Answers pattern d

/-- A package that is removed for such a pattern. -/
def Replaced (pkgs₀ : List PkgDict) (x : PkgDict) : Prop :=
  x.transaction = .remove ∧ AnswersInstall pkgs₀ x

/-- An entry of the transaction is still the same one, up to `automatic-install`,
or it has been replaced. -/
def StaysOrReplaced (pkgs₀ : List PkgDict) (y x : PkgDict) : Prop :=
  { x with automaticInstall := y.automaticInstall } = y ∨ Replaced pkgs₀ x

/-- The array after some steps on `pkgs₀`: packages that were replaced, and behind
them the entries of `pkgs₀`, each as it was or replaced. -/
structure ReplacedOk (pkgs₀ pkgs : List PkgDict) : Prop where
  length_le : pkgs₀.length ≤ pkgs.length
  added : ∀ i x, i + pkgs₀.length < pkgs.length → pkgs[i]? = some x → Replaced pkgs₀ x
  kept : ∀ i y, pkgs₀[i]? = some y →
    ∃ x, pkgs[i + (pkgs.length - pkgs₀.length)]? = some x ∧ StaysOrReplaced pkgs₀ y x

/-! ### What the pass does, read off the array as it was -/

/-- The array as it was, behind packages that were added, the last one first. -/
def withFront (pkgs₀ front : List PkgDict) : List PkgDict := front.map markReplaced ++ pkgs₀

/-- The packages in front after one pattern of `e`. -/
def putInFront (xhp : Handle) (pkgs₀ : List PkgDict) (e : PkgDict) (front : List PkgDict)
    (pattern : Str) : List PkgDict :=
  match replaceAction xhp (withFront pkgs₀ front) e pattern with
  | .add _ instd _ => instd :: front
  | _ => front

/-- The packages in front when the pass comes to an index. -/
def frontAt (xhp : Handle) (pkgs₀ : List PkgDict) : Nat → List PkgDict
  | 0 => []
  | i + 1 =>
    match (withFront pkgs₀ (frontAt xhp pkgs₀ i))[i]? with
    | none => frontAt xhp pkgs₀ i
    | some e => (e.replaces.getD []).foldl (putInFront xhp pkgs₀ e) (frontAt xhp pkgs₀ i)

/-- The pass comes to a pattern of `e`, with these packages in front. -/
structure ComesTo (xhp : Handle) (pkgs₀ : List PkgDict) (e : PkgDict) (pattern : Str)
    (front : List PkgDict) : Prop where
  there : ∃ i before after, (withFront pkgs₀ (frontAt xhp pkgs₀ i))[i]? = some e ∧
    e.replaces.getD [] = before ++ pattern :: after ∧
    front = before.foldl (putInFront xhp pkgs₀ e) (frontAt xhp pkgs₀ i)

/-- A pattern of `e` finds a package that is to go: one without an entry in the array, or the
entry of that name, if that is no removal, not on hold, and answers to the pattern. -/
inductive FindsToGo (xhp : Handle) (pkgs : List PkgDict) (e : PkgDict) (pattern : Str) :
    PkgDict → Prop
  | package {instd : PkgDict} {inArray : Bool} {n : Str} :
      FindsReplaced xhp pkgs pattern instd inArray n → pkgName e.pkgver ≠ some n →
      pkgs.find? (matchesRequest n false) = none → FindsToGo xhp pkgs e pattern instd
  | entry {instd rep : PkgDict} {inArray : Bool} {n : Str} :
      FindsReplaced xhp pkgs pattern instd inArray n → pkgName e.pkgver ≠ some n →
      pkgs.find? (matchesRequest n false) = some rep → rep.transaction ≠ .remove →
      rep.transaction ≠ .hold →
      (matchVirtualPkgInDict rep pattern = true ∨ pkgpatternMatch rep.pkgver pattern = true) →
      FindsToGo xhp pkgs e pattern rep

/-- The installed provider that the configuration names for a virtual package. -/
def installedProvider (xhp : Handle) (vpkg : Str) : Option PkgDict :=
  (vpkgUserConf xhp vpkg).bind (findPkgInDict xhp.pkgdb)

/-- Every package that is found to go answers to a pattern of an entry that is installed: also
what is found for another entry, removed, on hold, or put in front; and what is found for an
entry that is installed as the configured provider of a virtual package. -/
structure NothingForeign (xhp : Handle) (pkgs₀ : List PkgDict) : Prop where
  foreign : ∀ e pattern front, ComesTo xhp pkgs₀ e pattern front → e.transaction.unpacks = false →
    ∀ x, FindsToGo xhp (withFront pkgs₀ front) e pattern x → AnswersInstall pkgs₀ x
  configured : ∀ e pattern front, ComesTo xhp pkgs₀ e pattern front →
    e.transaction.unpacks = true → ∀ x, installedProvider xhp pattern = some x →
      FindsToGo xhp (withFront pkgs₀ front) e pattern x → AnswersInstall pkgs₀ x

/-- The packages of the database and of the array go by plain names. -/
structure GoByNames (xhp : Handle) (pkgs₀ : List PkgDict) : Prop where
  keys : KeysNamed xhp
  plain : ∀ e ∈ xhp.pkgdb.entries, request e.1 = .pkgname
  stored : ∀ e ∈ xhp.pkgdb.entries, NameOk e.2
  entries : ∀ e ∈ pkgs₀, PlainNamed e

/-! ### The decision -/

section

variable {xhp : Handle} {pkgs₀ pkgs front : List PkgDict} {e obj x y : PkgDict} {pattern n : Str}

/-- The decision about a package that a pattern has found. -/
def decideFound (pkgs : List PkgDict) (pattern : Str) (instd : PkgDict) (inArray : Bool) (n : Str) :
    ReplaceAction :=
  match pkgs.find? (matchesRequest n false) with
  | none => .add (instd.automaticInstall.getD false) instd inArray
  | some rep =>
    if rep.transaction = .remove ∨ rep.transaction = .hold then .skip
    else if matchVirtualPkgInDict rep pattern = false ∧
        pkgpatternMatch rep.pkgver pattern = false then .skip
    else .turn (instd.automaticInstall.getD false) n

theorem replaceAction_candidate {instd : PkgDict} {inArray : Bool}
    (hc : replacedCandidate xhp pkgs pattern = some (instd, inArray))
    (hn : pkgName instd.pkgver = some n) :
    replaceAction xhp pkgs e pattern =
      if instd.hold = some true ∨ pkgName e.pkgver = some n then .skip
      else decideFound pkgs pattern instd inArray n := by
  rw [replaceAction, hc]
  simp only [hn]
  by_cases hh : instd.hold = some true
  · rw [if_pos hh, if_pos (Or.inl hh)]
  · rw [if_neg hh]
    by_cases hself : pkgName e.pkgver = some n
    · rw [if_pos hself, if_pos (Or.inr hself)]
    · rw [if_neg hself, if_neg (not_or.mpr ⟨hh, hself⟩), findPkgInArray_unknown]
      rfl

theorem replaceAction_found {instd : PkgDict} {inArray : Bool}
    (hf : FindsReplaced xhp pkgs pattern instd inArray n) (hother : pkgName e.pkgver ≠ some n) :
    replaceAction xhp pkgs e pattern = decideFound pkgs pattern instd inArray n := by
  rw [replaceAction_candidate hf.candidate hf.name, if_neg (not_or.mpr ⟨hf.not_hold, hother⟩)]

/-- Without such a package the pattern is passed over, unless the name of the package cannot be
read. -/
theorem replaceAction_not_found
    (h : ∀ instd inArray n, FindsReplaced xhp pkgs pattern instd inArray n →
      pkgName e.pkgver = some n) :
    replaceAction xhp pkgs e pattern = .skip ∨ replaceAction xhp pkgs e pattern = .fail := by
  rw [replaceAction]
  cases hc : replacedCandidate xhp pkgs pattern with
  | none => exact Or.inl rfl
  | some c =>
    obtain ⟨instd, inArray⟩ := c
    simp only
    by_cases hh : instd.hold = some true
    · rw [if_pos hh]
      exact Or.inl rfl
    · rw [if_neg hh]
      cases hn : pkgName instd.pkgver with
      | none => exact Or.inr rfl
      | some m =>
        simp only
        rw [if_pos (h instd inArray m ⟨hc, hh, hn⟩)]
        exact Or.inl rfl

/-- What a decision marks. -/
def MarksPkg (pkgs : List PkgDict) (x : PkgDict) : ReplaceAction → Prop
  | .skip | .fail => False
  | .turn _ n => pkgs.find? (matchesRequest n false) = some x
  | .add _ instd _ => x = instd

/-- Where a pattern finds a candidate, what goes is decided by the entry of its name. -/
theorem findsToGo_iff_found {instd : PkgDict} {inArray : Bool}
    (hf : FindsReplaced xhp pkgs pattern instd inArray n) (hother : pkgName e.pkgver ≠ some n) :
    FindsToGo xhp pkgs e pattern x ↔
      MarksPkg pkgs x (decideFound pkgs pattern instd inArray n) := by
  -- there is one candidate, so that it is the one in any derivation
  have huniq : ∀ {instd' : PkgDict} {inArray' : Bool} {n' : Str},
      FindsReplaced xhp pkgs pattern instd' inArray' n' → instd' = instd ∧ n' = n := by
    intro instd' inArray' n' hf'
    obtain ⟨rfl, -⟩ := Prod.mk.inj (Option.some.inj (hf'.candidate.symm.trans hf.candidate))
    exact ⟨rfl, Option.some.inj (hf'.name.symm.trans hf.name)⟩
  rw [decideFound]
  cases hs : pkgs.find? (matchesRequest n false) with
  | none =>
    constructor
    · intro h
      cases h with
      | package hf' _ _ => exact (huniq hf').1
      | entry hf' _ hsome _ _ _ =>
        rw [(huniq hf').2, hs] at hsome
        cases hsome
    · rintro rfl
      exact .package hf hother hs
  | some rep =>
    have hentry : FindsToGo xhp pkgs e pattern x → x = rep ∧ rep.transaction ≠ .remove ∧
        rep.transaction ≠ .hold ∧ (matchVirtualPkgInDict rep pattern = true ∨
          pkgpatternMatch rep.pkgver pattern = true) := by
      intro h
      cases h with
      | package hf' _ hnone =>
        rw [(huniq hf').2, hs] at hnone
        cases hnone
      | entry hf' _ hsome hremove hhold hmatch =>
        rw [(huniq hf').2, hs] at hsome
        obtain rfl := Option.some.inj hsome
        exact ⟨rfl, hremove, hhold, hmatch⟩
    simp only
    by_cases ht : rep.transaction = .remove ∨ rep.transaction = .hold
    · rw [if_pos ht]
      exact ⟨fun h => absurd ht (not_or.mpr ⟨(hentry h).2.1, (hentry h).2.2.1⟩), fun h => h.elim⟩
    · rw [if_neg ht]
      by_cases hm : matchVirtualPkgInDict rep pattern = false ∧
          pkgpatternMatch rep.pkgver pattern = false
      · rw [if_pos hm]
        refine ⟨fun h => ?_, fun h => h.elim⟩
        have hmatch := (hentry h).2.2.2
        rw [hm.1, hm.2] at hmatch
        simp at hmatch
      · rw [if_neg hm]
        rw [not_and_or, Bool.not_eq_false, Bool.not_eq_false] at hm
        refine ⟨fun h => ?_, fun h => ?_⟩
        · rw [(hentry h).1]
          exact hs
        · obtain rfl := Option.some.inj (hs.symm.trans h)
          exact .entry hf hother hs (not_or.mp ht).1 (not_or.mp ht).2 hm

/-- What a pattern finds to go is what the decision about it marks. -/
theorem findsToGo_iff :
    FindsToGo xhp pkgs e pattern x ↔ MarksPkg pkgs x (replaceAction xhp pkgs e pattern) := by
  by_cases hfound : ∃ instd inArray n, FindsReplaced xhp pkgs pattern instd inArray n ∧
      pkgName e.pkgver ≠ some n
  · obtain ⟨instd, inArray, n, hf, hother⟩ := hfound
    rw [replaceAction_found hf hother]
    exact findsToGo_iff_found hf hother
  · have hnone : ∀ instd inArray n, FindsReplaced xhp pkgs pattern instd inArray n →
        pkgName e.pkgver = some n := by
      intro instd inArray n hf
      by_contra hother
      exact hfound ⟨instd, inArray, n, hf, hother⟩
    have hno : ¬FindsToGo xhp pkgs e pattern x := by
      intro h
      cases h with
      | package hf hother _ => exact hother (hnone _ _ _ hf)
      | entry hf hother _ _ _ _ => exact hother (hnone _ _ _ hf)
    rcases replaceAction_not_found hnone with h | h
    · rw [h]
      exact ⟨hno, fun h => h.elim⟩
    · rw [h]
      exact ⟨hno, fun h => h.elim⟩

/-! ### The array as it is -/

/-- Up to `automatic-install` the entry is the one it was, or that one marked; what is marked
answers to a pattern of an entry that is installed, and is the first of its name. -/
def Shown (pkgs₀ : List PkgDict) (y x : PkgDict) : Prop :=
  dropAutomaticInstall x = dropAutomaticInstall y ∨
    (dropAutomaticInstall x = dropAutomaticInstall (markReplaced y) ∧ AnswersInstall pkgs₀ y ∧
      ∃ n, pkgName y.pkgver = some n ∧ pkgs₀.find? (matchesRequest n false) = some y)

/-- A package that was added: it is installed, answers to a pattern of an entry that is
installed, and the transaction has no entry of its name. -/
structure InFront (xhp : Handle) (pkgs₀ : List PkgDict) (d : PkgDict) : Prop where
  installed : d ∈ xhp.pkgdb.values
  answers : AnswersInstall pkgs₀ d
  alone : ∀ n, pkgName d.pkgver = some n → pkgs₀.find? (matchesRequest n false) = none

/-- The array after some steps of the pass. -/
structure ArrayOk (xhp : Handle) (pkgs₀ front pkgs : List PkgDict) : Prop where
  shown : List.Forall₂ (Shown pkgs₀) (withFront pkgs₀ front) pkgs
  front : ∀ d ∈ front, InFront xhp pkgs₀ d

/-- What a mark and `automatic-install` do not show in. -/
def bare (d : PkgDict) : PkgDict :=
  { d with automaticInstall := none, transaction := .unknown, replaced := none }

theorem Shown.bare_eq (h : Shown pkgs₀ y x) : bare x = bare y := by
  have hdrop : ∀ d, bare (dropAutomaticInstall d) = bare d := fun _ => rfl
  have hmark : ∀ d, bare (markReplaced d) = bare d := fun _ => rfl
  rcases h with h | ⟨h, -, -⟩
  · rw [← hdrop x, h, hdrop]
  · rw [← hdrop x, h, hdrop, hmark]

theorem Shown.pkgver (h : Shown pkgs₀ y x) : x.pkgver = y.pkgver := by
  have hver := congrArg PkgDict.pkgver h.bare_eq
  exact hver

theorem Shown.provides (h : Shown pkgs₀ y x) : x.provides = y.provides := by
  have hprov := congrArg PkgDict.provides h.bare_eq
  exact hprov

theorem transaction_of_drop (h : dropAutomaticInstall x = dropAutomaticInstall y) :
    x.transaction = y.transaction := by
  have ht := congrArg PkgDict.transaction h
  exact ht

theorem Shown.refl (pkgs₀ : List PkgDict) (y : PkgDict) : Shown pkgs₀ y y := Or.inl rfl

theorem Shown.drop (h : Shown pkgs₀ y x) : Shown pkgs₀ y (dropAutomaticInstall x) :=
  h.imp id (And.imp id id)

theorem matchesRequest_shown (str : Str) :
    ∀ y x, Shown pkgs₀ y x → matchesRequest str false y = matchesRequest str false x := by
  intro y x h
  rw [matchesRequest, matchesRequest, h.pkgver]
  rfl

theorem ArrayOk.refl (xhp : Handle) (pkgs₀ : List PkgDict) : ArrayOk xhp pkgs₀ [] pkgs₀ :=
  ⟨List.forall₂_same.mpr fun y _ => Shown.refl pkgs₀ y, fun d h => by cases h⟩

theorem ArrayOk.dropAt (h : ArrayOk xhp pkgs₀ front pkgs) (pos : Nat) (drop : Bool) :
    ArrayOk xhp pkgs₀ front (dropAt pkgs pos drop) := by
  cases drop with
  | false => exact h
  | true => exact ⟨forall₂_modify h.shown fun _ _ _ _ hs => hs.drop, h.front⟩

theorem ArrayOk.cons (h : ArrayOk xhp pkgs₀ front pkgs) {d : PkgDict} (hd : InFront xhp pkgs₀ d) :
    ArrayOk xhp pkgs₀ (d :: front) (markReplaced d :: pkgs) :=
  ⟨.cons (Shown.refl pkgs₀ _) h.shown, List.forall_mem_cons.mpr ⟨hd, h.front⟩⟩

theorem ArrayOk.find? (h : ArrayOk xhp pkgs₀ front pkgs) (str : Str) :
    ((withFront pkgs₀ front).find? (matchesRequest str false) = none ∧
        pkgs.find? (matchesRequest str false) = none) ∨
      ∃ y x, (withFront pkgs₀ front).find? (matchesRequest str false) = some y ∧
        pkgs.find? (matchesRequest str false) = some x ∧ Shown pkgs₀ y x :=
  forall₂_find? h.shown (matchesRequest_shown str)

/-- The entry of a name, in the array as it was, is there behind what was added. -/
theorem ArrayOk.find?_withFront (h : ArrayOk xhp pkgs₀ front pkgs) (hplain : request n = .pkgname)
    (hy : pkgs₀.find? (matchesRequest n false) = some y) :
    (withFront pkgs₀ front).find? (matchesRequest n false) = some y := by
  rw [withFront, List.find?_append, List.find?_eq_none.mpr, Option.none_or, hy]
  intro z hz hmatch
  obtain ⟨d, hd, rfl⟩ := List.mem_map.mp hz
  rw [matchesRequest, if_neg (by simp), hplain] at hmatch
  rw [(h.front d hd).alone n (of_decide_eq_true hmatch)] at hy
  cases hy

/-- An entry that is no removal was there at the beginning. -/
theorem find?_of_withFront (hy : (withFront pkgs₀ front).find? (matchesRequest n false) = some y)
    (ht : y.transaction ≠ .remove) : pkgs₀.find? (matchesRequest n false) = some y := by
  rw [withFront, List.find?_append, Option.or_eq_some_iff] at hy
  rcases hy with hy | ⟨-, hy⟩
  · obtain ⟨d, -, rfl⟩ := List.mem_map.mp (List.mem_of_find?_eq_some hy)
    exact absurd rfl ht
  · exact hy

theorem GoByNames.installed (h : GoByNames xhp pkgs₀) {d : PkgDict} (hd : d ∈ xhp.pkgdb.values) :
    ∃ n, pkgName d.pkgver = some n ∧ request n = .pkgname ∧ NameOk d := by
  obtain ⟨e, he, rfl⟩ := List.mem_map.mp hd
  exact ⟨e.1, h.keys e he, h.plain e he, h.stored e he⟩

theorem ArrayOk.named (hnames : GoByNames xhp pkgs₀) (h : ArrayOk xhp pkgs₀ front pkgs)
    (hy : y ∈ withFront pkgs₀ front) :
    ∃ n, pkgName y.pkgver = some n ∧ request n = .pkgname ∧ NameOk y := by
  rcases List.mem_append.mp hy with hy | hy
  · obtain ⟨d, hd, hdy⟩ := List.mem_map.mp hy
    obtain ⟨n, hn, hplain, hok⟩ := hnames.installed (h.front d hd).installed
    rw [← hdy]
    exact ⟨n, hn, hplain, hok⟩
  · obtain ⟨n, hn, hver, hplain⟩ := hnames.entries y hy
    refine ⟨n, hver, hplain, fun m hm => ?_⟩
    rw [← hm.symm.trans hn |> Option.some.inj] at hver
    exact hver

/-- A decision about the array as it was, and the one about the array as it is. -/
inductive Follows (xhp : Handle) (pkgs₀ front pkgs : List PkgDict) :
    ReplaceAction → ReplaceAction → Prop
  | skip : Follows xhp pkgs₀ front pkgs .skip .skip
  | turn {a a' : Bool} {n : Str} {y x : PkgDict} : request n = .pkgname →
      (withFront pkgs₀ front).find? (matchesRequest n false) = some y →
      pkgs.find? (matchesRequest n false) = some x →
      dropAutomaticInstall x = dropAutomaticInstall y → y.transaction ≠ .remove →
      Follows xhp pkgs₀ front pkgs (.turn a n) (.turn a' n)
  /-- The entry has been marked before. -/
  | marked {a : Bool} {n : Str} {y : PkgDict} :
      (withFront pkgs₀ front).find? (matchesRequest n false) = some y → AnswersInstall pkgs₀ y →
      Follows xhp pkgs₀ front pkgs (.turn a n) .skip
  | add {a : Bool} {n : Str} {instd : PkgDict} : instd ∈ xhp.pkgdb.values →
      pkgName instd.pkgver = some n → request n = .pkgname →
      (withFront pkgs₀ front).find? (matchesRequest n false) = none →
      Follows xhp pkgs₀ front pkgs (.add a instd false) (.add a instd false)

/-- The decision about a package that is the same in both arrays, up to `automatic-install`. -/
theorem decideFound_follows (h : ArrayOk xhp pkgs₀ front pkgs) {instd instd' : PkgDict}
    {inArray : Bool} (hplain : request n = .pkgname)
    (hadd : (withFront pkgs₀ front).find? (matchesRequest n false) = none →
      inArray = false ∧ instd' = instd ∧ instd ∈ xhp.pkgdb.values ∧
        pkgName instd.pkgver = some n) :
    Follows xhp pkgs₀ front pkgs (decideFound (withFront pkgs₀ front) pattern instd inArray n)
      (decideFound pkgs pattern instd' inArray n) := by
  rw [decideFound, decideFound]
  obtain ⟨hy, hx⟩ | ⟨y, x, hy, hx, hs⟩ := h.find? n
  · -- neither array has an entry: both add one
    obtain ⟨rfl, rfl, hmem, hname⟩ := hadd hy
    rw [hy, hx]
    exact .add hmem hname hplain hy
  · rw [hy, hx]
    simp only
    -- the two entries differ in the transaction and the mode at most
    have hmatch : (matchVirtualPkgInDict x pattern = false ∧
        pkgpatternMatch x.pkgver pattern = false) ↔
        (matchVirtualPkgInDict y pattern = false ∧ pkgpatternMatch y.pkgver pattern = false) := by
      rw [matchVirtualPkgInDict, matchVirtualPkgInDict, hs.provides, hs.pkgver]
    by_cases ht : y.transaction = .remove ∨ y.transaction = .hold
    · rw [if_pos ht]
      have ht' : x.transaction = .remove ∨ x.transaction = .hold := by
        rcases hs with hs | ⟨hs, -, -⟩
        · rwa [transaction_of_drop hs]
        · exact Or.inl (transaction_of_drop hs)
      rw [if_pos ht']
      exact .skip
    · rw [if_neg ht]
      rcases hs with hs | ⟨hs, hans, -⟩
      · have htx : ¬(x.transaction = .remove ∨ x.transaction = .hold) := by
          rwa [transaction_of_drop hs]
        rw [if_neg htx]
        by_cases hm : matchVirtualPkgInDict y pattern = false ∧
            pkgpatternMatch y.pkgver pattern = false
        · rw [if_pos hm, if_pos (hmatch.mpr hm)]
          exact .skip
        · rw [if_neg hm, if_neg fun hm' => hm (hmatch.mp hm')]
          exact .turn hplain hy hx hs (not_or.mp ht).1
      · -- the pass has already marked the entry
        have htx : x.transaction = .remove := transaction_of_drop hs
        rw [if_pos (Or.inl htx)]
        split
        · exact .skip
        · exact .marked hy hans

/-- What a pattern finds in both arrays: the same package, up to `automatic-install`, unless it
is an entry that has been marked. -/
theorem candidate_shown (h : ArrayOk xhp pkgs₀ front pkgs) (pattern : Str) :
    (replacedCandidate xhp (withFront pkgs₀ front) pattern = none ∧
      replacedCandidate xhp pkgs pattern = none) ∨
    (∃ d ∈ xhp.pkgdb.values,
      replacedCandidate xhp (withFront pkgs₀ front) pattern = some (d, false) ∧
      replacedCandidate xhp pkgs pattern = some (d, false)) ∨
    ∃ y ∈ withFront pkgs₀ front,
      replacedCandidate xhp (withFront pkgs₀ front) pattern = some (y, true) ∧
      ((∃ x, replacedCandidate xhp pkgs pattern = some (x, true) ∧
          dropAutomaticInstall x = dropAutomaticInstall y) ∨
        (replacedCandidate xhp pkgs pattern = none ∧ AnswersInstall pkgs₀ y ∧
          ∃ n, pkgName y.pkgver = some n ∧ pkgs₀.find? (matchesRequest n false) = some y)) := by
  rw [replacedCandidate, replacedCandidate]
  cases hdb : (pkgdbGetPkg xhp pattern).or (pkgdbGetVirtualpkg xhp pattern) with
  | some d =>
    -- the database answers first, and it is one for both arrays
    refine Or.inr (Or.inl ⟨d, ?_, rfl, rfl⟩)
    rcases Option.or_eq_some_iff.mp hdb with hd | ⟨-, hd⟩
    · exact findPkgInDict_mem hd
    · exact findVirtualpkgInDict_mem hd
  | none =>
    simp only [Option.map_none, Option.none_or]
    rw [findPkgInArray, findPkgInArray, getPkgInArray, getPkgInArray]
    obtain ⟨hy, hx⟩ | ⟨y, x, hy, hx, hs⟩ := h.find? pattern
    · rw [hy, hx]
      exact Or.inl ⟨rfl, rfl⟩
    · rw [hy, hx]
      simp only
      have hmem := List.mem_of_find?_eq_some hy
      by_cases ht : y.transaction = .install
      · -- the array answers, unless the pass has marked the entry since
        refine Or.inr (Or.inr ⟨y, hmem, by simp [ht], ?_⟩)
        rcases hs with hs | ⟨hs, hans, hfirst⟩
        · have htx := transaction_of_drop hs
          exact Or.inl ⟨x, by simp [htx, ht], hs⟩
        · have htx : x.transaction = .remove := transaction_of_drop hs
          exact Or.inr ⟨by simp [htx], hans, hfirst⟩
      · refine Or.inl ⟨by simp [ht], ?_⟩
        rcases hs with hs | ⟨hs, -, -⟩
        · have htx := transaction_of_drop hs
          simp [htx, ht]
        · have htx : x.transaction = .remove := transaction_of_drop hs
          simp [htx]

/-- **The decision about the array as it is** is the one about the array as it was, unless that
is about an entry that has been marked. -/
theorem replaceAction_follows (hnames : GoByNames xhp pkgs₀) (h : ArrayOk xhp pkgs₀ front pkgs)
    (hver : obj.pkgver = e.pkgver) (pattern : Str) :
    Follows xhp pkgs₀ front pkgs (replaceAction xhp (withFront pkgs₀ front) e pattern)
      (replaceAction xhp pkgs obj pattern) := by
  obtain ⟨hy, hx⟩ | ⟨d, hd, hy, hx⟩ | ⟨y, hmem, hy, hx⟩ := candidate_shown h pattern
  · have hnone : ∀ array : List PkgDict, replacedCandidate xhp array pattern = none →
        ∀ o, replaceAction xhp array o pattern = .skip := by
      intro array hc o
      rw [replaceAction, hc]
    rw [hnone _ hy, hnone _ hx]
    exact .skip
  · obtain ⟨n, hn, hplain, -⟩ := hnames.installed hd
    rw [replaceAction_candidate hy hn, replaceAction_candidate hx hn, hver]
    split
    · exact .skip
    · exact decideFound_follows h hplain fun _ => ⟨rfl, rfl, hd, hn⟩
  · obtain ⟨n, hn, hplain, -⟩ := h.named hnames hmem
    rw [replaceAction_candidate hy hn]
    rcases hx with ⟨x, hx, hdrop⟩ | ⟨hx, hans, m, hm, hfirst⟩
    · have hnx : pkgName x.pkgver = some n := by
        have hpv := congrArg PkgDict.pkgver hdrop
        rw [← hn]
        exact congrArg pkgName hpv
      have hhold : x.hold = y.hold := by
        have hh := congrArg PkgDict.hold hdrop
        exact hh
      rw [replaceAction_candidate hx hnx, hver, hhold]
      split
      · exact .skip
      · refine decideFound_follows h hplain fun hnone =>
          absurd ?_ (List.find?_eq_none.mp hnone y hmem)
        -- the entry answers to its own name
        rw [matchesRequest, if_neg (by simp), hplain]
        exact decide_eq_true hn
    · obtain rfl := Option.some.inj (hn.symm.trans hm)
      have hskip : replaceAction xhp pkgs obj pattern = .skip := by
        rw [replaceAction, hx]
      have hfind := h.find?_withFront hplain hfirst
      rw [hskip, decideFound, hfind]
      simp only
      split
      · exact .skip
      · split
        · exact .skip
        · split
          · exact .skip
          · exact .marked hfind hans

/-! ### Carrying it out -/

theorem set_eq_self {α : Type*} {l : List α} {i : Nat} {a : α} (h : l[i]? = some a) :
    l.set i a = l := by
  refine List.ext_getElem? fun j => ?_
  rw [List.getElem?_set]
  by_cases hij : i = j
  · subst hij
    obtain ⟨hi, -⟩ := List.getElem?_eq_some_iff.mp h
    rw [if_pos rfl, if_pos hi, h]
  · rw [if_neg hij]

/-- An entry of the array that has a `pkgname` is the first one of that name if it is the first
that answers to it. -/
theorem arrayReplaceDictByName_first {array : List PkgDict} (hok : ∀ x ∈ array, NameOk x)
    (hplain : request n = .pkgname)
    (hget : array[array.findIdx (matchesRequest n false)]? = some x) (hname : x.pkgname = some n) :
    arrayReplaceDictByName array x n = some array := by
  obtain ⟨hlt, hat⟩ := List.getElem?_eq_some_iff.mp hget
  have hidx : array.findIdx? (fun d => d.pkgname = some n) =
      some (array.findIdx (matchesRequest n false)) := by
    refine List.findIdx?_eq_some_iff_getElem.mpr ⟨hlt, by simpa [hat] using hname, ?_⟩
    intro j hj hmem
    have hjlt := Nat.lt_trans hj hlt
    -- an entry with this `pkgname` answers to the name
    have hver := hok _ (List.getElem_mem hjlt) n (by simpa using hmem)
    have hno := List.not_of_lt_findIdx hj
    rw [matchesRequest, if_neg (by simp), hplain] at hno
    exact of_decide_eq_false hno hver
  rw [arrayReplaceDictByName, hidx, Option.map_some, set_eq_self hget]

theorem ArrayOk.nameOk (hnames : GoByNames xhp pkgs₀) (h : ArrayOk xhp pkgs₀ front pkgs) :
    ∀ x ∈ pkgs, NameOk x := by
  intro x hx
  obtain ⟨i, hi⟩ := List.getElem?_of_mem hx
  obtain ⟨y, hy, hs⟩ := forall₂_getElem? h.shown hi
  obtain ⟨-, -, -, hok⟩ := h.named hnames (List.mem_of_getElem? hy)
  have hname : x.pkgname = y.pkgname := by
    have hn := congrArg PkgDict.pkgname hs.bare_eq
    exact hn
  intro n hn
  rw [hs.pkgver]
  exact hok n (hname ▸ hn)

/-- An entry is marked where it stands. -/
theorem applyReplace_turned (hnames : GoByNames xhp pkgs₀) (h : ArrayOk xhp pkgs₀ front pkgs)
    (hplain : request n = .pkgname)
    (hy : (withFront pkgs₀ front).find? (matchesRequest n false) = some y)
    (hx : pkgs.find? (matchesRequest n false) = some x)
    (hdrop : dropAutomaticInstall x = dropAutomaticInstall y) (ht : y.transaction ≠ .remove)
    (a : Bool) (pos : Nat) (obj : PkgDict) (pattern : Str) :
    applyReplace pkgs pos obj pattern (.turn a n) =
        (markFound (dropAt pkgs pos (!a)) n, pos, true) ∧
      ∃ x', (dropAt pkgs pos (!a))[(dropAt pkgs pos (!a)).findIdx (matchesRequest n false)]? =
        some x' ∧ dropAutomaticInstall x' = dropAutomaticInstall y := by
  have hq := h.dropAt pos (!a)
  -- where the entry stands after the drop
  obtain ⟨x', hx'⟩ : ∃ x', (dropAt pkgs pos (!a))[
      (dropAt pkgs pos (!a)).findIdx (matchesRequest n false)]? = some x' := by
    have hidx := forall₂_findIdx hq.shown (matchesRequest_shown n)
    obtain ⟨x', hx', -⟩ := getElem?_forall₂ hq.shown (getElem?_findIdx hy)
    exact ⟨x', hidx ▸ hx'⟩
  have hdrop' : dropAutomaticInstall x' = dropAutomaticInstall y := by
    rcases getElem?_findIdx_dropAt hx hx' with rfl | rfl
    · exact hdrop
    · exact hdrop
  refine ⟨?_, x', hx', hdrop'⟩
  have hmark : ∀ d, matchesRequest n false (markReplaced d) = matchesRequest n false d :=
    fun _ => rfl
  have hidx : (markFound (dropAt pkgs pos (!a)) n).findIdx (matchesRequest n false) =
      (dropAt pkgs pos (!a)).findIdx (matchesRequest n false) := findIdx_modify hmark _ _
  have hget : (markFound (dropAt pkgs pos (!a)) n)[
      (dropAt pkgs pos (!a)).findIdx (matchesRequest n false)]? = some (markReplaced x') := by
    rw [markFound, List.getElem?_modify, hx']
    simp
  have hok : ∀ z ∈ markFound (dropAt pkgs pos (!a)) n, NameOk z := by
    intro z hz
    rcases mem_modify hz with hz | ⟨w, hw, rfl⟩
    · exact hq.nameOk hnames z hz
    · exact hq.nameOk hnames w (List.mem_of_getElem? hw)
  have hname : (markReplaced x').pkgname = some n := by
    obtain ⟨m, hm, hver, -⟩ := hnames.entries y
      (List.mem_of_find?_eq_some (find?_of_withFront hy ht))
    have hmatch := List.find?_some hy
    rw [matchesRequest, if_neg (by simp), hplain] at hmatch
    have hnm := hver.symm.trans (of_decide_eq_true hmatch)
    have hpn := congrArg PkgDict.pkgname hdrop'
    exact (show x'.pkgname = y.pkgname from hpn).trans (hm.trans hnm)
  have hset := arrayReplaceDictByName_first hok hplain (hidx ▸ hget) hname
  have hauto : (if a = true then pkgs else pkgs.modify pos dropAutomaticInstall) =
      dropAt pkgs pos (!a) := by
    cases a with
    | true => rfl
    | false => rfl
  rw [applyReplace, hauto, ← markFound, hget]
  simp only
  rw [hset]

/-- The array after an entry that answers to a pattern of an installed one was marked. -/
theorem ArrayOk.markFound (h : ArrayOk xhp pkgs₀ front pkgs) (hplain : request n = .pkgname)
    (hy : (withFront pkgs₀ front).find? (matchesRequest n false) = some y)
    (ht : y.transaction ≠ .remove) (hans : AnswersInstall pkgs₀ y)
    (hx : pkgs[pkgs.findIdx (matchesRequest n false)]? = some x)
    (hdrop : dropAutomaticInstall x = dropAutomaticInstall y) :
    ArrayOk xhp pkgs₀ front (markFound pkgs n) := by
  have hmatch := List.find?_some hy
  rw [matchesRequest, if_neg (by simp), hplain] at hmatch
  refine ⟨forall₂_modify h.shown fun b z hb hz hs => ?_, h.front⟩
  -- the entry in the array as it was stands at the same place
  rw [← forall₂_findIdx h.shown (matchesRequest_shown n), getElem?_findIdx hy] at hb
  obtain rfl := Option.some.inj hb
  obtain rfl := Option.some.inj (hx.symm.trans hz)
  have hmark : dropAutomaticInstall (markReplaced x) =
      dropAutomaticInstall (markReplaced y) := by
    have hm := congrArg markReplaced hdrop
    exact hm
  exact Or.inr ⟨hmark, hans, n, of_decide_eq_true hmatch, find?_of_withFront hy ht⟩

/-- The packages in front after a decision. -/
def frontAfter (front : List PkgDict) : ReplaceAction → List PkgDict
  | .add _ instd _ => instd :: front
  | .skip | .fail | .turn _ _ => front

theorem putInFront_eq (xhp : Handle) (pkgs₀ front : List PkgDict) (e : PkgDict) (pattern : Str) :
    putInFront xhp pkgs₀ e front pattern =
      frontAfter front (replaceAction xhp (withFront pkgs₀ front) e pattern) := by
  rw [putInFront]
  cases replaceAction xhp (withFront pkgs₀ front) e pattern with
  | skip => rfl
  | fail => rfl
  | turn a n => rfl
  | add a instd inArray => rfl

/-- **Carrying a decision out** that marks what answers to a pattern of an installed entry. -/
theorem applyReplace_follows (hnames : GoByNames xhp pkgs₀) (h : ArrayOk xhp pkgs₀ front pkgs)
    {action action' : ReplaceAction} (hf : Follows xhp pkgs₀ front pkgs action action')
    (hgood : ∀ y, MarksPkg (withFront pkgs₀ front) y action → AnswersInstall pkgs₀ y) (pos : Nat)
    (obj : PkgDict) (pattern : Str) :
    ∃ pkgs', applyReplace pkgs pos obj pattern action' =
        (pkgs', pos + ((frontAfter front action).length - front.length), true) ∧
      ArrayOk xhp pkgs₀ (frontAfter front action) pkgs' := by
  cases hf with
  | skip => exact ⟨pkgs, by simp [applyReplace, frontAfter], h⟩
  | @turn a a' n y x hplain hy hx hdrop ht =>
    obtain ⟨happ, x', hx', hdrop'⟩ :=
      applyReplace_turned hnames h hplain hy hx hdrop ht a' pos obj pattern
    refine ⟨markFound (dropAt pkgs pos !a') n, by rw [happ]; simp [frontAfter], ?_⟩
    exact (h.dropAt pos _).markFound hplain hy ht (hgood y hy) hx' hdrop'
  | marked hy hans => exact ⟨pkgs, by simp [applyReplace, frontAfter], h⟩
  | @add a n instd hmem hname hplain hnone =>
    have hin : InFront xhp pkgs₀ instd := by
      refine ⟨hmem, hgood instd rfl, fun m hm => ?_⟩
      obtain rfl := Option.some.inj (hname.symm.trans hm)
      rw [withFront, List.find?_append, Option.or_eq_none_iff] at hnone
      exact hnone.2
    have hlen : (frontAfter front (.add a instd false)).length - front.length = 1 := by
      simp [frontAfter]
    by_cases hv : matchVirtualPkgInDict obj pattern = true ∧ a = false
    · refine ⟨markReplaced instd :: dropAt pkgs pos true, ?_, (h.dropAt pos true).cons hin⟩
      rw [hlen, applyReplace, if_pos hv]
      rfl
    · refine ⟨markReplaced instd :: pkgs, ?_, h.cons hin⟩
      rw [hlen, applyReplace, if_neg hv]
      rfl

theorem answersInstall_congr (hver : x.pkgver = y.pkgver) (hprov : x.provides = y.provides)
    (h : AnswersInstall pkgs₀ x) : AnswersInstall pkgs₀ y := by
  obtain ⟨r, hr, hu, pattern, hp, hans⟩ := h
  refine ⟨r, hr, hu, pattern, hp, ?_⟩
  rw [Answers, matchesRequest, matchVirtualPkgInDict, hver, hprov] at hans
  exact hans

theorem length_withFront (pkgs₀ front : List PkgDict) :
    (withFront pkgs₀ front).length = front.length + pkgs₀.length := by
  rw [withFront, List.length_append, List.length_map]

/-- Such an array is the old one with what was replaced. -/
theorem ArrayOk.replacedOk (h : ArrayOk xhp pkgs₀ front pkgs) : ReplacedOk pkgs₀ pkgs := by
  have hlen : pkgs.length = front.length + pkgs₀.length := by
    rw [← h.shown.length_eq, length_withFront]
  refine ⟨by omega, fun i x hi hx => ?_, fun i y hy => ?_⟩
  · obtain ⟨y, hy, hs⟩ := forall₂_getElem? h.shown hx
    rw [withFront, List.getElem?_append_left (by rw [List.length_map]; omega),
      List.getElem?_map, Option.map_eq_some_iff] at hy
    obtain ⟨d, hd, rfl⟩ := hy
    have ht : x.transaction = .remove := by
      rcases hs with hs | ⟨hs, -, -⟩
      · exact transaction_of_drop hs
      · exact transaction_of_drop hs
    exact ⟨ht, answersInstall_congr hs.pkgver.symm hs.provides.symm
      (h.front d (List.mem_of_getElem? hd)).answers⟩
  · have hy' : (withFront pkgs₀ front)[i + front.length]? = some y := by
      rw [withFront, List.getElem?_append_right (by rw [List.length_map]; omega), List.length_map,
        Nat.add_sub_cancel, hy]
    obtain ⟨x, hx, hs⟩ := getElem?_forall₂ h.shown hy'
    refine ⟨x, by rw [hlen, Nat.add_sub_cancel]; exact hx, ?_⟩
    rcases hs with hs | ⟨hs, hans, hfirst⟩
    · have hsame := congrArg (fun d => { d with automaticInstall := y.automaticInstall }) hs
      exact Or.inl hsame
    · have hs' : Shown pkgs₀ y x := Or.inr ⟨hs, hans, hfirst⟩
      exact Or.inr ⟨transaction_of_drop hs, answersInstall_congr hs'.pkgver.symm
        hs'.provides.symm hans⟩

theorem length_dropAt (pkgs : List PkgDict) (pos : Nat) (drop : Bool) :
    (dropAt pkgs pos drop).length = pkgs.length := by
  cases drop with
  | false => rfl
  | true => rw [dropAt, if_pos rfl, List.length_modify]

/-- An entry that is no removal stands behind what was added, where it stood at the beginning. -/
theorem getElem?_of_withFront {i : Nat} (h : (withFront pkgs₀ front)[i]? = some y)
    (ht : y.transaction ≠ .remove) : front.length ≤ i ∧ pkgs₀[i - front.length]? = some y := by
  have hfront : front.length ≤ i := by
    by_contra hlt
    rw [withFront, List.getElem?_append_left (by rw [List.length_map]; omega),
      List.getElem?_map, Option.map_eq_some_iff] at h
    obtain ⟨d, -, rfl⟩ := h
    exact ht rfl
  rw [withFront, List.getElem?_append_right (by rw [List.length_map]; exact hfront),
    List.length_map] at h
  exact ⟨hfront, h⟩

/-- An entry is marked that answers to no pattern of an installed one. -/
theorem markFound_foreign (h : ArrayOk xhp pkgs₀ front pkgs)
    (hy : (withFront pkgs₀ front).find? (matchesRequest n false) = some y)
    (ht : y.transaction ≠ .remove) (hbad : ¬AnswersInstall pkgs₀ y)
    (hx : pkgs[pkgs.findIdx (matchesRequest n false)]? = some x)
    (hdrop : dropAutomaticInstall x = dropAutomaticInstall y) :
    ¬ReplacedOk pkgs₀ (markFound pkgs n) := by
  intro hok
  have hlen : pkgs.length = front.length + pkgs₀.length := by
    rw [← h.shown.length_eq, length_withFront]
  have hidx := forall₂_findIdx h.shown (matchesRequest_shown n)
  have hyi := getElem?_findIdx hy
  rw [← hidx] at hx
  -- the place of the entry, in the array as it is and in the one as it was
  generalize (withFront pkgs₀ front).findIdx (matchesRequest n false) = i at hyi hx hidx
  obtain ⟨hfront, hyi⟩ := getElem?_of_withFront hyi ht
  obtain ⟨w, hw, hs⟩ := hok.kept _ _ hyi
  have hpos : i - front.length + ((markFound pkgs n).length - pkgs₀.length) = i := by
    rw [markFound, List.length_modify, hlen]
    omega
  have hmarked : (markFound pkgs n)[i]? = some (markReplaced x) := by
    rw [markFound, ← hidx, List.getElem?_modify, hx]
    simp
  rw [hpos, hmarked] at hw
  obtain rfl := Option.some.inj hw
  rcases hs with hs | ⟨-, hs⟩
  · have htr := congrArg PkgDict.transaction hs
    exact ht htr.symm
  · have hs' : Shown pkgs₀ y x := Or.inl hdrop
    exact hbad (answersInstall_congr hs'.pkgver hs'.provides hs)

/-- A decision that marks what answers to no such pattern leaves it marked. -/
theorem applyReplace_foreign (hnames : GoByNames xhp pkgs₀) (h : ArrayOk xhp pkgs₀ front pkgs)
    {action action' : ReplaceAction} (hf : Follows xhp pkgs₀ front pkgs action action')
    (hy : MarksPkg (withFront pkgs₀ front) y action) (hbad : ¬AnswersInstall pkgs₀ y)
    (pos : Nat) (obj : PkgDict) (pattern : Str) :
    ¬ReplacedOk pkgs₀ (applyReplace pkgs pos obj pattern action').1 := by
  cases hf with
  | skip => exact fun _ => hy
  | @turn a a' n z x hplain hz hx hdrop ht =>
    obtain rfl := Option.some.inj (hy.symm.trans hz)
    obtain ⟨happ, x', hx', hdrop'⟩ :=
      applyReplace_turned hnames h hplain hz hx hdrop ht a' pos obj pattern
    rw [happ]
    exact markFound_foreign (h.dropAt pos _) hz ht hbad hx' hdrop'
  | marked hz hans =>
    obtain rfl := Option.some.inj (hy.symm.trans hz)
    exact fun _ => hbad hans
  | @add a n instd hmem hname hplain hnone =>
    obtain rfl : y = instd := hy
    have hadded : ∀ drop, ¬ReplacedOk pkgs₀ (markReplaced y :: dropAt pkgs pos drop) := by
      intro drop hok
      have hlen := h.shown.length_eq
      rw [length_withFront] at hlen
      obtain ⟨-, hans⟩ := hok.added 0 (markReplaced y)
        (by rw [List.length_cons, length_dropAt]; omega) rfl
      exact hbad hans
    by_cases hv : matchVirtualPkgInDict obj pattern = true ∧ a = false
    · rw [applyReplace, if_pos hv]
      exact hadded true
    · rw [applyReplace, if_neg hv]
      exact hadded false

/-! ### The walk -/

/-- A pattern puts something in front, or nothing. -/
theorem foldl_putInFront (xhp : Handle) (pkgs₀ : List PkgDict) (e : PkgDict) :
    ∀ (before : List Str) (front : List PkgDict),
      ∃ new, before.foldl (putInFront xhp pkgs₀ e) front = new ++ front := by
  intro before
  induction before with
  | nil => exact fun front => ⟨[], rfl⟩
  | cons pattern before ih =>
    intro front
    obtain ⟨new, hnew⟩ := ih (putInFront xhp pkgs₀ e front pattern)
    rw [List.foldl_cons, hnew, putInFront]
    split
    · next instd _ _ => exact ⟨new ++ [instd], by rw [List.append_assoc, List.singleton_append]⟩
    · exact ⟨new, rfl⟩

/-- The entry at an index moves by what is put in front. -/
theorem getElem?_withFront {i : Nat} {new : List PkgDict}
    (h : (withFront pkgs₀ front)[i]? = some e) :
    (withFront pkgs₀ (new ++ front))[i + ((new ++ front).length - front.length)]? = some e := by
  have hlen : i + ((new ++ front).length - front.length) = i + new.length := by
    rw [List.length_append, Nat.add_sub_cancel]
  rw [hlen, withFront, List.map_append, List.append_assoc,
    List.getElem?_append_right (by rw [List.length_map]; omega), List.length_map,
    Nat.add_sub_cancel]
  exact h

/-- The pass is at a pattern of `e`, the one it came to at index `i`. -/
structure AtPattern (xhp : Handle) (pkgs₀ : List PkgDict) (i : Nat) (e : PkgDict)
    (before rest : List Str) (pkgs : List PkgDict) : Prop where
  entry : (withFront pkgs₀ (frontAt xhp pkgs₀ i))[i]? = some e
  patterns : e.replaces.getD [] = before ++ rest
  array : ArrayOk xhp pkgs₀ (before.foldl (putInFront xhp pkgs₀ e) (frontAt xhp pkgs₀ i)) pkgs

/-- Where the entry stands by then. -/
def visitPos (xhp : Handle) (pkgs₀ : List PkgDict) (i : Nat) (e : PkgDict) (before : List Str) :
    Nat :=
  i + ((before.foldl (putInFront xhp pkgs₀ e) (frontAt xhp pkgs₀ i)).length -
    (frontAt xhp pkgs₀ i).length)

variable {i : Nat} {before rest : List Str}

/-- What stands there is the entry, up to a mark and `automatic-install`. -/
theorem AtPattern.exists_obj (h : AtPattern xhp pkgs₀ i e before rest pkgs) :
    ∃ obj, pkgs[visitPos xhp pkgs₀ i e before]? = some obj ∧ Shown pkgs₀ e obj := by
  obtain ⟨new, hnew⟩ := foldl_putInFront xhp pkgs₀ e before (frontAt xhp pkgs₀ i)
  refine getElem?_forall₂ h.array.shown ?_
  rw [visitPos, hnew]
  exact getElem?_withFront h.entry

/-- The state of the walk there. -/
def visitState (xhp : Handle) (pkgs₀ : List PkgDict) (i : Nat) (e : PkgDict)
    (before rest : List Str) (pkgs : List PkgDict) : Walk :=
  { pkgs := pkgs, i := i, visit := some (visitPos xhp pkgs₀ i e before, rest) }

/-- One pattern: the walk comes to the next one, if what is found answers to a pattern of an
installed entry. -/
theorem AtPattern.step (hnames : GoByNames xhp pkgs₀)
    (h : AtPattern xhp pkgs₀ i e before (pattern :: rest) pkgs)
    (hgood : ∀ x, FindsToGo xhp
      (withFront pkgs₀ (before.foldl (putInFront xhp pkgs₀ e) (frontAt xhp pkgs₀ i))) e pattern x →
        AnswersInstall pkgs₀ x) :
    ∃ pkgs', (visitState xhp pkgs₀ i e before (pattern :: rest) pkgs).step xhp =
        some (visitState xhp pkgs₀ i e (before ++ [pattern]) rest pkgs') ∧
      AtPattern xhp pkgs₀ i e (before ++ [pattern]) rest pkgs' := by
  obtain ⟨obj, hobj, hs⟩ := h.exists_obj
  have hf := replaceAction_follows hnames h.array hs.pkgver pattern
  obtain ⟨pkgs', happ, harray⟩ := applyReplace_follows hnames h.array hf
    (fun y hy => hgood y (findsToGo_iff.mpr hy)) (visitPos xhp pkgs₀ i e before) obj pattern
  have hfront : (before ++ [pattern]).foldl (putInFront xhp pkgs₀ e) (frontAt xhp pkgs₀ i) =
      frontAfter (before.foldl (putInFront xhp pkgs₀ e) (frontAt xhp pkgs₀ i))
        (replaceAction xhp (withFront pkgs₀
          (before.foldl (putInFront xhp pkgs₀ e) (frontAt xhp pkgs₀ i))) e pattern) := by
    rw [List.foldl_append, List.foldl_cons, List.foldl_nil, putInFront_eq]
  rw [← hfront] at happ harray
  refine ⟨pkgs', ?_, h.entry, ?_, harray⟩
  · have hpos : visitPos xhp pkgs₀ i e before +
        (((before ++ [pattern]).foldl (putInFront xhp pkgs₀ e) (frontAt xhp pkgs₀ i)).length -
          (before.foldl (putInFront xhp pkgs₀ e) (frontAt xhp pkgs₀ i)).length) =
        visitPos xhp pkgs₀ i e (before ++ [pattern]) := by
      obtain ⟨new, hnew⟩ := foldl_putInFront xhp pkgs₀ e before (frontAt xhp pkgs₀ i)
      obtain ⟨more, hmore⟩ := foldl_putInFront xhp pkgs₀ e [pattern]
        (before.foldl (putInFront xhp pkgs₀ e) (frontAt xhp pkgs₀ i))
      rw [visitPos, visitPos, List.foldl_append, hmore, hnew]
      simp only [List.length_append]
      omega
    rw [hpos] at happ
    rw [visitState, Walk.step]
    simp only [hobj, happ, Option.isSome_none, Bool.false_eq_true, if_false]
    rfl
  · rw [h.patterns, List.append_assoc, List.singleton_append]

/-- A pattern that finds anything else: the array is no longer the old one with what was
replaced. -/
theorem AtPattern.foreign (hnames : GoByNames xhp pkgs₀)
    (h : AtPattern xhp pkgs₀ i e before (pattern :: rest) pkgs)
    (hx : FindsToGo xhp
      (withFront pkgs₀ (before.foldl (putInFront xhp pkgs₀ e) (frontAt xhp pkgs₀ i))) e pattern x)
    (hbad : ¬AnswersInstall pkgs₀ x) :
    ∃ w, (visitState xhp pkgs₀ i e before (pattern :: rest) pkgs).step xhp = some w ∧
      ¬ReplacedOk pkgs₀ w.pkgs := by
  obtain ⟨obj, hobj, hs⟩ := h.exists_obj
  have hf := replaceAction_follows hnames h.array hs.pkgver pattern
  have hno := applyReplace_foreign hnames h.array hf (findsToGo_iff.mp hx) hbad
    (visitPos xhp pkgs₀ i e before) obj pattern
  rw [visitState, Walk.step]
  simp only [hobj, Option.isSome_none, Bool.false_eq_true, if_false]
  generalize applyReplace pkgs (visitPos xhp pkgs₀ i e before) obj pattern
    (replaceAction xhp pkgs obj pattern) = res at hno
  obtain ⟨pkgs', pos', goes⟩ := res
  cases goes with
  | true => exact ⟨_, rfl, hno⟩
  | false => exact ⟨_, rfl, hno⟩

/-- The pass between two entries, or at one, or at its end. -/
inductive InPass (xhp : Handle) (pkgs₀ : List PkgDict) : Walk → Prop
  | between {i : Nat} {pkgs : List PkgDict} :
      ArrayOk xhp pkgs₀ (frontAt xhp pkgs₀ i) pkgs → InPass xhp pkgs₀ { pkgs, i }
  | visiting {i : Nat} {e : PkgDict} {before rest : List Str} {pkgs : List PkgDict} :
      AtPattern xhp pkgs₀ i e before rest pkgs →
      InPass xhp pkgs₀ (visitState xhp pkgs₀ i e before rest pkgs)
  | ended {w : Walk} {front : List PkgDict} :
      w.done.isSome → ArrayOk xhp pkgs₀ front w.pkgs → InPass xhp pkgs₀ w

theorem InPass.replacedOk {w : Walk} (h : InPass xhp pkgs₀ w) : ReplacedOk pkgs₀ w.pkgs := by
  cases h with
  | between h => exact h.replacedOk
  | visiting h => exact h.array.replacedOk
  | ended _ h => exact h.replacedOk

theorem frontAt_succ (h : (withFront pkgs₀ (frontAt xhp pkgs₀ i))[i]? = some e) :
    frontAt xhp pkgs₀ (i + 1) =
      (e.replaces.getD []).foldl (putInFront xhp pkgs₀ e) (frontAt xhp pkgs₀ i) := by
  rw [frontAt, h]

/-- The pass comes to an entry: it passes over it, or starts on its patterns. -/
theorem step_between (hnames : GoByNames xhp pkgs₀)
    (h : ArrayOk xhp pkgs₀ (frontAt xhp pkgs₀ i) pkgs)
    (he : (withFront pkgs₀ (frontAt xhp pkgs₀ i))[i]? = some e) :
    (e.replaces.getD [] = [] ∧ ({ pkgs, i } : Walk).step xhp = some { pkgs, i := i + 1 } ∧
      ArrayOk xhp pkgs₀ (frontAt xhp pkgs₀ (i + 1)) pkgs) ∨
    (({ pkgs, i } : Walk).step xhp =
        some (visitState xhp pkgs₀ i e [] (e.replaces.getD []) pkgs) ∧
      AtPattern xhp pkgs₀ i e [] (e.replaces.getD []) pkgs) := by
  obtain ⟨obj, hobj, hs⟩ := getElem?_forall₂ h.shown he
  have hreplaces : obj.replaces = e.replaces := by
    have hr := congrArg PkgDict.replaces hs.bare_eq
    exact hr
  obtain ⟨n, hn, -, -⟩ := h.named hnames (List.mem_of_getElem? he)
  rw [Walk.step]
  simp only [hobj, hreplaces, hs.pkgver, hn, Option.isSome_none, Bool.false_eq_true, if_false,
    Option.isNone_some]
  by_cases hnil : e.replaces.getD [] = []
  · refine Or.inl ⟨hnil, by rw [if_pos hnil], ?_⟩
    rw [frontAt_succ he, hnil]
    exact h
  · refine Or.inr ⟨?_, he, rfl, h⟩
    rw [if_neg hnil, visitState, visitPos, List.foldl_nil, Nat.sub_self, Nat.add_zero]

/-- The pass is through with the patterns of an entry. -/
theorem AtPattern.step_nil (h : AtPattern xhp pkgs₀ i e before [] pkgs) :
    (visitState xhp pkgs₀ i e before [] pkgs).step xhp = some { pkgs, i := i + 1 } ∧
      ArrayOk xhp pkgs₀ (frontAt xhp pkgs₀ (i + 1)) pkgs := by
  refine ⟨rfl, ?_⟩
  rw [frontAt_succ h.entry, h.patterns, List.append_nil]
  exact h.array

/-- What every pattern that the pass comes to finds answers to a pattern of an installed
entry. -/
def AllAnswer (xhp : Handle) (pkgs₀ : List PkgDict) : Prop :=
  ∀ e pattern front, ComesTo xhp pkgs₀ e pattern front →
    ∀ x, FindsToGo xhp (withFront pkgs₀ front) e pattern x → AnswersInstall pkgs₀ x

/-- One step of the pass. -/
theorem InPass.step (hnames : GoByNames xhp pkgs₀) (hall : AllAnswer xhp pkgs₀) {w w' : Walk}
    (h : InPass xhp pkgs₀ w) (hstep : w.step xhp = some w') : InPass xhp pkgs₀ w' := by
  cases h with
  | @between i pkgs h =>
    cases he : (withFront pkgs₀ (frontAt xhp pkgs₀ i))[i]? with
    | none =>
      have hnone : pkgs[i]? = none := by
        rw [List.getElem?_eq_none_iff] at he ⊢
        rwa [← h.shown.length_eq]
      rw [Walk.step] at hstep
      simp only [hnone, Option.isSome_none, Bool.false_eq_true, if_false] at hstep
      rw [← Option.some.inj hstep]
      exact .ended rfl h
    | some e =>
      rcases step_between hnames h he with ⟨-, hs, h'⟩ | ⟨hs, h'⟩
      · rw [← Option.some.inj (hs.symm.trans hstep)]
        exact .between h'
      · rw [← Option.some.inj (hs.symm.trans hstep)]
        exact .visiting h'
  | @visiting i e before rest pkgs h =>
    cases rest with
    | nil =>
      obtain ⟨hs, h'⟩ := h.step_nil
      rw [← Option.some.inj (hs.symm.trans hstep)]
      exact .between h'
    | cons pattern rest =>
      obtain ⟨pkgs', hs, h'⟩ := h.step hnames
        (hall e pattern _ ⟨i, before, rest, h.entry, h.patterns, rfl⟩)
      rw [← Option.some.inj (hs.symm.trans hstep)]
      exact .visiting h'
  | ended hdone h =>
    rw [Walk.step, if_pos hdone] at hstep
    cases hstep

/-- Every run. -/
theorem inPass_run (hnames : GoByNames xhp pkgs₀) (hall : AllAnswer xhp pkgs₀) :
    ∀ n, InPass xhp pkgs₀ (Walk.run xhp n { pkgs := pkgs₀ }) := by
  intro n
  induction n with
  | zero => exact .between (ArrayOk.refl xhp pkgs₀)
  | succ n ih =>
    rw [Walk.run_succ]
    cases hs : (Walk.run xhp n { pkgs := pkgs₀ }).step xhp with
    | none => exact ih
    | some w => exact ih.step hnames hall hs

/-! ### What a run comes to -/

theorem run_step {w w₁ w₂ : Walk} {n : Nat} (h : w.run xhp n = w₁) (hs : w₁.step xhp = some w₂) :
    w.run xhp (n + 1) = w₂ := by
  rw [Walk.run_succ, h, hs]
  rfl

/-- As long as the array is the old one with what was replaced, the pass goes on with the patterns
of an entry. -/
theorem exists_run_visiting (hnames : GoByNames xhp pkgs₀)
    (hok : ∀ n, ReplacedOk pkgs₀ (Walk.run xhp n { pkgs := pkgs₀ }).pkgs)
    (hstart : ∃ n pkgs, Walk.run xhp n { pkgs := pkgs₀ } =
        visitState xhp pkgs₀ i e [] (e.replaces.getD []) pkgs ∧
      AtPattern xhp pkgs₀ i e [] (e.replaces.getD []) pkgs) :
    ∀ before rest, e.replaces.getD [] = before ++ rest →
      ∃ n pkgs, Walk.run xhp n { pkgs := pkgs₀ } = visitState xhp pkgs₀ i e before rest pkgs ∧
        AtPattern xhp pkgs₀ i e before rest pkgs := by
  intro before
  induction before using List.reverseRecOn with
  | nil =>
    intro rest hrest
    rw [List.nil_append] at hrest
    rw [← hrest]
    exact hstart
  | append_singleton before pattern ih =>
    intro rest hrest
    rw [List.append_assoc, List.singleton_append] at hrest
    obtain ⟨n, pkgs, hrun, hv⟩ := ih (pattern :: rest) hrest
    have hgood : ∀ x, FindsToGo xhp
        (withFront pkgs₀ (before.foldl (putInFront xhp pkgs₀ e) (frontAt xhp pkgs₀ i)))
          e pattern x → AnswersInstall pkgs₀ x := by
      intro x hx
      by_contra hbad
      obtain ⟨w, hs, hno⟩ := hv.foreign hnames hx hbad
      refine hno ?_
      rw [← run_step hrun hs]
      exact hok (n + 1)
    obtain ⟨pkgs', hs, hv'⟩ := hv.step hnames hgood
    exact ⟨n + 1, pkgs', run_step hrun hs, hv'⟩

/-- It comes to every index up to the end of the array. -/
theorem exists_run_between (hnames : GoByNames xhp pkgs₀)
    (hok : ∀ n, ReplacedOk pkgs₀ (Walk.run xhp n { pkgs := pkgs₀ }).pkgs) :
    ∀ i, (∀ j < i, (withFront pkgs₀ (frontAt xhp pkgs₀ j))[j]?.isSome) →
      ∃ n pkgs, Walk.run xhp n { pkgs := pkgs₀ } = { pkgs, i } ∧
        ArrayOk xhp pkgs₀ (frontAt xhp pkgs₀ i) pkgs := by
  intro i
  induction i with
  | zero => exact fun _ => ⟨0, pkgs₀, rfl, ArrayOk.refl xhp pkgs₀⟩
  | succ i ih =>
    intro hsome
    obtain ⟨n, pkgs, hrun, h⟩ := ih fun j hj => hsome j (Nat.lt_succ_of_lt hj)
    obtain ⟨e, he⟩ := Option.isSome_iff_exists.mp (hsome i (Nat.lt_succ_self i))
    rcases step_between hnames h he with ⟨-, hs, h'⟩ | ⟨hs, h'⟩
    · exact ⟨n + 1, pkgs, run_step hrun hs, h'⟩
    · obtain ⟨m, pkgs', hrun', hv⟩ := exists_run_visiting hnames hok
        ⟨n + 1, pkgs, run_step hrun hs, h'⟩ (e.replaces.getD []) [] (List.append_nil _).symm
      obtain ⟨hs', h''⟩ := hv.step_nil
      exact ⟨m + 1, pkgs', run_step hrun' hs', h''⟩

/-- The end of the array is the end of the walk. -/
theorem frontAt_of_end {j : Nat}
    (h : (withFront pkgs₀ (frontAt xhp pkgs₀ j))[j]? = none) :
    ∀ k, frontAt xhp pkgs₀ (j + k) = frontAt xhp pkgs₀ j ∧
      (withFront pkgs₀ (frontAt xhp pkgs₀ (j + k)))[j + k]? = none := by
  intro k
  induction k with
  | zero => exact ⟨rfl, h⟩
  | succ k ih =>
    obtain ⟨hfront, hnone⟩ := ih
    have heq : frontAt xhp pkgs₀ (j + (k + 1)) = frontAt xhp pkgs₀ (j + k) := by
      rw [← Nat.add_assoc, frontAt, hnone]
    refine ⟨heq.trans hfront, ?_⟩
    rw [heq]
    rw [List.getElem?_eq_none_iff] at hnone ⊢
    omega

/-- **What the pass does to the array is all replaced** if, and only if, what every pattern it
comes to finds answers to a pattern of an installed entry. -/
theorem replacedOk_iff_allAnswer (hnames : GoByNames xhp pkgs₀) :
    (∀ n, ReplacedOk pkgs₀ (Walk.run xhp n { pkgs := pkgs₀ }).pkgs) ↔ AllAnswer xhp pkgs₀ := by
  constructor
  · rintro hok e pattern front ⟨i, before, rest, he, hpatterns, rfl⟩ x hx
    have hsome : ∀ j < i, (withFront pkgs₀ (frontAt xhp pkgs₀ j))[j]?.isSome := by
      intro j hj
      by_contra hnone
      rw [Option.not_isSome_iff_eq_none] at hnone
      have hlast := (frontAt_of_end hnone (i - j)).2
      rw [Nat.add_sub_cancel' (Nat.le_of_lt hj), he] at hlast
      cases hlast
    obtain ⟨n, pkgs, hrun, h⟩ := exists_run_between hnames hok i hsome
    rcases step_between hnames h he with ⟨hnil, -, -⟩ | ⟨hs, h'⟩
    · rw [hnil] at hpatterns
      simp at hpatterns
    · obtain ⟨m, pkgs', hrun', hv⟩ := exists_run_visiting hnames hok
        ⟨n + 1, pkgs, run_step hrun hs, h'⟩ before (pattern :: rest) hpatterns
      by_contra hbad
      obtain ⟨w, hs', hno⟩ := hv.foreign hnames hx hbad
      refine hno ?_
      rw [← run_step hrun' hs']
      exact hok (m + 1)
  · exact fun hall n => (inPass_run hnames hall n).replacedOk

/-! ### Whose patterns find what -/

theorem findPkgInDict_answers (hkeys : KeysNamed xhp) {str : Str} {d : PkgDict}
    (h : findPkgInDict xhp.pkgdb str = some d) : Answers str d := by
  left
  by_cases hreq : request str = .pkgname
  · rw [findPkgInDict, hreq] at h
    rw [matchesRequest, if_neg (by simp), hreq]
    exact decide_eq_true (hkeys.name h)
  · exact findPkgInDict_matches hreq h

/-- What a pattern finds answers to it, or is the configured provider of the virtual package. -/
theorem findsToGo_answers (hkeys : KeysNamed xhp) (h : FindsToGo xhp pkgs e pattern x) :
    Answers pattern x ∨ installedProvider xhp pattern = some x := by
  cases h with
  | entry _ _ _ _ _ hmatch =>
    rcases hmatch with hm | hm
    · exact Or.inl (Or.inr (Or.inr hm))
    · exact Or.inl (Or.inr (Or.inl hm))
  | package hf _ _ =>
    have hc := hf.candidate
    rw [replacedCandidate, Option.or_eq_some_iff] at hc
    rcases hc with hc | ⟨-, hc⟩
    · obtain ⟨d, hd, he⟩ := Option.map_eq_some_iff.mp hc
      obtain ⟨rfl, -⟩ := Prod.mk.inj he
      rcases Option.or_eq_some_iff.mp hd with hd | ⟨-, hd⟩
      · exact Or.inl (findPkgInDict_answers hkeys hd)
      · rw [pkgdbGetVirtualpkg, findVirtualpkgInDict, Option.or_eq_some_iff] at hd
        rcases hd with hd | ⟨-, hd⟩
        · exact Or.inr hd
        · have hm := List.find?_some hd
          exact Or.inl (Or.inr (Or.inr hm))
    · obtain ⟨d, hd, he⟩ := Option.map_eq_some_iff.mp hc
      obtain ⟨rfl, -⟩ := Prod.mk.inj he
      have hm := List.find?_some (getPkgInArray_eq_some.mp hd).1
      exact Or.inl (Or.inl hm)

theorem allAnswer_iff (hkeys : KeysNamed xhp) :
    AllAnswer xhp pkgs₀ ↔ NothingForeign xhp pkgs₀ := by
  constructor
  · exact fun h => ⟨fun e pattern front hc _ => h e pattern front hc,
      fun e pattern front hc _ x _ => h e pattern front hc x⟩
  · intro h e pattern front hc x hx
    cases hu : e.transaction.unpacks with
    | false => exact h.foreign e pattern front hc hu x hx
    | true =>
      rcases findsToGo_answers hkeys hx with hans | hconf
      · obtain ⟨i, before, after, he, hpatterns, -⟩ := hc.there
        have hmem : e ∈ pkgs₀ := by
          rcases List.mem_append.mp (List.mem_of_getElem? he) with hfront | hmem
          · -- what was put in front is a removal
            obtain ⟨d, -, rfl⟩ := List.mem_map.mp hfront
            cases hu
          · exact hmem
        refine ⟨e, hmem, hu, pattern, ?_, hans⟩
        rw [hpatterns]
        exact List.mem_append_right before List.mem_cons_self
      · exact h.configured e pattern front hc hu x hconf hx

end

/-- **Replaced packages.**  In every state of the pass, each removal that it has added or turned
an entry into answers to a `replaces` pattern of an entry that the transaction installs, updates
or reinstalls, if, and only if, nothing else is found for the patterns of other entries, nor for
a virtual package. -/
theorem walk_replacedOk_iff (xhp : Handle) (pkgs₀ : List PkgDict) (hnames : GoByNames xhp pkgs₀) :
    (∀ n, ReplacedOk pkgs₀ (Walk.run xhp n { pkgs := pkgs₀ }).pkgs) ↔ NothingForeign xhp pkgs₀ :=
  (replacedOk_iff_allAnswer hnames).trans (allAnswer_iff hnames.keys)

/-- `b` is installed, and so is `a`, which replaced it once. -/
def replacesDemo : Handle :=
  { pkgdb := ⟨[
      ("a".toList, { pkgver := "a-1_1".toList, replaces := some ["b>=0".toList] }),
      ("b".toList, { pkgver := "b-1_1".toList })], by decide⟩ }

/-- The installation of `c`, which replaces `b`, and the removal of `a`. -/
def replacesBoth : List PkgDict :=
  [{ pkgver := "c-1_1".toList, pkgname := some "c".toList, transaction := .install
     replaces := some ["b>=0".toList] },
   { pkgver := "a-1_1".toList, pkgname := some "a".toList, transaction := .remove
     replaces := some ["b>=0".toList] }]

theorem replacesDemo_stored : ∀ e ∈ replacesDemo.pkgdb.entries, NameOk e.2 := by
  intro e he n hn
  have hnone : ∀ e ∈ replacesDemo.pkgdb.entries, e.2.pkgname = none := by decide
  rw [hnone e he] at hn
  cases hn

theorem walk_replacesBoth :
    (∀ n, ReplacedOk replacesBoth (Walk.run replacesDemo n { pkgs := replacesBoth }).pkgs) ∧
      (Walk.run replacesDemo 16 { pkgs := replacesBoth }).done = some true ∧
      (Walk.run replacesDemo 16 { pkgs := replacesBoth }).pkgs.map PkgDict.pkgver =
        ["b-1_1".toList, "c-1_1".toList, "a-1_1".toList] := by
  have hnames : GoByNames replacesDemo replacesBoth :=
    ⟨by decide, by decide, replacesDemo_stored, by decide⟩
  -- the pass comes to `c` twice, and then to `a`
  have hcomes : ∀ e pattern front, ComesTo replacesDemo replacesBoth e pattern front →
      e.transaction.unpacks = true ∨
        ((withFront replacesBoth front)[2]? = some e ∧ pattern = "b>=0".toList ∧
          front = frontAt replacesDemo replacesBoth 2) := by
    rintro e pattern front ⟨i, before, after, he, hpatterns, rfl⟩
    have hlt : i < 3 := by
      by_contra hle
      have hend : (withFront replacesBoth (frontAt replacesDemo replacesBoth 3))[3]? = none := by
        decide
      have hnone := (frontAt_of_end hend (i - 3)).2
      rw [Nat.add_sub_cancel' (by omega), he] at hnone
      cases hnone
    obtain rfl | rfl | rfl : i = 0 ∨ i = 1 ∨ i = 2 := by omega
    · exact Or.inl (Option.some.inj he ▸ rfl)
    · exact Or.inl (Option.some.inj he ▸ rfl)
    · right
      obtain rfl := Option.some.inj he
      have hone : ["b>=0".toList] = before ++ pattern :: after := hpatterns
      cases before with
      | nil => exact ⟨rfl, (List.cons.inj hone).1.symm, rfl⟩
      | cons b before => simp at hone
  refine ⟨(walk_replacedOk_iff replacesDemo replacesBoth hnames).mpr ⟨?_, ?_⟩, by decide,
    by decide⟩
  · intro e pattern front hc hu x hx
    rcases hcomes e pattern front hc with hu' | ⟨he, rfl, rfl⟩
    · rw [hu] at hu'
      cases hu'
    · -- `b` is a removal by then
      obtain rfl := Option.some.inj he
      exact (findsToGo_iff.mp hx).elim
  · intro e pattern front _ _ x hconf
    simp [installedProvider, vpkgUserConf, replacesDemo, Dict.get, Dict.empty] at hconf

/-- The removal of `a`. -/
def replacesRemove : List PkgDict :=
  [{ pkgver := "a-1_1".toList, pkgname := some "a".toList, transaction := .remove
     replaces := some ["b>=0".toList] }]

/-- Removing `a` removes `b` with it: the pass reads the `replaces` of a package
that is removed. -/
theorem walk_replacesRemove :
    GoByNames replacesDemo replacesRemove ∧
      (Walk.run replacesDemo 8 { pkgs := replacesRemove }).done = some true ∧
      (Walk.run replacesDemo 8 { pkgs := replacesRemove }).pkgs.map
        (fun d => (d.pkgver, d.transaction, d.replaced)) =
        [("b-1_1".toList, .remove, some true), ("a-1_1".toList, .remove, none)] ∧
      ¬ ReplacedOk replacesRemove (Walk.run replacesDemo 8 { pkgs := replacesRemove }).pkgs := by
  refine ⟨⟨by decide, by decide, replacesDemo_stored, by decide⟩, by decide, by decide, fun h => ?_⟩
  have hb : ((Walk.run replacesDemo 8 { pkgs := replacesRemove }).pkgs[0]?).isSome := by decide
  obtain ⟨x, hx⟩ := Option.isSome_iff_exists.mp hb
  obtain ⟨-, r, hr, hu, -⟩ := h.added 0 x (by decide) hx
  -- the only entry of the input is a removal
  rw [replacesRemove, List.mem_singleton] at hr
  rw [hr] at hu
  cases hu

end Flappy
