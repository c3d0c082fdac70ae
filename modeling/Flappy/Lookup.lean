/-
Two ways to look a package up (`lib/plist_find.c`).

An array is searched from the front, and the first entry that answers to the
request decides, also if the caller wants an entry of another type.  A
dictionary is not searched at all: the request is cut down to a name, and only
the entry of that name is looked at.

* `firstTyped_iff` — when the search of an array for an entry of a type finds one
  if there is one, `uniformlyTyped_iff` — and when its answer is free of the order;
* `findPkgInDict_isSome_iff` — what the lookup in a dictionary finds;
* `findPkgInDict_agrees` — for which requests this is what a search finds.
-/
import Flappy.Rpool

open CStr

namespace Flappy

/-! ### Entries of a type in an array -/

/-- The right answer to the question for an entry of a type that answers to a request. -/
structure TypedAnswer (array : List PkgDict) (tt : TransType) (p : PkgDict → Bool)
    (found : Option PkgDict) : Prop where
  sound : ∀ obj, found = some obj → obj ∈ array ∧ p obj = true ∧ obj.transaction = tt
  isSome_iff : found.isSome ↔ ∃ obj ∈ array, p obj = true ∧ obj.transaction = tt

/-- The first entry that answers to the request has the type, or none of them has. -/
def FirstTyped (array : List PkgDict) (tt : TransType) (p : PkgDict → Bool) : Prop :=
  ∀ obj, array.find? p = some obj →
    obj.transaction = tt ∨ ∀ o ∈ array, p o = true → o.transaction ≠ tt

/-- All entries that answer to the request have the type, or none of them has. -/
def UniformlyTyped (array : List PkgDict) (tt : TransType) (p : PkgDict → Bool) : Prop :=
  (∀ o ∈ array, p o = true → o.transaction = tt) ∨ ∀ o ∈ array, p o = true → o.transaction ≠ tt

/-- `flappy_find_virtualpkg_in_array` or `flappy_find_pkg_in_array`. -/
def typedLookup (xhp : Handle) (virt : Bool) (array : List PkgDict) (str : Str) (tt : TransType) :
    Option PkgDict :=
  if virt then findVirtualpkgInArray xhp array str tt else findPkgInArray array str tt

section Typed

variable {array : List PkgDict} {str : Str} {tt : TransType} {virt : Bool}

/-- Without a configured or installed provider both are the search of the array. -/
theorem typedLookup_eq {xhp : Handle} (hmap : virt = true → vpkgUserConf xhp str = none) :
    typedLookup xhp virt array str tt = getPkgInArray array str tt virt := by
  cases virt with
  | false => rfl
  | true =>
    rw [typedLookup, if_pos rfl, findVirtualpkgInArray, hmap rfl, Option.bind_none, Option.none_or]

theorem getPkgInArray_typed (htt : tt ≠ .unknown) {obj : PkgDict} :
    getPkgInArray array str tt virt = some obj ↔
      array.find? (matchesRequest str virt) = some obj ∧ obj.transaction = tt := by
  rw [getPkgInArray_eq_some, or_iff_right htt]

/-- Whatever is found is an entry as it was asked for. -/
theorem getPkgInArray_sound (htt : tt ≠ .unknown) {obj : PkgDict}
    (h : getPkgInArray array str tt virt = some obj) :
    obj ∈ array ∧ matchesRequest str virt obj = true ∧ obj.transaction = tt := by
  obtain ⟨hfind, htype⟩ := (getPkgInArray_typed htt).mp h
  exact ⟨List.mem_of_find?_eq_some hfind, List.find?_some hfind, htype⟩

/-- **The search for an entry of a type is complete** where the first entry that answers has
the type, or none has, and nowhere else. -/
theorem firstTyped_iff (htt : tt ≠ .unknown) :
    TypedAnswer array tt (matchesRequest str virt) (getPkgInArray array str tt virt) ↔
      FirstTyped array tt (matchesRequest str virt) := by
  constructor
  · rintro ⟨-, hiff⟩ obj hfind
    by_cases hobj : obj.transaction = tt
    · exact Or.inl hobj
    · refine Or.inr fun o ho hm htype => ?_
      obtain ⟨found, hfound⟩ := Option.isSome_iff_exists.mp (hiff.mpr ⟨o, ho, hm, htype⟩)
      obtain ⟨hfind', htype'⟩ := (getPkgInArray_typed htt).mp hfound
      rw [hfind] at hfind'
      exact hobj (Option.some.inj hfind' ▸ htype')
  · intro hfirst
    refine ⟨fun obj hobj => getPkgInArray_sound htt hobj, ?_, ?_⟩
    · intro h
      obtain ⟨obj, hobj⟩ := Option.isSome_iff_exists.mp h
      exact ⟨obj, getPkgInArray_sound htt hobj⟩
    · rintro ⟨o, ho, hm, htype⟩
      obtain ⟨obj, hobj⟩ := Option.isSome_iff_exists.mp (List.find?_isSome.mpr ⟨o, ho, hm⟩)
      rcases hfirst obj hobj with h | h
      · rw [(getPkgInArray_typed htt).mpr ⟨hobj, h⟩]
        rfl
      · exact absurd htype (h o ho hm)

/-- An entry in front decides. -/
theorem getPkgInArray_cons {o : PkgDict} (hm : matchesRequest str virt o = true) :
    getPkgInArray (o :: array) str tt virt =
      if tt ≠ .unknown ∧ o.transaction ≠ tt then none else some o := by
  rw [getPkgInArray, List.find?_cons_of_pos hm]

/-- **The answer is free of the order** of the entries where all that answer to the request
have the type, or none has. -/
theorem uniformlyTyped_iff (htt : tt ≠ .unknown) :
    (∀ array' : List PkgDict, array'.Perm array →
        (getPkgInArray array' str tt virt).isSome = (getPkgInArray array str tt virt).isSome) ↔
      UniformlyTyped array tt (matchesRequest str virt) := by
  -- what is found if this entry stands in front
  have hfront : ∀ o ∈ array, matchesRequest str virt o = true →
      ∃ array' : List PkgDict, array'.Perm array ∧
        ((getPkgInArray array' str tt virt).isSome ↔ o.transaction = tt) := by
    intro o ho hm
    refine ⟨o :: array.erase o, (List.perm_cons_erase ho).symm, ?_⟩
    rw [getPkgInArray_cons hm]
    by_cases h : o.transaction = tt <;> simp [h, htt]
  constructor
  · intro hfree
    by_cases hall : ∀ o ∈ array, matchesRequest str virt o = true → o.transaction = tt
    · exact Or.inl hall
    · refine Or.inr fun o ho hm htype => hall fun o' ho' hm' => ?_
      obtain ⟨array₁, hperm₁, h₁⟩ := hfront o ho hm
      obtain ⟨array₂, hperm₂, h₂⟩ := hfront o' ho' hm'
      rw [← h₂, hfree array₂ hperm₂, ← hfree array₁ hperm₁]
      exact h₁.mpr htype
  · intro huniform array' hperm
    have hiff : ∀ l : List PkgDict, l.Perm array →
        ((getPkgInArray l str tt virt).isSome ↔
          ∃ obj ∈ array, matchesRequest str virt obj = true ∧ obj.transaction = tt) := by
      intro l hl
      have hfirst : FirstTyped l tt (matchesRequest str virt) := by
        intro obj hobj
        refine huniform.imp (fun h => ?_) fun h o ho => h o (hl.mem_iff.mp ho)
        exact h obj (hl.mem_iff.mp (List.mem_of_find?_eq_some hobj)) (List.find?_some hobj)
      rw [((firstTyped_iff htt).mpr hfirst).isSome_iff]
      simp only [hl.mem_iff]
    rw [Bool.eq_iff_iff, hiff array' hperm, hiff array (List.Perm.refl array)]

end Typed

/-- Typed lookups are complete and free of the order under these conditions, and only then. -/
theorem typedLookup_iff (xhp : Handle) (virt : Bool) (array : List PkgDict) (str : Str)
    (tt : TransType) (htt : tt ≠ .unknown) (hmap : virt = true → vpkgUserConf xhp str = none) :
    (TypedAnswer array tt (matchesRequest str virt) (typedLookup xhp virt array str tt) ↔
        FirstTyped array tt (matchesRequest str virt)) ∧
      ((∀ array' : List PkgDict, array'.Perm array →
          (typedLookup xhp virt array' str tt).isSome = (typedLookup xhp virt array str tt).isSome) ↔
        UniformlyTyped array tt (matchesRequest str virt)) := by
  simp only [typedLookup_eq hmap]
  exact ⟨firstTyped_iff htt, uniformlyTyped_iff htt⟩

/-- A transaction that removes one version of a package and updates to another one. -/
def mixedEntries : List PkgDict :=
  [{ pkgver := "foo-1_1".toList, transaction := .remove },
   { pkgver := "foo-2_1".toList, transaction := .update }]

theorem typedLookup_iff_mixed :
    (TypedAnswer mixedEntries .remove (matchesRequest "foo>=1".toList false)
          (typedLookup { pkgdb := Dict.empty } false mixedEntries "foo>=1".toList .remove) ↔
        FirstTyped mixedEntries .remove (matchesRequest "foo>=1".toList false)) ∧
      ((∀ array' : List PkgDict, array'.Perm mixedEntries →
          (typedLookup { pkgdb := Dict.empty } false array' "foo>=1".toList .remove).isSome =
            (typedLookup { pkgdb := Dict.empty } false mixedEntries "foo>=1".toList
              .remove).isSome) ↔
        UniformlyTyped mixedEntries .remove (matchesRequest "foo>=1".toList false)) :=
  typedLookup_iff { pkgdb := Dict.empty } false mixedEntries "foo>=1".toList .remove (by decide)
    (by decide)

/-- The update of `foo` is in the transaction and is not found. -/
theorem update_not_found :
    (∃ obj ∈ mixedEntries, matchesRequest "foo>=1".toList false obj = true ∧
        obj.transaction = .update) ∧
      findPkgInArray mixedEntries "foo>=1".toList .update = none := by
  decide

/-! ### The entry of a dictionary -/

/-- Every package is filed under its name. -/
def Dict.NamedKeys (d : Dict Str PkgDict) : Prop :=
  ∀ e ∈ d.entries, pkgName e.2.pkgver = some e.1

instance (d : Dict Str PkgDict) : Decidable (Dict.NamedKeys d) :=
  inferInstanceAs (Decidable (∀ e ∈ d.entries, _))

/-- `name<op>version`, the documented form of a pattern. -/
def Relational (str : Str) : Prop :=
  ∃ n op rest, str = n ++ op :: rest ∧ (op = '<' ∨ op = '>') ∧ n ≠ [] ∧
    (∀ c ∈ n, c ∉ patternChars) ∧ n.getLast? ≠ some '-'

section Dictionary

variable {d : Dict Str PkgDict} {str : Str}

theorem Dict.NamedKeys.get (hkeys : Dict.NamedKeys d) {key : Str} {pkgd : PkgDict} :
    d.get key = some pkgd ↔ pkgd ∈ d.values ∧ pkgName pkgd.pkgver = some key := by
  constructor
  · intro h
    exact ⟨Dict.mem_values_of_get h,
      Dict.label_of_get (fun p : PkgDict => pkgName p.pkgver) hkeys h⟩
  · rintro ⟨hmem, hname⟩
    exact Dict.get_of_label (fun p : PkgDict => pkgName p.pkgver) hkeys hmem hname

theorem matchPkgByPkgver_eq_some {pkgd : PkgDict} :
    matchPkgByPkgver d str = some pkgd ↔
      ∃ key, pkgName str = some key ∧ d.get key = some pkgd ∧ pkgd.pkgver = str := by
  rw [matchPkgByPkgver]
  cases pkgName str with
  | none => simp
  | some key => simp [Option.filter_eq_some_iff]

/-- **What the lookup finds**: the entry under the name of the request, if it answers to it.  A
pattern has to have a name, or it is taken for a pkgver. -/
theorem findPkgInDict_eq_some (hkeys : Dict.NamedKeys d)
    (hname : request str = .pattern → (pkgpatternName str).isSome) {pkgd : PkgDict} :
    findPkgInDict d str = some pkgd ↔
      ∃ key, requestKey str = some key ∧ d.get key = some pkgd ∧
        matchesRequest str false pkgd = true := by
  rw [findPkgInDict, requestKey]
  simp only [matchesRequest, Bool.false_eq_true, if_false]
  cases hreq : request str with
  | pattern =>
    obtain ⟨key, hkey⟩ := Option.isSome_iff_exists.mp (hname hreq)
    simp [matchPkgByPattern, hkey, Option.filter_eq_some_iff]
  | pkgver =>
    simp only [matchPkgByPkgver_eq_some, decide_eq_true_eq, @eq_comm Str str]
  | pkgname =>
    simp only [Option.some.injEq, exists_eq_left', decide_eq_true_eq]
    constructor
    · intro h
      exact ⟨h, (hkeys.get.mp h).2⟩
    · exact And.left

/-- What is found answers to the request. -/
theorem findPkgInDict_sound (hkeys : Dict.NamedKeys d) {pkgd : PkgDict}
    (h : findPkgInDict d str = some pkgd) :
    pkgd ∈ d.values ∧ matchesRequest str false pkgd = true := by
  refine ⟨findPkgInDict_mem h, ?_⟩
  by_cases hreq : request str = .pkgname
  · obtain ⟨-, -, -, hm⟩ := (findPkgInDict_eq_some hkeys fun hp => by rw [hreq] at hp; cases hp).mp h
    exact hm
  · exact findPkgInDict_matches hreq h

theorem findPkgInDict_isSome_iff (hkeys : Dict.NamedKeys d)
    (hname : request str = .pattern → (pkgpatternName str).isSome) :
    (findPkgInDict d str).isSome ↔
      ∃ key pkgd, requestKey str = some key ∧ d.get key = some pkgd ∧
        matchesRequest str false pkgd = true := by
  simp only [Option.isSome_iff_exists, findPkgInDict_eq_some hkeys hname]
  exact exists_comm

/-! ### The name of a relational pattern -/

theorem strcspn_append {set : List Char} {n rest : Str} {c : Char} (hn : ∀ x ∈ n, x ∉ set)
    (hc : c ∈ set) : strcspn set (n ++ c :: rest) = n := by
  rw [strcspn, List.takeWhile_append_of_pos (by simpa using hn),
    List.takeWhile_cons_of_neg (by simpa using hc), List.append_nil]

theorem strpbrk_isSome {set : List Char} {s : Str} {c : Char} (hc : c ∈ set) (hmem : c ∈ s) :
    (strpbrk set s).isSome := by
  rw [← Option.ne_none_iff_isSome]
  exact fun h => strpbrk_eq_none.mp h c hmem hc

/-- A package that matches a relational pattern has the name of the pattern. -/
theorem Relational.name (hrel : Relational str) {pkgd : PkgDict} (hne : pkgd.pkgver ≠ str)
    (hm : pkgpatternMatch pkgd.pkgver str = true) {key : Str}
    (hkey : pkgName pkgd.pkgver = some key) : pkgpatternName str = some key := by
  obtain ⟨n, op, rest, rfl, hop, hnil, hplain, hdash⟩ := hrel
  have hop₁ : op ∈ ['<', '>'] := by rcases hop with rfl | rfl <;> decide
  have hop₂ : op ∈ patternChars := by rcases hop with rfl | rfl <;> decide
  have hplain₁ : ∀ c ∈ n, c ∉ ['<', '>'] := by
    intro c hc hset
    refine hplain c hc ?_
    rcases List.mem_pair.mp hset with rfl | rfl <;> decide
  -- the text of the pattern before the operator is the text of the pkgver before the last dash
  have hsep : (strpbrk ['<', '>'] (n ++ op :: rest)).isSome := strpbrk_isSome hop₁ (by simp)
  rw [pkgpatternMatch, if_neg (Ne.symm hne), if_pos hsep, deweyMatch] at hm
  obtain ⟨v, hpkgver, hv, -, hlen⟩ := pkgName_eq_some.mp hkey
  obtain ⟨sep, hsep'⟩ := Option.isSome_iff_exists.mp hsep
  rw [strrchr_eq_some.mpr ⟨hpkgver, hv⟩, hsep'] at hm
  simp only [strcspn_append hplain₁ hop₁] at hm
  have hnk : n = key := by
    by_contra hnk
    rw [if_pos hnk] at hm
    cases hm
  subst hnk
  have hcspn : strcspn patternChars (n ++ op :: rest) = n := strcspn_append hplain hop₂
  have hstem : patternStem (n ++ op :: rest) = n := by
    rw [patternStem]
    simp only [hcspn, if_neg hdash]
  exact pkgpatternName_eq_some.mpr
    ⟨strpbrk_isSome hop₂ (by simp), by rwa [hcspn], hstem.symm, by omega⟩

/-- A relational pattern is read as a pattern. -/
theorem Relational.request (hrel : Relational str) : Flappy.request str = .pattern := by
  obtain ⟨n, op, rest, rfl, hop, -⟩ := hrel
  refine if_pos (strpbrk_isSome (c := op) ?_ (by simp))
  rcases hop with rfl | rfl <;> decide

/-- **For names, exact pkgvers and relational patterns** the lookup finds a package if some
package of the dictionary answers to the request. -/
theorem findPkgInDict_complete (hkeys : Dict.NamedKeys d)
    (hreq : request str ≠ .pattern ∨ Relational str ∧ ∀ pkgd ∈ d.values, pkgd.pkgver ≠ str) :
    (findPkgInDict d str).isSome ↔ ∃ pkgd ∈ d.values, matchesRequest str false pkgd = true := by
  constructor
  · intro h
    obtain ⟨pkgd, hpkgd⟩ := Option.isSome_iff_exists.mp h
    exact ⟨pkgd, findPkgInDict_sound hkeys hpkgd⟩
  · rintro ⟨pkgd, hmem, hm⟩
    obtain ⟨key, hget⟩ := Dict.mem_values_iff.mp hmem
    have hname := (hkeys.get.mp hget).2
    rcases hreq with hreq | ⟨hrel, hne⟩
    · refine (findPkgInDict_isSome_iff hkeys fun h => absurd h hreq).mpr ⟨key, pkgd, ?_, hget, hm⟩
      rw [matchesRequest, if_neg (by simp)] at hm
      rw [requestKey]
      cases hr : request str with
      | pattern => exact absurd hr hreq
      | pkgver =>
        rw [hr] at hm
        simp only [decide_eq_true_eq] at hm
        rw [hm]
        exact hname
      | pkgname =>
        rw [hr] at hm
        simp only [decide_eq_true_eq] at hm
        exact hm.symm.trans hname
    · have hpat := hrel.request
      rw [matchesRequest, if_neg (by simp), hpat] at hm
      have hkey := hrel.name (hne pkgd hmem) hm hname
      refine (findPkgInDict_isSome_iff hkeys fun _ => by rw [hkey]; rfl).mpr
        ⟨key, pkgd, ?_, hget, ?_⟩
      · rw [requestKey, hpat]
        simp [hkey]
      · rw [matchesRequest, if_neg (by simp), hpat]
        exact hm

end Dictionary

/-- The lookup in a dictionary against the search of its entries. -/
theorem findPkgInDict_agrees (d : Dict Str PkgDict) (str : Str) (hkeys : Dict.NamedKeys d) :
    (∀ pkgd, findPkgInDict d str = some pkgd →
        pkgd ∈ d.values ∧ matchesRequest str false pkgd = true) ∧
      ((request str = .pattern → (pkgpatternName str).isSome) →
        ((findPkgInDict d str).isSome ↔ ∃ key pkgd, requestKey str = some key ∧
          d.get key = some pkgd ∧ matchesRequest str false pkgd = true)) ∧
      ((request str ≠ .pattern ∨ Relational str ∧ ∀ pkgd ∈ d.values, pkgd.pkgver ≠ str) →
        ((findPkgInDict d str).isSome ↔
          ∃ pkgd ∈ d.values, matchesRequest str false pkgd = true)) :=
  ⟨fun _ => findPkgInDict_sound hkeys, findPkgInDict_isSome_iff hkeys,
    findPkgInDict_complete hkeys⟩

/-- A dictionary with one package. -/
def oneName : Dict Str PkgDict := Dict.empty.set "name".toList { pkgver := "name-1.0_1".toList }

/-- Beside it a package whose version is in the same range, and one with a longer name. -/
def someNames : Dict Str PkgDict :=
  (oneName.set "other".toList { pkgver := "other-1.5_1".toList }).set "name-devel".toList
    { pkgver := "name-devel-1.0_1".toList }

theorem findPkgInDict_agrees_name :
    (∀ pkgd, findPkgInDict someNames "name>=1.0<2.0".toList = some pkgd →
        pkgd ∈ someNames.values ∧ matchesRequest "name>=1.0<2.0".toList false pkgd = true) ∧
      ((findPkgInDict someNames "name>=1.0<2.0".toList).isSome ↔ ∃ key pkgd,
        requestKey "name>=1.0<2.0".toList = some key ∧ someNames.get key = some pkgd ∧
          matchesRequest "name>=1.0<2.0".toList false pkgd = true) ∧
      ((findPkgInDict someNames "name>=1.0<2.0".toList).isSome ↔
        ∃ pkgd ∈ someNames.values, matchesRequest "name>=1.0<2.0".toList false pkgd = true) := by
  obtain ⟨h₁, h₂, h₃⟩ := findPkgInDict_agrees someNames "name>=1.0<2.0".toList (by decide)
  refine ⟨h₁, h₂ fun _ => by decide, h₃ (Or.inr ⟨?_, by decide⟩)⟩
  exact ⟨"name".toList, '>', "=1.0<2.0".toList, rfl, Or.inr rfl, by decide,
    by simp [patternChars], by decide⟩

/-- A search of the entries finds the package, the lookup in the dictionary does not. -/
theorem glob_not_found :
    Dict.NamedKeys oneName ∧ findPkgInDict oneName "na*-1.0_1".toList = none ∧
      ∃ pkgd ∈ oneName.values, pkgpatternMatch pkgd.pkgver "na*-1.0_1".toList = true ∧
        findPkgInArray oneName.values "na*-1.0_1".toList .unknown = some pkgd := by
  decide

end Flappy
