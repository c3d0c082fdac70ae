/-
Replaced packages (`lib/transaction_check_replaces.c`).

The pass walks the very array it changes.  A package that a `replaces` pattern
finds is turned into a `REMOVE` entry where it stands, or, if the transaction
has no entry for it, put in front of the array, which moves all entries behind
it by one.  The pass never looks at the type of the entry whose patterns it
reads, so that removed, held and freshly added entries act like the others.

The walk is a step function on the array, the index and the patterns of the
current entry that are still to be looked at; nothing is said about how long it
goes on.

* `replaceAction` — what the pass decides about one pattern;
* `Walk.step` — one step of the pass;
* `mem_applyReplace` — what is in the array after a step;
* `Walk.step_visitOk` — the patterns that are left are those of the current entry.
-/
import Flappy.Pkgdb

open CStr

namespace Flappy

/-- What the pass does about a pattern. -/
inductive ReplaceAction where
  | skip
  /-- Return `false`. -/
  | fail
  /-- Turn the entry of this name into a removal. -/
  | turn (instdAuto : Bool) (curpkgname : Str)
  /-- Add the package as a removal; it may be an entry of the array already. -/
  | add (instdAuto : Bool) (instd : PkgDict) (inArray : Bool)
deriving DecidableEq, Repr

/-- Does the action mark a package for removal? -/
def ReplaceAction.marks : ReplaceAction → Bool
  | .skip | .fail => false
  | .turn _ _ | .add _ _ _ => true

/-- The package that a pattern finds, and whether it comes from the array. -/
def replacedCandidate (xhp : Handle) (pkgs : List PkgDict) (pattern : Str) :
    Option (PkgDict × Bool) :=
  (((pkgdbGetPkg xhp pattern).or (pkgdbGetVirtualpkg xhp pattern)).map fun d => (d, false)).or
    ((findPkgInArray pkgs pattern .install).map fun d => (d, true))

/-- The decision of `flappy_transaction_check_replaces` about one pattern of `obj`. -/
def replaceAction (xhp : Handle) (pkgs : List PkgDict) (obj : PkgDict) (pattern : Str) :
    ReplaceAction :=
  match replacedCandidate xhp pkgs pattern with
  | none => .skip
  | some (instd, inArray) =>
    if instd.hold = some true then .skip
    else
      match pkgName instd.pkgver with
      | none => .fail
      | some curpkgname =>
        if pkgName obj.pkgver = some curpkgname then .skip
        else
          match findPkgInArray pkgs curpkgname .unknown with
          | none => .add (instd.automaticInstall.getD false) instd inArray
          | some reppkgd =>
            if reppkgd.transaction = .remove ∨ reppkgd.transaction = .hold then .skip
            else if matchVirtualPkgInDict reppkgd pattern = false ∧
                pkgpatternMatch reppkgd.pkgver pattern = false then .skip
            else .turn (instd.automaticInstall.getD false) curpkgname

/-- `flappy_array_replace_dict_by_name`. -/
def arrayReplaceDictByName (array : List PkgDict) (dict : PkgDict) (pkgname : Str) :
    Option (List PkgDict) :=
  (array.findIdx? fun d => d.pkgname = some pkgname).map fun i => array.set i dict

/-- Mark a package as replaced. -/
def markReplaced (d : PkgDict) : PkgDict :=
  { d with transaction := .remove, replaced := some true }

def dropAutomaticInstall (d : PkgDict) : PkgDict := { d with automaticInstall := none }

/-- Carry an action out for the entry at `pos`: the new array, the position of the
entry, and whether the pass goes on. -/
def applyReplace (pkgs : List PkgDict) (pos : Nat) (obj : PkgDict) (pattern : Str) :
    ReplaceAction → List PkgDict × Nat × Bool
  | .skip => (pkgs, pos, true)
  | .fail => (pkgs, pos, false)
  | .turn instdAuto curpkgname =>
    let pkgs := if instdAuto then pkgs else pkgs.modify pos dropAutomaticInstall
    let r := pkgs.findIdx (matchesRequest curpkgname false)
    let pkgs := pkgs.modify r markReplaced
    match pkgs[r]? with
    | none => (pkgs, pos, false)
    | some reppkgd =>
      match arrayReplaceDictByName pkgs reppkgd curpkgname with
      | none => (pkgs, pos, false)
      | some pkgs => (pkgs, pos, true)
  | .add instdAuto instd inArray =>
    let pkgs :=
      if matchVirtualPkgInDict obj pattern = true ∧ instdAuto = false then
        pkgs.modify pos dropAutomaticInstall
      else pkgs
    -- an entry of the array is marked there as well
    let pkgs :=
      if inArray then pkgs.modify (pkgs.findIdx (matchesRequest pattern false)) markReplaced
      else pkgs
    (markReplaced instd :: pkgs, pos + 1, true)

/-- The state of the pass.  `visit` is the position of the current entry and the
patterns of it that are left, `done` the return value. -/
structure Walk where
  pkgs : List PkgDict
  i : Nat := 0
  visit : Option (Nat × List Str) := none
  done : Option Bool := none
deriving DecidableEq, Repr

/-- One step of `flappy_transaction_check_replaces`; `none` once it has returned. -/
def Walk.step (xhp : Handle) (w : Walk) : Option Walk :=
  if w.done.isSome then none
  else
    match w.visit with
    | none =>
      match w.pkgs[w.i]? with
      | none => some { w with done := some true }
      | some obj =>
        let replaces := obj.replaces.getD []
        if replaces = [] then some { w with i := w.i + 1 }
        else if (pkgName obj.pkgver).isNone then some { w with done := some false }
        else some { w with visit := some (w.i, replaces) }
    | some (_, []) => some { w with i := w.i + 1, visit := none }
    | some (pos, pattern :: rest) =>
      match w.pkgs[pos]? with
      | none => some { w with done := some false }
      | some obj =>
        match applyReplace w.pkgs pos obj pattern (replaceAction xhp w.pkgs obj pattern) with
        | (pkgs, pos, true) => some { w with pkgs := pkgs, visit := some (pos, rest) }
        | (pkgs, _, false) => some { w with pkgs := pkgs, done := some false }

/-- The first `n` steps of the pass. -/
def Walk.run (xhp : Handle) : Nat → Walk → Walk
  | 0, w => w
  | n + 1, w =>
    match w.step xhp with
    | none => w
    | some w' => w'.run xhp n

/-! ### Carrying out an action -/

/-- The array once `automatic-install` has been dropped from the entry at `pos`, if it is. -/
def dropAt (pkgs : List PkgDict) (pos : Nat) (drop : Bool) : List PkgDict :=
  if drop then pkgs.modify pos dropAutomaticInstall else pkgs

/-- The array with the entry marked that answers to a request. -/
def markFound (pkgs : List PkgDict) (str : Str) : List PkgDict :=
  pkgs.modify (pkgs.findIdx (matchesRequest str false)) markReplaced

/-- What carrying out an action leaves. -/
inductive Applies (pkgs : List PkgDict) (pos : Nat) (pattern : Str) :
    ReplaceAction → List PkgDict × Nat × Bool → Prop where
  | skip : Applies pkgs pos pattern .skip (pkgs, pos, true)
  | fail : Applies pkgs pos pattern .fail (pkgs, pos, false)
  | stuck {instdAuto : Bool} {curpkgname : Str} :
      Applies pkgs pos pattern (.turn instdAuto curpkgname)
        (markFound (dropAt pkgs pos (!instdAuto)) curpkgname, pos, false)
  | turned {instdAuto : Bool} {curpkgname : Str} {reppkgd : PkgDict} {pkgs' : List PkgDict} :
      (markFound (dropAt pkgs pos (!instdAuto)) curpkgname)[
        (dropAt pkgs pos (!instdAuto)).findIdx (matchesRequest curpkgname false)]? = some reppkgd →
      arrayReplaceDictByName (markFound (dropAt pkgs pos (!instdAuto)) curpkgname) reppkgd
        curpkgname = some pkgs' →
      Applies pkgs pos pattern (.turn instdAuto curpkgname) (pkgs', pos, true)
  | added {drop instdAuto : Bool} {instd : PkgDict} : (drop = true → instdAuto = false) →
      Applies pkgs pos pattern (.add instdAuto instd false)
        (markReplaced instd :: dropAt pkgs pos drop, pos + 1, true)
  | marked {drop instdAuto : Bool} {instd : PkgDict} : (drop = true → instdAuto = false) →
      Applies pkgs pos pattern (.add instdAuto instd true)
        (markReplaced instd :: markFound (dropAt pkgs pos drop) pattern, pos + 1, true)

theorem applyReplace_cases (pkgs : List PkgDict) (pos : Nat) (obj : PkgDict) (pattern : Str)
    (action : ReplaceAction) :
    Applies pkgs pos pattern action (applyReplace pkgs pos obj pattern action) := by
  cases action with
  | skip => exact .skip
  | fail => exact .fail
  | turn instdAuto curpkgname =>
    have hdrop : (if instdAuto = true then pkgs else pkgs.modify pos dropAutomaticInstall) =
        dropAt pkgs pos (!instdAuto) := by
      cases instdAuto with
      | true => rfl
      | false => rfl
    rw [applyReplace, hdrop]
    split
    · exact .stuck
    · next reppkgd hr =>
      split
      · exact .stuck
      · next pkgs' hset => exact .turned hr hset
  | add instdAuto instd inArray =>
    rw [applyReplace]
    by_cases hv : matchVirtualPkgInDict obj pattern = true ∧ instdAuto = false
    · rw [if_pos hv]
      cases inArray with
      | true => exact @Applies.marked pkgs pos pattern true instdAuto instd fun _ => hv.2
      | false => exact @Applies.added pkgs pos pattern true instdAuto instd fun _ => hv.2
    · rw [if_neg hv]
      cases inArray with
      | true => exact @Applies.marked pkgs pos pattern false instdAuto instd fun h => by cases h
      | false => exact @Applies.added pkgs pos pattern false instdAuto instd fun h => by cases h

/-! ### One step -/

/-- What a pattern finds: a package that is not on hold, under this name. -/
structure FindsReplaced (xhp : Handle) (pkgs : List PkgDict) (pattern : Str) (instd : PkgDict)
    (inArray : Bool) (n : Str) : Prop where
  candidate : replacedCandidate xhp pkgs pattern = some (instd, inArray)
  not_hold : instd.hold ≠ some true
  name : pkgName instd.pkgver = some n

/-- What a marking action rests on. -/
theorem replaceAction_spec (xhp : Handle) (pkgs : List PkgDict) (obj : PkgDict) (pattern : Str) :
    match replaceAction xhp pkgs obj pattern with
    | .skip | .fail => True
    | .turn instdAuto curpkgname => ∃ instd inArray reppkgd,
        FindsReplaced xhp pkgs pattern instd inArray curpkgname ∧
        pkgName obj.pkgver ≠ some curpkgname ∧
        instd.automaticInstall.getD false = instdAuto ∧
        pkgs.find? (matchesRequest curpkgname false) = some reppkgd ∧
        (matchVirtualPkgInDict reppkgd pattern = true ∨
          pkgpatternMatch reppkgd.pkgver pattern = true)
    | .add instdAuto instd inArray => ∃ n, FindsReplaced xhp pkgs pattern instd inArray n ∧
        pkgName obj.pkgver ≠ some n ∧ instd.automaticInstall.getD false = instdAuto := by
  rw [replaceAction]
  cases hc : replacedCandidate xhp pkgs pattern with
  | none => trivial
  | some c =>
    obtain ⟨instd, inArray⟩ := c
    simp only
    by_cases hh : instd.hold = some true
    · rw [if_pos hh]
      trivial
    · rw [if_neg hh]
      cases hn : pkgName instd.pkgver with
      | none => trivial
      | some curpkgname =>
        have hfinds : FindsReplaced xhp pkgs pattern instd inArray curpkgname := ⟨hc, hh, hn⟩
        simp only
        by_cases hself : pkgName obj.pkgver = some curpkgname
        · rw [if_pos hself]
          trivial
        · rw [if_neg hself]
          cases hf : findPkgInArray pkgs curpkgname .unknown with
          | none => exact ⟨curpkgname, hfinds, hself, rfl⟩
          | some reppkgd =>
            simp only
            -- what is removed or on hold is passed over
            by_cases ht : reppkgd.transaction = .remove ∨ reppkgd.transaction = .hold
            · rw [if_pos ht]
              trivial
            · rw [if_neg ht]
              by_cases hm : matchVirtualPkgInDict reppkgd pattern = false ∧
                  pkgpatternMatch reppkgd.pkgver pattern = false
              · rw [if_pos hm]
                trivial
              · rw [if_neg hm]
                rw [not_and_or, Bool.not_eq_false, Bool.not_eq_false] at hm
                exact ⟨instd, inArray, reppkgd, hfinds, hself, rfl,
                  (findPkgInArray_unknown pkgs curpkgname).symm.trans hf, hm⟩

/-- A package that comes from the array is the first one there that matches. -/
theorem find?_of_replacedCandidate {xhp : Handle} {pkgs : List PkgDict} {pattern : Str}
    {instd : PkgDict} (h : replacedCandidate xhp pkgs pattern = some (instd, true)) :
    pkgs.find? (matchesRequest pattern false) = some instd ∧ instd.transaction = .install := by
  rw [replacedCandidate, Option.or_eq_some_iff] at h
  rcases h with h | ⟨-, h⟩
  · obtain ⟨d, -, he⟩ := Option.map_eq_some_iff.mp h
    cases he
  · obtain ⟨d, hd, he⟩ := Option.map_eq_some_iff.mp h
    rw [Prod.mk.injEq] at he
    rw [← he.1]
    obtain ⟨hf, ht⟩ := getPkgInArray_eq_some.mp hd
    exact ⟨hf, by simpa using ht⟩

/-- A package that does not come from the array is installed. -/
theorem mem_of_replacedCandidate {xhp : Handle} {pkgs : List PkgDict} {pattern : Str}
    {instd : PkgDict} (h : replacedCandidate xhp pkgs pattern = some (instd, false)) :
    instd ∈ xhp.pkgdb.values := by
  rw [replacedCandidate, Option.or_eq_some_iff] at h
  rcases h with h | ⟨-, h⟩
  · obtain ⟨d, hd, he⟩ := Option.map_eq_some_iff.mp h
    rw [Prod.mk.injEq] at he
    rw [← he.1]
    rcases Option.or_eq_some_iff.mp hd with hd | ⟨-, hd⟩
    · exact findPkgInDict_mem hd
    · exact findVirtualpkgInDict_mem hd
  · obtain ⟨d, -, he⟩ := Option.map_eq_some_iff.mp h
    cases he

/-- The entry at the place where a search stops is the one it finds. -/
theorem getElem?_findIdx {α : Type*} {p : α → Bool} {l : List α} {a : α}
    (h : l.find? p = some a) : l[l.findIdx p]? = some a := by
  induction l with
  | nil => cases h
  | cons b l ih =>
    by_cases hb : p b = true
    · rw [List.find?_cons_of_pos hb] at h
      rw [List.findIdx_cons, hb]
      simpa using h
    · rw [List.find?_cons_of_neg hb] at h
      rw [List.findIdx_cons, Bool.eq_false_iff.mpr hb]
      simpa using ih h

/-- A change that a search does not see leaves its place alone. -/
theorem findIdx_modify {α : Type*} {p : α → Bool} {f : α → α} (hf : ∀ a, p (f a) = p a) :
    ∀ (l : List α) (i : Nat), (l.modify i f).findIdx p = l.findIdx p := by
  intro l
  induction l with
  | nil => intro i; simp
  | cons b l ih =>
    intro i
    cases i with
    | zero => rw [List.modify_zero_cons, List.findIdx_cons, List.findIdx_cons, hf]
    | succ i => rw [List.modify_succ_cons, List.findIdx_cons, List.findIdx_cons, ih]

/-- Dropping `automatic-install` does not move the entry that a search finds. -/
theorem findIdx_dropAt (pkgs : List PkgDict) (pos : Nat) (drop : Bool) (str : Str) :
    (dropAt pkgs pos drop).findIdx (matchesRequest str false) =
      pkgs.findIdx (matchesRequest str false) := by
  cases drop with
  | true =>
    have hsame : ∀ d, matchesRequest str false (dropAutomaticInstall d) =
      matchesRequest str false d := fun _ => rfl
    exact findIdx_modify hsame pkgs pos
  | false => rfl

/-- The entry that a search finds after the drop is the one it found before, perhaps without
`automatic-install`. -/
theorem getElem?_findIdx_dropAt {pkgs : List PkgDict} {pos : Nat} {str : Str} {y z : PkgDict}
    {drop : Bool} (hf : pkgs.find? (matchesRequest str false) = some y)
    (hz : (dropAt pkgs pos drop)[(dropAt pkgs pos drop).findIdx (matchesRequest str false)]? =
      some z) :
    z = y ∨ z = dropAutomaticInstall y := by
  have hy := getElem?_findIdx hf
  rw [findIdx_dropAt] at hz
  cases drop with
  | false => exact Or.inl (Option.some.inj (hz.symm.trans hy))
  | true =>
    rw [dropAt, if_pos rfl, List.getElem?_modify, hy, Option.map_eq_map, Option.map_some] at hz
    split at hz
    · exact Or.inr (Option.some.inj hz).symm
    · exact Or.inl (Option.some.inj hz).symm

/-! ### What is in the array after a step -/

theorem mem_modify {α : Type*} {f : α → α} {x : α} :
    ∀ {l : List α} {i : Nat}, x ∈ l.modify i f → x ∈ l ∨ ∃ y, l[i]? = some y ∧ x = f y := by
  intro l i h
  obtain ⟨k, hk⟩ := List.getElem?_of_mem h
  rw [List.getElem?_modify, Option.map_eq_map, Option.map_eq_some_iff] at hk
  obtain ⟨y, hy, hx⟩ := hk
  by_cases hik : i = k
  · rw [if_pos hik] at hx
    exact Or.inr ⟨y, hik ▸ hy, hx.symm⟩
  · rw [if_neg hik] at hx
    exact Or.inl (hx ▸ List.mem_of_getElem? hy)

/-- An entry that a step has marked: it is the package found, or the entry under its name,
perhaps without `automatic-install`. -/
def MarkedFrom (pkgs : List PkgDict) (instd : PkgDict) (n : Str) (x : PkgDict) : Prop :=
  ∃ y, dropAutomaticInstall x = dropAutomaticInstall (markReplaced y) ∧
    (y = instd ∨ pkgs.find? (matchesRequest n false) = some y)

theorem MarkedFrom.remove {pkgs : List PkgDict} {instd : PkgDict} {n : Str} {x : PkgDict}
    (h : MarkedFrom pkgs instd n x) : x.transaction = .remove := by
  obtain ⟨y, hy, -⟩ := h
  exact congrArg PkgDict.transaction hy

/-- The automatic-install of the entry at `pos` is dropped for a package that was
installed by hand. -/
def DropsFor (xhp : Handle) (pkgs : List PkgDict) (obj : PkgDict) (pattern : Str)
    (x : PkgDict) : Prop :=
  x = dropAutomaticInstall obj ∧ ∃ instd inArray n,
    FindsReplaced xhp pkgs pattern instd inArray n ∧ pkgName obj.pkgver ≠ some n ∧
      instd.automaticInstall.getD false = false

/-- The array after the drop: the entries are the old ones, or the entry at `pos` without
`automatic-install`. -/
theorem mem_dropAt {pkgs : List PkgDict} {pos : Nat} {obj x : PkgDict}
    (hobj : pkgs[pos]? = some obj) {drop : Bool} (h : x ∈ dropAt pkgs pos drop) :
    x ∈ pkgs ∨ (drop = true ∧ x = dropAutomaticInstall obj) := by
  cases drop with
  | false => exact Or.inl h
  | true =>
    rcases mem_modify h with h | ⟨y, hy, rfl⟩
    · exact Or.inl h
    · obtain rfl := Option.some.inj (hobj.symm.trans hy)
      exact Or.inr ⟨rfl, rfl⟩

/-- The array after the drop and the mark. -/
theorem mem_markFound {pkgs : List PkgDict} {pos : Nat} {obj x y : PkgDict} {str : Str}
    (hobj : pkgs[pos]? = some obj) {drop : Bool}
    (hf : pkgs.find? (matchesRequest str false) = some y)
    (h : x ∈ markFound (dropAt pkgs pos drop) str) :
    x ∈ pkgs ∨ (drop = true ∧ x = dropAutomaticInstall obj) ∨
      dropAutomaticInstall x = dropAutomaticInstall (markReplaced y) := by
  rcases mem_modify h with h | ⟨z, hz, rfl⟩
  · exact (mem_dropAt hobj h).imp_right Or.inl
  · rcases getElem?_findIdx_dropAt hf hz with rfl | rfl
    · exact Or.inr (Or.inr rfl)
    · exact Or.inr (Or.inr rfl)

/-- The same, when the entry goes by the name of the package that was found. -/
theorem mem_turned {xhp : Handle} {pkgs : List PkgDict} {pos : Nat} {obj x rep instd : PkgDict}
    {pattern n : Str} {inArray drop : Bool} (hobj : pkgs[pos]? = some obj)
    (hf : FindsReplaced xhp pkgs pattern instd inArray n) (hother : pkgName obj.pkgver ≠ some n)
    (hauto : drop = true → instd.automaticInstall.getD false = false)
    (hrep : pkgs.find? (matchesRequest n false) = some rep)
    (h : x ∈ markFound (dropAt pkgs pos drop) n) :
    x ∈ pkgs ∨ DropsFor xhp pkgs obj pattern x ∨
      ∃ instd inArray n, FindsReplaced xhp pkgs pattern instd inArray n ∧
        MarkedFrom pkgs instd n x := by
  rcases mem_markFound hobj hrep h with h | ⟨hd, rfl⟩ | h
  · exact Or.inl h
  · exact Or.inr (Or.inl ⟨rfl, instd, inArray, n, hf, hother, hauto hd⟩)
  · exact Or.inr (Or.inr ⟨instd, inArray, n, hf, rep, h, Or.inr hrep⟩)

/-- After a step, an entry is an old one, the current one without its `automatic-install`,
or it was marked. -/
theorem mem_applyReplace {xhp : Handle} {pkgs : List PkgDict} {pos : Nat} {obj x : PkgDict}
    {pattern : Str} (hobj : pkgs[pos]? = some obj)
    (hx : x ∈ (applyReplace pkgs pos obj pattern (replaceAction xhp pkgs obj pattern)).1) :
    x ∈ pkgs ∨ DropsFor xhp pkgs obj pattern x ∨
      ∃ instd inArray n, FindsReplaced xhp pkgs pattern instd inArray n ∧
        MarkedFrom pkgs instd n x := by
  have hspec := replaceAction_spec xhp pkgs obj pattern
  have hcases := applyReplace_cases pkgs pos obj pattern (replaceAction xhp pkgs obj pattern)
  generalize applyReplace pkgs pos obj pattern (replaceAction xhp pkgs obj pattern) = res
    at hcases hx
  generalize replaceAction xhp pkgs obj pattern = action at hspec hcases
  cases hcases with
  | skip => exact Or.inl hx
  | fail => exact Or.inl hx
  | @stuck instdAuto curpkgname =>
    obtain ⟨instd, inArray, rep, hf, hother, hauto, hrep, -⟩ := hspec
    refine mem_turned hobj hf hother (fun hd => ?_) hrep hx
    rw [hauto]
    simpa using hd
  | @turned instdAuto curpkgname reppkgd pkgs' hr hset =>
    obtain ⟨instd, inArray, rep, hf, hother, hauto, hrep, -⟩ := hspec
    obtain ⟨i, -, rfl⟩ := Option.map_eq_some_iff.mp hset
    -- the entry that is set is one of the array
    have hmem : x ∈ markFound (dropAt pkgs pos (!instdAuto)) curpkgname := by
      rcases List.mem_or_eq_of_mem_set hx with hx | rfl
      · exact hx
      · exact List.mem_of_getElem? hr
    refine mem_turned hobj hf hother (fun hd => ?_) hrep hmem
    rw [hauto]
    simpa using hd
  | @added drop instdAuto instd hdrop =>
    obtain ⟨n, hf, hother, hauto⟩ := hspec
    rcases List.mem_cons.mp hx with rfl | hx
    · exact Or.inr (Or.inr ⟨instd, false, n, hf, instd, rfl, Or.inl rfl⟩)
    · rcases mem_dropAt hobj hx with hx | ⟨hd, rfl⟩
      · exact Or.inl hx
      · exact Or.inr (Or.inl ⟨rfl, instd, false, n, hf, hother, hauto.trans (hdrop hd)⟩)
  | @marked drop instdAuto instd hdrop =>
    obtain ⟨n, hf, hother, hauto⟩ := hspec
    rcases List.mem_cons.mp hx with rfl | hx
    · exact Or.inr (Or.inr ⟨instd, true, n, hf, instd, rfl, Or.inl rfl⟩)
    · rcases mem_markFound hobj (find?_of_replacedCandidate hf.candidate).1 hx with
        hx | ⟨hd, rfl⟩ | hx
      · exact Or.inl hx
      · exact Or.inr (Or.inl ⟨rfl, instd, true, n, hf, hother, hauto.trans (hdrop hd)⟩)
      · exact Or.inr (Or.inr ⟨instd, true, n, hf, instd, hx, Or.inl rfl⟩)

theorem Walk.step_pkgs {xhp : Handle} {w w' : Walk} (hstep : w.step xhp = some w') :
    w'.pkgs = w.pkgs ∨ ∃ pos pattern rest obj, w.visit = some (pos, pattern :: rest) ∧
      w.pkgs[pos]? = some obj ∧
      w'.pkgs = (applyReplace w.pkgs pos obj pattern (replaceAction xhp w.pkgs obj pattern)).1 := by
  rw [Walk.step] at hstep
  split at hstep
  · cases hstep
  · split at hstep
    · -- between two entries the array stays as it is
      split at hstep
      · exact Or.inl (Option.some.inj hstep ▸ rfl)
      · simp only at hstep
        split at hstep
        · exact Or.inl (Option.some.inj hstep ▸ rfl)
        · split at hstep
          · exact Or.inl (Option.some.inj hstep ▸ rfl)
          · exact Or.inl (Option.some.inj hstep ▸ rfl)
    · exact Or.inl (Option.some.inj hstep ▸ rfl)
    · next pos pattern rest hvisit =>
      split at hstep
      · exact Or.inl (Option.some.inj hstep ▸ rfl)
      · next obj hobj =>
        refine Or.inr ⟨pos, pattern, rest, obj, hvisit, hobj, ?_⟩
        split at hstep
        · next pkgs pos' happ =>
          rw [happ, ← Option.some.inj hstep]
        · next pkgs pos' happ =>
          rw [happ, ← Option.some.inj hstep]

/-- A property of the array that every decision preserves holds in every state. -/
theorem Walk.run_inv {xhp : Handle} {Q : List PkgDict → Prop}
    (hQ : ∀ pkgs pos obj pattern, Q pkgs → pkgs[pos]? = some obj →
      Q (applyReplace pkgs pos obj pattern (replaceAction xhp pkgs obj pattern)).1) :
    ∀ (n : Nat) (w : Walk), Q w.pkgs → Q (w.run xhp n).pkgs := by
  intro n
  induction n with
  | zero => exact fun w h => h
  | succ n ih =>
    intro w h
    rw [Walk.run]
    cases hs : w.step xhp with
    | none => exact h
    | some w' =>
      refine ih w' ?_
      rcases Walk.step_pkgs hs with hw | ⟨pos, pattern, rest, obj, -, hobj, hw⟩
      · exact hw ▸ h
      · exact hw ▸ hQ w.pkgs pos obj pattern h hobj

/-! ### The entry whose patterns are read -/

/-- A change that does not show in `g` does not show at any place. -/
theorem map_getElem?_modify {α β : Type*} {g : α → β} {f : α → α} (hf : ∀ a, g (f a) = g a)
    (l : List α) (i pos : Nat) : (l.modify i f)[pos]?.map g = l[pos]?.map g := by
  rw [List.getElem?_modify]
  cases l[pos]? with
  | none => rfl
  | some a =>
    by_cases h : i = pos
    · simp [h, hf]
    · simp [h]

/-- The properties by which the pass knows an entry again. -/
def PkgDict.tags (d : PkgDict) : Option Str × Option (List Str) := (d.pkgname, d.replaces)

/-- A decision does not change the name and the patterns of the current entry. -/
theorem tags_applyReplace {xhp : Handle} {pkgs pkgs' : List PkgDict} {pos pos' : Nat}
    {obj : PkgDict} {pattern : Str} (hobj : pkgs[pos]? = some obj) (hname : NameOk obj)
    (h : applyReplace pkgs pos obj pattern (replaceAction xhp pkgs obj pattern) =
      (pkgs', pos', true)) :
    pkgs'[pos']?.map PkgDict.tags = some obj.tags := by
  have hspec := replaceAction_spec xhp pkgs obj pattern
  have hcases := applyReplace_cases pkgs pos obj pattern (replaceAction xhp pkgs obj pattern)
  rw [h] at hcases
  generalize replaceAction xhp pkgs obj pattern = action at hspec hcases
  have hdrop : ∀ d, (dropAutomaticInstall d).tags = d.tags := fun _ => rfl
  have hmark : ∀ d, (markReplaced d).tags = d.tags := fun _ => rfl
  have hdropped : ∀ drop, (dropAt pkgs pos drop)[pos]?.map PkgDict.tags = some obj.tags := by
    have htags : pkgs[pos]?.map PkgDict.tags = some obj.tags := by
      rw [hobj, Option.map_some]
    intro drop
    cases drop with
    | false => exact htags
    | true =>
      rw [dropAt, if_pos rfl, map_getElem?_modify hdrop]
      exact htags
  have hmarked : ∀ drop str,
      (markFound (dropAt pkgs pos drop) str)[pos]?.map PkgDict.tags = some obj.tags := by
    intro drop str
    rw [markFound, map_getElem?_modify hmark]
    exact hdropped drop
  cases hcases with
  | skip => exact hdropped false
  | @turned instdAuto curpkgname reppkgd _ hr hset =>
    obtain ⟨-, -, -, -, hother, -⟩ := hspec
    obtain ⟨i, hi, rfl⟩ := Option.map_eq_some_iff.mp hset
    -- the entry that is set has another name than the current one
    have hne : i ≠ pos := by
      rintro rfl
      have hfound := List.of_findIdx?_eq_some hi
      obtain ⟨cur, hcur, htag⟩ := Option.map_eq_some_iff.mp (hmarked (!instdAuto) curpkgname)
      rw [hcur] at hfound
      have hn : cur.pkgname = some curpkgname := by simpa using hfound
      exact hother (hname _ ((congrArg Prod.fst htag).symm.trans hn))
    rw [List.getElem?_set_ne hne]
    exact hmarked _ _
  | added => exact hdropped _
  | marked => exact hmarked _ _

/-- The patterns that are left are patterns of the current entry. -/
def Walk.VisitOk (w : Walk) : Prop :=
  ∀ pos left, w.done = none → w.visit = some (pos, left) →
    ∃ obj, w.pkgs[pos]? = some obj ∧ left ⊆ obj.replaces.getD []

theorem Walk.step_visitOk {xhp : Handle} {w w' : Walk} (hnames : ∀ e ∈ w.pkgs, NameOk e)
    (h : w.VisitOk) (hstep : w.step xhp = some w') : w'.VisitOk := by
  intro pos' left hdone hvisit
  rw [Walk.step] at hstep
  split at hstep
  · cases hstep
  · next hnone =>
    have hw : w.done = none := by simpa using hnone
    split at hstep
    · next hv =>
      split at hstep
      · obtain rfl := Option.some.inj hstep
        cases hdone
      · next obj hobj =>
        simp only at hstep
        split at hstep
        · obtain rfl := Option.some.inj hstep
          cases hv.symm.trans hvisit
        · split at hstep
          · obtain rfl := Option.some.inj hstep
            cases hdone
          · -- the pass comes to an entry
            obtain rfl := Option.some.inj hstep
            simp only [Option.some.injEq, Prod.mk.injEq] at hvisit
            obtain ⟨rfl, rfl⟩ := hvisit
            exact ⟨obj, hobj, fun _ hx => hx⟩
    · obtain rfl := Option.some.inj hstep
      cases hvisit
    · next pos pattern rest hv =>
      obtain ⟨obj, hobj, hleft⟩ := h pos (pattern :: rest) hw hv
      rw [hobj] at hstep
      simp only at hstep
      split at hstep
      · next pkgs pos'' happ =>
        obtain rfl := Option.some.inj hstep
        simp only [Option.some.injEq, Prod.mk.injEq] at hvisit
        obtain ⟨rfl, rfl⟩ := hvisit
        have htags := tags_applyReplace hobj (hnames obj (List.mem_of_getElem? hobj)) happ
        obtain ⟨obj', hobj', ht⟩ := Option.map_eq_some_iff.mp htags
        refine ⟨obj', hobj', fun x hx => ?_⟩
        have hr : obj'.replaces = obj.replaces := congrArg Prod.snd ht
        rw [hr]
        exact hleft (List.mem_cons_of_mem pattern hx)
      · obtain rfl := Option.some.inj hstep
        cases hdone

/-- The last step of a run. -/
theorem Walk.run_succ (xhp : Handle) :
    ∀ (n : Nat) (w : Walk),
      w.run xhp (n + 1) = ((w.run xhp n).step xhp).getD (w.run xhp n) := by
  intro n
  induction n with
  | zero =>
    intro w
    show (match w.step xhp with
      | none => w
      | some w' => w'.run xhp 0) = (w.step xhp).getD w
    cases w.step xhp with
    | none => rfl
    | some w' => rfl
  | succ n ih =>
    intro w
    rw [Walk.run]
    cases hs : w.step xhp with
    | none =>
      have hrun : w.run xhp (n + 1) = w := by rw [Walk.run, hs]
      simp only [hrun, hs, Option.getD_none]
    | some w' =>
      have hrun : w.run xhp (n + 1) = w'.run xhp n := by rw [Walk.run, hs]
      simp only [hrun]
      exact ih w'

end Flappy
