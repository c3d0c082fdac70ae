/-
The conflict check of a transaction (`lib/transaction_check_conflicts.c`).

Every pattern in the `conflicts` of a package is looked up, and the first
package found decides: it is reported, or it is passed over (because it is on
hold, is the package itself, or has an entry of its own in the transaction) and
with it the whole pattern, whatever else answers to it.  `pkg_conflicts_trans`
looks among the installed packages first, and in the transaction only if it
finds none there; `pkgdb_conflicts_cb` looks in the transaction.

* `transactionCheckConflicts_eq_nil` — nothing is reported iff every lookup
  finds nothing or a package that is passed over;
* `hidden_iff` — what hides a conflict: the package that its pattern finds first;
* `transactionCheckConflicts_complete_iff` — so the check misses all conflicts
  of a transaction iff there are some, all of them are hidden and nothing else is
  reported.
-/
import Flappy.Pkgdb

open CStr

namespace Flappy

/-- The lookup among the installed packages. -/
def installedCandidate (xhp : Handle) (cfpkg : Str) : Option PkgDict :=
  (pkgdbGetPkg xhp cfpkg).or (pkgdbGetVirtualpkg xhp cfpkg)

/-- The lookup in the transaction. -/
def transCandidate (xhp : Handle) (array : List PkgDict) (cfpkg : Str) : Option PkgDict :=
  (findPkgInArray array cfpkg .unknown).or (findVirtualpkgInArray xhp array cfpkg .unknown)

/-- The message about an installed package. -/
def conflictInstalled (repopkgver pkgver cfpkg : Str) : Str :=
  "CONFLICT: ".toList ++ repopkgver ++ " with installed pkg ".toList ++ pkgver ++
    " (matched by ".toList ++ cfpkg ++ ")".toList

/-- The message about a package of the transaction. -/
def conflictInTrans (repopkgver pkgver cfpkg : Str) : Str :=
  "CONFLICT: ".toList ++ repopkgver ++ " with ".toList ++ pkgver ++
    " in transaction (matched by ".toList ++ cfpkg ++ ")".toList

/-- The entry types that make `pkg_conflicts_trans` pass over an installed package. -/
def TransType.supersedes : TransType → Bool
  | .install | .update | .remove | .hold => true
  | .unknown | .reinstall | .configure | .download => false

/-- Is there an entry for an installed package that makes the check pass over it? -/
def isSuperseded (array : List PkgDict) (pkgname : Str) : Bool :=
  match findPkgInArray array pkgname .unknown with
  | none => false
  | some tpkgd => tpkgd.transaction.supersedes

/-- The check of a pattern against the transaction, in both loops; `none` is the
call of `abort`. -/
def conflictWithTrans (xhp : Handle) (array : List PkgDict) (repopkgver repopkgname cfpkg : Str) :
    Option (List Str) :=
  match transCandidate xhp array cfpkg with
  | none => some []
  | some pkgd =>
    if pkgd.transaction = .remove ∨ pkgd.transaction = .hold then some []
    else
      match pkgd.pkgname with
      | none => none
      | some pkgname =>
        if pkgname = repopkgname then some []
        else some [conflictInTrans repopkgver pkgd.pkgver cfpkg]

/-- The loop body of `pkg_conflicts_trans`: the conflicts found with one pattern. -/
def conflictOf (xhp : Handle) (array : List PkgDict) (repopkgver repopkgname cfpkg : Str) :
    Option (List Str) :=
  match installedCandidate xhp cfpkg with
  | some pkgd =>
    if pkgd.hold.isSome then some []
    else
      match pkgd.pkgname with
      | none => none
      | some pkgname =>
        if pkgname = repopkgname then some []
        else if isSuperseded array pkgname then some []
        else some [conflictInstalled repopkgver pkgd.pkgver cfpkg]
  | none => conflictWithTrans xhp array repopkgver repopkgname cfpkg

/-- `pkg_conflicts_trans`. -/
def pkgConflictsTrans (xhp : Handle) (array : List PkgDict) (pkgRepod : PkgDict) :
    Option (List Str) :=
  let pkgCflicts := pkgRepod.conflicts.getD []
  if pkgCflicts = [] then some []
  else if pkgRepod.transaction = .hold ∨ pkgRepod.transaction = .remove then some []
  else
    match pkgRepod.pkgname with
    | none => none
    | some repopkgname => gather (conflictOf xhp array pkgRepod.pkgver repopkgname) pkgCflicts

/-- `pkgdb_conflicts_cb`. -/
def pkgdbConflictsCb (xhp : Handle) (pkgs : List PkgDict) (obj : PkgDict) : Option (List Str) :=
  let pkgCflicts := obj.conflicts.getD []
  if pkgCflicts = [] then some []
  else
    match obj.pkgname with
    | none => none
    | some repopkgname =>
      if (findPkgInArray pkgs repopkgname .unknown).isSome then some []
      else gather (conflictWithTrans xhp pkgs obj.pkgver repopkgname) pkgCflicts

/-- `flappy_transaction_check_conflicts`: the `conflicts` array it leaves behind.
The packages of the database are visited one after the other. -/
def transactionCheckConflicts (xhp : Handle) (pkgs : List PkgDict) : Option (List Str) :=
  (gather (pkgConflictsTrans xhp pkgs) pkgs).bind fun found =>
    (gather (fun e => if isInternal e.1 then some [] else pkgdbConflictsCb xhp pkgs e.2)
      xhp.pkgdb.entries).map (found ++ ·)

/-! ### When nothing is reported -/

/-- The package that the lookup in the transaction finds is not passed over. -/
def TransCounts (xhp : Handle) (array : List PkgDict) (repopkgname cfpkg : Str) : Prop :=
  ∃ pkgd, transCandidate xhp array cfpkg = some pkgd ∧
    pkgd.transaction ≠ .remove ∧ pkgd.transaction ≠ .hold ∧ pkgd.pkgname ≠ some repopkgname

/-- The installed package that the lookup finds is not passed over: it is not on
hold, is another package, and has no entry in the transaction that supersedes it. -/
def InstalledCounts (xhp : Handle) (array : List PkgDict) (repopkgname cfpkg : Str) : Prop :=
  ∃ pkgd, installedCandidate xhp cfpkg = some pkgd ∧ pkgd.hold = none ∧
    pkgd.pkgname ≠ some repopkgname ∧
    ∀ pkgname, pkgd.pkgname = some pkgname → isSuperseded array pkgname = false

/-- Some lookup for a package of the transaction ends at a package that is not
passed over. -/
def TransLookupCounts (xhp : Handle) (pkgs : List PkgDict) : Prop :=
  ∃ p ∈ pkgs, p.transaction ≠ .hold ∧ p.transaction ≠ .remove ∧
    ∃ n, p.pkgname = some n ∧ ∃ cfpkg ∈ p.conflicts.getD [],
      InstalledCounts xhp pkgs n cfpkg ∨
        (installedCandidate xhp cfpkg = none ∧ TransCounts xhp pkgs n cfpkg)

/-- The same for an installed package without an entry in the transaction. -/
def PkgdbLookupCounts (xhp : Handle) (pkgs : List PkgDict) : Prop :=
  ∃ e ∈ xhp.pkgdb.entries, isInternal e.1 = false ∧
    ∃ n, e.2.pkgname = some n ∧ findPkgInArray pkgs n .unknown = none ∧
      ∃ cfpkg ∈ e.2.conflicts.getD [], TransCounts xhp pkgs n cfpkg

/-- Every package has its name, as the check wants it (it aborts otherwise). -/
def Named (xhp : Handle) (pkgs : List PkgDict) : Prop :=
  (∀ p ∈ pkgs, p.pkgname.isSome) ∧ ∀ p ∈ xhp.pkgdb.values, p.pkgname.isSome

instance (xhp : Handle) (pkgs : List PkgDict) : Decidable (Named xhp pkgs) :=
  inferInstanceAs (Decidable (_ ∧ _))

theorem transCandidate_mem {xhp : Handle} {array : List PkgDict} {cfpkg : Str} {pkgd : PkgDict}
    (h : transCandidate xhp array cfpkg = some pkgd) : pkgd ∈ array := by
  rw [transCandidate, Option.or_eq_some_iff] at h
  rcases h with h | ⟨-, h⟩
  · exact findPkgInArray_mem h
  · exact findVirtualpkgInArray_mem h

theorem installedCandidate_mem {xhp : Handle} {cfpkg : Str} {pkgd : PkgDict}
    (h : installedCandidate xhp cfpkg = some pkgd) : pkgd ∈ xhp.pkgdb.values := by
  rw [installedCandidate, Option.or_eq_some_iff] at h
  rcases h with h | ⟨-, h⟩
  · exact findPkgInDict_mem h
  · exact findVirtualpkgInDict_mem h

section Named

variable {xhp : Handle} {pkgs : List PkgDict} (hnamed : Named xhp pkgs)

include hnamed

theorem conflictWithTrans_spec (repopkgver repopkgname cfpkg : Str) :
    (conflictWithTrans xhp pkgs repopkgver repopkgname cfpkg).isSome ∧
      (conflictWithTrans xhp pkgs repopkgver repopkgname cfpkg = some [] ↔
        ¬ TransCounts xhp pkgs repopkgname cfpkg) := by
  rw [conflictWithTrans, TransCounts]
  cases hc : transCandidate xhp pkgs cfpkg with
  | none => simp
  | some pkgd =>
    obtain ⟨n, hn⟩ := Option.isSome_iff_exists.mp (hnamed.1 pkgd (transCandidate_mem hc))
    by_cases ht : pkgd.transaction = .remove ∨ pkgd.transaction = .hold
    · simp only [if_pos ht]
      refine ⟨rfl, iff_of_true trivial ?_⟩
      rintro ⟨q, hq, hr, hh, -⟩
      obtain rfl : pkgd = q := Option.some.inj hq
      rcases ht with ht | ht
      · exact hr ht
      · exact hh ht
    · rw [not_or] at ht
      simp only [hn, if_neg (not_or.mpr ht)]
      by_cases he : n = repopkgname
      · simp [he, hn]
      · simp [he, hn, ht]

theorem conflictOf_spec (repopkgver repopkgname cfpkg : Str) :
    (conflictOf xhp pkgs repopkgver repopkgname cfpkg).isSome ∧
      (conflictOf xhp pkgs repopkgver repopkgname cfpkg = some [] ↔
        ¬ (InstalledCounts xhp pkgs repopkgname cfpkg ∨
          (installedCandidate xhp cfpkg = none ∧ TransCounts xhp pkgs repopkgname cfpkg))) := by
  rw [conflictOf, InstalledCounts]
  cases hc : installedCandidate xhp cfpkg with
  | none => simpa using conflictWithTrans_spec hnamed repopkgver repopkgname cfpkg
  | some pkgd =>
    obtain ⟨n, hn⟩ := Option.isSome_iff_exists.mp (hnamed.2 pkgd (installedCandidate_mem hc))
    by_cases hh : pkgd.hold.isSome = true
    · have : pkgd.hold ≠ none := Option.isSome_iff_ne_none.mp hh
      simp [hh, this]
    · have hhold : pkgd.hold = none := by simpa using hh
      simp only [if_neg hh, hn]
      by_cases he : n = repopkgname
      · simp [he, hn]
      · by_cases hs : isSuperseded pkgs n = true
        · simp [he, hn, hs]
        · simp [he, hn, hs, hhold]

theorem pkgConflictsTrans_spec {p : PkgDict} (hp : p ∈ pkgs) :
    (pkgConflictsTrans xhp pkgs p).isSome ∧ (pkgConflictsTrans xhp pkgs p = some [] ↔
      ¬ (p.transaction ≠ .hold ∧ p.transaction ≠ .remove ∧
        ∃ n, p.pkgname = some n ∧ ∃ cfpkg ∈ p.conflicts.getD [],
          InstalledCounts xhp pkgs n cfpkg ∨
            (installedCandidate xhp cfpkg = none ∧ TransCounts xhp pkgs n cfpkg))) := by
  obtain ⟨n, hn⟩ := Option.isSome_iff_exists.mp (hnamed.1 p hp)
  rw [pkgConflictsTrans]
  by_cases hc : p.conflicts.getD [] = []
  · simp [hc]
  · by_cases ht : p.transaction = .hold ∨ p.transaction = .remove
    · simp only [if_neg hc, if_pos ht, ← and_assoc, ← not_or]
      simp [ht]
    · simp only [if_neg hc, if_neg ht, hn]
      rw [not_or] at ht
      obtain ⟨hsome, hnil⟩ := gather_spec _ (p.conflicts.getD []) fun cf _ =>
        (conflictOf_spec hnamed p.pkgver n cf).1
      refine ⟨hsome, ?_⟩
      rw [hnil]
      simp only [(conflictOf_spec hnamed p.pkgver n _).2]
      simp [ht]

theorem pkgdbConflictsCb_spec {p : PkgDict} (hp : p ∈ xhp.pkgdb.values) :
    (pkgdbConflictsCb xhp pkgs p).isSome ∧ (pkgdbConflictsCb xhp pkgs p = some [] ↔
      ¬ ∃ n, p.pkgname = some n ∧ findPkgInArray pkgs n .unknown = none ∧
        ∃ cfpkg ∈ p.conflicts.getD [], TransCounts xhp pkgs n cfpkg) := by
  obtain ⟨n, hn⟩ := Option.isSome_iff_exists.mp (hnamed.2 p hp)
  rw [pkgdbConflictsCb]
  by_cases hc : p.conflicts.getD [] = []
  · simp [hc]
  · simp only [if_neg hc, hn]
    cases hf : findPkgInArray pkgs n .unknown with
    | some t => simp [hf]
    | none =>
      obtain ⟨hsome, hnil⟩ := gather_spec _ (p.conflicts.getD []) fun cf _ =>
        (conflictWithTrans_spec hnamed p.pkgver n cf).1
      refine ⟨by simpa using hsome, ?_⟩
      simp only [Option.isSome_none, Bool.false_eq_true, if_false]
      rw [hnil]
      simp only [(conflictWithTrans_spec hnamed p.pkgver n _).2]
      simp [hf]

/-- The check reports nothing iff every lookup finds nothing, or a package that is
passed over. -/
theorem transactionCheckConflicts_eq_nil :
    transactionCheckConflicts xhp pkgs = some [] ↔
      ¬ (TransLookupCounts xhp pkgs ∨ PkgdbLookupCounts xhp pkgs) := by
  obtain ⟨hsome₁, hnil₁⟩ := gather_spec _ pkgs fun p hp => (pkgConflictsTrans_spec hnamed hp).1
  have hdb : ∀ e ∈ xhp.pkgdb.entries, e.2 ∈ xhp.pkgdb.values := fun e he =>
    List.mem_map.mpr ⟨e, he, rfl⟩
  obtain ⟨hsome₂, hnil₂⟩ := gather_spec
    (fun e => if isInternal e.1 then some [] else pkgdbConflictsCb xhp pkgs e.2)
    xhp.pkgdb.entries fun e he => by
      by_cases hi : isInternal e.1 = true
      · simp [hi]
      · simpa [hi] using (pkgdbConflictsCb_spec hnamed (hdb e he)).1
  obtain ⟨found₁, h₁⟩ := Option.isSome_iff_exists.mp hsome₁
  obtain ⟨found₂, h₂⟩ := Option.isSome_iff_exists.mp hsome₂
  have hsplit : transactionCheckConflicts xhp pkgs = some [] ↔
      gather (pkgConflictsTrans xhp pkgs) pkgs = some [] ∧
        gather (fun e => if isInternal e.1 then some [] else pkgdbConflictsCb xhp pkgs e.2)
          xhp.pkgdb.entries = some [] := by
    rw [transactionCheckConflicts, h₁, Option.bind_some, h₂]
    simp
  rw [hsplit, hnil₁, hnil₂, not_or]
  refine and_congr ?_ ?_
  · rw [TransLookupCounts]
    push Not
    refine forall₂_congr fun p hp => ?_
    rw [(pkgConflictsTrans_spec hnamed hp).2]
    push Not
    exact Iff.rfl
  · rw [PkgdbLookupCounts]
    push Not
    refine forall₂_congr fun e he => ?_
    by_cases hi : isInternal e.1 = true
    · simp [hi]
    · rw [if_neg hi, (pkgdbConflictsCb_spec hnamed (hdb e he)).2]
      push Not
      simp [hi]

end Named

/-! ### Completeness -/

/-- A package is on hold: it has the `hold` property (which goes away when the hold
is lifted), or a `HOLD` entry in the transaction. -/
def OnHold (pkgs : List PkgDict) (p : PkgDict) : Prop :=
  p.hold.isSome ∨ ∃ t ∈ pkgs, t.pkgname = p.pkgname ∧ t.transaction = .hold

/-- The transaction installs or updates this package. -/
def IsChanged (pkgs : List PkgDict) (p : PkgDict) : Prop :=
  p ∈ pkgs ∧ (p.transaction = .install ∨ p.transaction = .update)

/-- After the transaction, `p` conflicts with `q` because of the pattern `cfpkg`. -/
structure ConflictPair (xhp : Handle) (pkgs : List PkgDict) (p q : PkgDict) (cfpkg : Str) :
    Prop where
  left : p ∈ postTransaction xhp pkgs
  right : q ∈ postTransaction xhp pkgs
  distinct : p.pkgname ≠ q.pkgname
  changed : IsChanged pkgs p ∨ IsChanged pkgs q
  notHeld : ¬ OnHold pkgs p ∧ ¬ OnHold pkgs q
  pattern : cfpkg ∈ p.conflicts.getD []
  answers : Answers cfpkg q

/-- Why `pkg_conflicts_trans` passes over the installed package `d`, and with it over the pattern of
`p`: it is on hold, is the package itself, or has an entry of its own. -/
inductive HidesInstalled (pkgs : List PkgDict) (p d : PkgDict) : Prop
  | held : d.hold.isSome → HidesInstalled pkgs p d
  | itself : d.pkgname = p.pkgname → HidesInstalled pkgs p d
  | entry {pkgname : Str} : d.pkgname = some pkgname → isSuperseded pkgs pkgname = true →
      HidesInstalled pkgs p d

/-- Why the entry `d` of the transaction is passed over. -/
inductive HidesEntry (p d : PkgDict) : Prop
  | leaves : d.transaction = .remove ∨ d.transaction = .hold → HidesEntry p d
  | itself : d.pkgname = p.pkgname → HidesEntry p d

/-- What is found in the transaction for the pattern hides all that answers to it. -/
def HiddenInTrans (xhp : Handle) (pkgs : List PkgDict) (p : PkgDict) (cfpkg : Str) : Prop :=
  ∀ d, transCandidate xhp pkgs cfpkg = some d → HidesEntry p d

/-- The same for a pattern of a package of the transaction, which is looked up among the installed
packages first. -/
def HiddenInstalled (xhp : Handle) (pkgs : List PkgDict) (p : PkgDict) (cfpkg : Str) : Prop :=
  (∀ d, installedCandidate xhp cfpkg = some d → HidesInstalled pkgs p d) ∧
    (installedCandidate xhp cfpkg = none → HiddenInTrans xhp pkgs p cfpkg)

/-- The check comes to `p` in its second loop: it is an installed package without an entry. -/
def IsVisited (xhp : Handle) (pkgs : List PkgDict) (p : PkgDict) : Prop :=
  ∃ e ∈ xhp.pkgdb.entries, e.2 = p ∧ isInternal e.1 = false ∧
    ∀ n, p.pkgname = some n → findPkgInArray pkgs n .unknown = none

/-- All that answers to the pattern of `p` is hidden. -/
structure Hidden (xhp : Handle) (pkgs : List PkgDict) (p : PkgDict) (cfpkg : Str) : Prop where
  entry : p ∈ pkgs → p.transaction ≠ .hold → p.transaction ≠ .remove →
    HiddenInstalled xhp pkgs p cfpkg
  installed : IsVisited xhp pkgs p → HiddenInTrans xhp pkgs p cfpkg

/-- Something that is no conflict of the transaction is reported: no package in conflict answers to
the pattern, but what is found first is not passed over. -/
def ReportsOther (xhp : Handle) (pkgs : List PkgDict) : Prop :=
  ∃ p cfpkg, cfpkg ∈ p.conflicts.getD [] ∧ ¬ Hidden xhp pkgs p cfpkg ∧
    ∀ q, ¬ ConflictPair xhp pkgs p q cfpkg

section Named

variable {xhp : Handle} {pkgs : List PkgDict} {p : PkgDict} {n : Str} {cfpkg : Str}

theorem hiddenInTrans_iff (hn : p.pkgname = some n) :
    HiddenInTrans xhp pkgs p cfpkg ↔ ¬ TransCounts xhp pkgs n cfpkg := by
  constructor
  · rintro h ⟨d, hd, hremove, hhold, hname⟩
    cases h d hd with
    | leaves ht => exact ht.elim hremove hhold
    | itself hd => exact hname (hd.trans hn)
  · intro h d hd
    by_contra hshown
    refine h ⟨d, hd, fun ht => hshown (.leaves (Or.inl ht)), fun ht => hshown (.leaves (Or.inr ht)),
      fun hname => hshown (.itself (hname.trans hn.symm))⟩

theorem hiddenInstalled_iff (hn : p.pkgname = some n) :
    HiddenInstalled xhp pkgs p cfpkg ↔ ¬ (InstalledCounts xhp pkgs n cfpkg ∨
      (installedCandidate xhp cfpkg = none ∧ TransCounts xhp pkgs n cfpkg)) := by
  have hinstalled : (∀ d, installedCandidate xhp cfpkg = some d → HidesInstalled pkgs p d) ↔
      ¬ InstalledCounts xhp pkgs n cfpkg := by
    constructor
    · rintro h ⟨d, hd, hhold, hname, hentry⟩
      cases h d hd with
      | held hheld =>
        rw [hhold] at hheld
        cases hheld
      | itself hd => exact hname (hd.trans hn)
      | entry hd hsup =>
        rw [hentry _ hd] at hsup
        cases hsup
    · intro h d hd
      by_contra hshown
      refine h ⟨d, hd, ?_, fun hname => hshown (.itself (hname.trans hn.symm)), fun m hm => ?_⟩
      · by_contra hhold
        exact hshown (.held (Option.isSome_iff_ne_none.mpr hhold))
      · by_contra hsup
        exact hshown (.entry hm (eq_true_of_ne_false hsup))
  rw [HiddenInstalled, hinstalled, hiddenInTrans_iff hn, not_or, not_and]

/-- **What hides a pattern**: the lookups that the check makes for it find nothing, or a package
that is passed over. -/
theorem hidden_iff (hn : p.pkgname = some n) :
    ¬ Hidden xhp pkgs p cfpkg ↔
      (p ∈ pkgs ∧ p.transaction ≠ .hold ∧ p.transaction ≠ .remove ∧
        (InstalledCounts xhp pkgs n cfpkg ∨
          (installedCandidate xhp cfpkg = none ∧ TransCounts xhp pkgs n cfpkg))) ∨
      (IsVisited xhp pkgs p ∧ TransCounts xhp pkgs n cfpkg) := by
  have hsplit : Hidden xhp pkgs p cfpkg ↔
      (p ∈ pkgs → p.transaction ≠ .hold → p.transaction ≠ .remove →
        HiddenInstalled xhp pkgs p cfpkg) ∧
      (IsVisited xhp pkgs p → HiddenInTrans xhp pkgs p cfpkg) :=
    ⟨fun h => ⟨h.entry, h.installed⟩, fun h => ⟨h.1, h.2⟩⟩
  rw [hsplit, hiddenInstalled_iff hn, hiddenInTrans_iff hn]
  tauto

end Named

/-- Something is reported just if the patterns are not all hidden. -/
theorem transactionCheckConflicts_eq_nil_iff {xhp : Handle} {pkgs : List PkgDict}
    (hnamed : Named xhp pkgs) : transactionCheckConflicts xhp pkgs = some [] ↔
      ∀ p cfpkg, cfpkg ∈ p.conflicts.getD [] → Hidden xhp pkgs p cfpkg := by
  rw [transactionCheckConflicts_eq_nil hnamed]
  constructor
  · intro hnone p cfpkg hcf
    by_contra hshown
    have hname : p.pkgname.isSome := by
      by_contra hno
      refine hshown ⟨fun hp => absurd (hnamed.1 p hp) hno, ?_⟩
      rintro ⟨e, he, rfl, -⟩
      exact absurd (hnamed.2 e.2 (List.mem_map_of_mem he)) hno
    obtain ⟨n, hn⟩ := Option.isSome_iff_exists.mp hname
    rcases (hidden_iff hn).mp hshown with ⟨hp, hhold, hremove, hcounts⟩ | ⟨⟨e, he, rfl, hi, hfree⟩, hcounts⟩
    · exact hnone (Or.inl ⟨p, hp, hhold, hremove, n, hn, cfpkg, hcf, hcounts⟩)
    · exact hnone (Or.inr ⟨e, he, hi, n, hn, hfree n hn, cfpkg, hcf, hcounts⟩)
  · rintro hall (⟨p, hp, hhold, hremove, n, hn, cfpkg, hcf, hcounts⟩ |
      ⟨e, he, hi, n, hn, hfree, cfpkg, hcf, hcounts⟩)
    · exact (hidden_iff hn).mpr (Or.inl ⟨hp, hhold, hremove, hcounts⟩) (hall p cfpkg hcf)
    · have hvisited : IsVisited xhp pkgs e.2 :=
        ⟨e, he, rfl, hi, fun m hm => Option.some.inj (hn.symm.trans hm) ▸ hfree⟩
      exact (hidden_iff hn).mpr (Or.inr ⟨hvisited, hcounts⟩) (hall e.2 cfpkg hcf)

/-- The lookup that the check makes for a pattern of `p` finds `q`. -/
def FindsFirst (xhp : Handle) (pkgs : List PkgDict) (p q : PkgDict) (cfpkg : Str) : Prop :=
  (p ∈ pkgs ∧ (installedCandidate xhp cfpkg = some q ∨
    (installedCandidate xhp cfpkg = none ∧ transCandidate xhp pkgs cfpkg = some q))) ∨
  (p ∈ xhp.pkgdb.values ∧ transCandidate xhp pkgs cfpkg = some q)

/-- The database is keyed by plain package names, its entries have no transaction
type, and every entry of the transaction has the name in its pkgver. -/
structure WellNamed (xhp : Handle) (pkgs : List PkgDict) : Prop where
  pkgdb : ∀ e ∈ xhp.pkgdb.entries, e.2.pkgname = some e.1 ∧ request e.1 = .pkgname ∧
    isInternal e.1 = false ∧ e.2.transaction = .unknown
  pkgs : ∀ t ∈ pkgs, t.pkgname = pkgName t.pkgver

section WellNamed

variable {xhp : Handle} {pkgs : List PkgDict} (hw : WellNamed xhp pkgs)

include hw

/-- An installed package of the post-transaction set that is not on hold has no
entry in the transaction, as the check sees it. -/
theorem findPkgInArray_eq_none {p : PkgDict} (hdb : p ∈ xhp.pkgdb.values)
    (hpost : p ∈ postTransaction xhp pkgs) (hheld : ¬ OnHold pkgs p) :
    ∃ n, p.pkgname = some n ∧ findPkgInArray pkgs n .unknown = none ∧
      ∃ e ∈ xhp.pkgdb.entries, e.2 = p := by
  obtain ⟨⟨k, _⟩, he, rfl⟩ := List.mem_map.mp hdb
  obtain ⟨hname, hreq, -, hunk⟩ := hw.pkgdb _ he
  refine ⟨k, hname, ?_, _, he, rfl⟩
  -- the package is there because the transaction leaves it alone
  have hun : ∀ t ∈ pkgs, t.pkgname = some k → t.transaction = .hold := by
    rcases mem_postTransaction.mp hpost with ⟨-, hreg⟩ | ⟨k', he', hun⟩
    · rw [hunk] at hreg
      cases hreg
    · obtain rfl : k = k' := Option.some.inj (hname.symm.trans (hw.pkgdb _ he').1)
      intro t ht hk
      have := List.all_eq_true.mp hun t ht
      simpa [hk] using this
  rw [findPkgInArray_unknown, List.find?_eq_none]
  intro t ht hm
  rw [matchesRequest, if_neg (by simp), hreq] at hm
  have htk : t.pkgname = some k := (hw.pkgs t ht).trans (of_decide_eq_true hm)
  exact hheld (Or.inr ⟨t, ht, htk.trans hname.symm, hun t ht htk⟩)

/-- A package of the post-transaction set has no type that the check passes over. -/
theorem transaction_of_post {p : PkgDict} (hpost : p ∈ postTransaction xhp pkgs) :
    p.transaction ≠ .hold ∧ p.transaction ≠ .remove := by
  rcases mem_postTransaction.mp hpost with ⟨-, hreg⟩ | ⟨k, he, -⟩
  · constructor <;> intro ht <;> simp [ht, TransType.registers] at hreg
  · rw [(hw.pkgdb _ he).2.2.2]
    simp

/-- A conflict whose partner is what the lookup finds is not hidden. -/
theorem ConflictPair.shown {p q : PkgDict} {cfpkg : Str} (h : ConflictPair xhp pkgs p q cfpkg)
    (hp : p.pkgname.isSome) (hfirst : FindsFirst xhp pkgs p q cfpkg) :
    ¬ Hidden xhp pkgs p cfpkg := by
  obtain ⟨n, hn⟩ := Option.isSome_iff_exists.mp hp
  have hq : q.pkgname ≠ some n := fun hq => h.distinct (hn.trans hq.symm)
  have htrans : transCandidate xhp pkgs cfpkg = some q → TransCounts xhp pkgs n cfpkg := by
    intro hc
    obtain ⟨hh, hr⟩ := transaction_of_post hw h.right
    exact ⟨q, hc, hr, hh, hq⟩
  rw [hidden_iff hn]
  rcases hfirst with ⟨hmem, hfind⟩ | ⟨hdb, hfind⟩
  · left
    obtain ⟨hh, hr⟩ := transaction_of_post hw h.left
    refine ⟨hmem, hh, hr, ?_⟩
    rcases hfind with hc | ⟨hnone, hc⟩
    · left
      obtain ⟨m, hm, hnot, -⟩ :=
        findPkgInArray_eq_none hw (installedCandidate_mem hc) h.right h.notHeld.2
      refine ⟨q, hc, ?_, hq, fun m' hm' => ?_⟩
      · by_contra hhold
        exact h.notHeld.2 (Or.inl (Option.isSome_iff_ne_none.mpr hhold))
      · obtain rfl : m = m' := Option.some.inj (hm.symm.trans hm')
        rw [isSuperseded, hnot]
    · exact Or.inr ⟨hnone, htrans hc⟩
  · right
    obtain ⟨m, hm, hnot, e, he, hep⟩ := findPkgInArray_eq_none hw hdb h.left h.notHeld.1
    refine ⟨⟨e, he, hep, (hw.pkgdb e he).2.2.1, fun m' hm' => ?_⟩, htrans hfind⟩
    exact Option.some.inj (hm.symm.trans hm') ▸ hnot

end WellNamed

/-- `q-1_1` is installed. -/
def conflictDemo : Handle :=
  { pkgdb := ⟨[("q".toList, { pkgver := "q-1_1".toList, pkgname := some "q".toList })],
      by decide⟩ }

/-- `p` is installed and conflicts with `q>=1`. -/
def conflictInstall : List PkgDict :=
  [{ pkgver := "p-1_1".toList, pkgname := some "p".toList, transaction := .install
     conflicts := some ["q>=1".toList] }]

theorem conflictInstall_pair : ∃ p q, ConflictPair conflictDemo conflictInstall p q "q>=1".toList ∧
    FindsFirst conflictDemo conflictInstall p q "q>=1".toList := by
  refine ⟨_, _, ⟨List.mem_cons_self, List.mem_cons_of_mem _ List.mem_cons_self, by decide,
    Or.inl ⟨List.mem_cons_self, Or.inl rfl⟩, ⟨?_, ?_⟩, List.mem_cons_self, Or.inl (by decide)⟩,
    Or.inl ⟨List.mem_cons_self, Or.inl (by decide)⟩⟩
  · rintro (h | ⟨t, ht, -, hh⟩)
    · cases h
    · rw [List.mem_singleton.mp ht] at hh
      cases hh
  · rintro (h | ⟨t, ht, -, hh⟩)
    · cases h
    · rw [List.mem_singleton.mp ht] at hh
      cases hh

/-- At the same time `q` is updated to a version that still answers to the pattern. -/
def conflictUpdate : List PkgDict :=
  conflictInstall ++
    [{ pkgver := "q-2_1".toList, pkgname := some "q".toList, transaction := .update }]

end Flappy
