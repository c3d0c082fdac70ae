/-
Registering packages (`lib/package_register.c`, and what
`lib/transaction_commit.c` and `lib/package_remove.c` do to the package
database).

The loop of a commit takes the entries in order.  An entry that is removed loses
its record, an entry that is unpacked gets a new one, which is a copy of the
entry.  What happens to files and scripts is a parameter: for every entry it may
fail, and then the commit ends.

* `get_commitLoop` — a package that is only updated or reinstalled ends up with the
  record that one of those entries gives it.
-/
import Flappy.Ops

open CStr

namespace Flappy

/-- What the outside gives to a commit. -/
structure CommitEnv where
  /-- The error that removing or unpacking the files of an entry ends with. -/
  filesError : PkgDict → Option Errno := fun _ => none
  /-- The time as text, if it can be formatted. -/
  installDate : Option Str
  /-- The hash of a package's metafile, if there is one. -/
  metafileSha256 : Str → Option Str := fun _ => none

/-- Remove self replacement when applicable. -/
def dropSelfReplaces (pkgname : Str) (replaces : List Str) : Option (List Str) :=
  let replaces := removeStringFromArray replaces (selfReplaced pkgname)
  if replaces = [] then none else some replaces

/-- The record of a package: its entry, with the date and the hash and without what only a
transaction needs. -/
def registeredDict (env : CommitEnv) (flags : Flags) (pkgrd : PkgDict) (pkgname : Str) :
    PkgDict :=
  { pkgrd with
    repository := if flags.installRepro then none else pkgrd.repository
    installDate := if flags.installRepro then pkgrd.installDate else env.installDate
    metafileSha256 := (env.metafileSha256 pkgname).or pkgrd.metafileSha256
    replaces := pkgrd.replaces.bind (dropSelfReplaces pkgname)
    removeAndUpdate := none
    transaction := .unknown
    pkgname := none }

/-- `flappy_register_pkg`. -/
def registerPkg (env : CommitEnv) (xhp : Handle) (pkgrd : PkgDict) : Except Rv Handle :=
  if xhp.flags.installRepro = false ∧ env.installDate = none then .error (.err .einval)
  else
    match pkgrd.pkgname with
    -- no entry of a transaction is without; the source would read an unset pointer
    | none => .error .abort
    | some pkgname =>
      .ok { xhp with pkgdb := xhp.pkgdb.set pkgname (registeredDict env xhp.flags pkgrd pkgname) }

/-- What `flappy_remove_pkg` does to the database. -/
def removePkg (env : CommitEnv) (xhp : Handle) (obj : PkgDict) (update : Bool) :
    Except Rv Handle :=
  match pkgName obj.pkgver with
  | none => .error .abort
  | some pkgname =>
    match pkgdbGetPkg xhp pkgname with
    | none => .error (.err .enoent)
    | some pkgd =>
      match pkgd.state, env.filesError obj with
      | none, _ => .error (.err .einval)
      | some _, some e => .error (.err e)
      | some state, none =>
        -- a package that was half removed is removed fully, also by an update
        if state ≠ .halfRemoved ∧ update = true then .ok xhp
        else .ok { xhp with pkgdb := xhp.pkgdb.erase pkgname }

/-- Unpack an entry and register it. -/
def commitUnpack (env : CommitEnv) (xhp : Handle) (obj : PkgDict) : Except Rv Handle :=
  match env.filesError obj with
  | some e => .error (.err e)
  | none => registerPkg env xhp { obj with state := some .unpacked }

/-- The body of the loop of `flappy_transaction_commit`. -/
def commitEntry (env : CommitEnv) (xhp : Handle) (obj : PkgDict) : Except Rv Handle :=
  match obj.transaction with
  | .remove =>
    if obj.replaced = some true ∧ (obj.pkgname.bind (pkgdbGetPkg xhp)).isNone then .ok xhp
    else removePkg env xhp obj (obj.removeAndUpdate.getD false)
  | .update => (removePkg env xhp obj true).bind fun xhp => commitUnpack env xhp obj
  | .configure | .hold => .ok xhp
  | .install | .reinstall | .download | .unknown => commitUnpack env xhp obj

/-- The loop of `flappy_transaction_commit` over the entries, as far as the package database
is concerned. -/
def commitLoop (env : CommitEnv) : Handle → List PkgDict → Except Rv Handle
  | xhp, [] => .ok xhp
  | xhp, obj :: pkgs => (commitEntry env xhp obj).bind fun xhp => commitLoop env xhp pkgs

/-! ### The record of a package that is updated -/

/-- Does the commit change the record of the package `n` for this entry? -/
def Touches (n : Str) (e : PkgDict) : Prop :=
  e.transaction ≠ .configure ∧ e.transaction ≠ .hold ∧
    (pkgName e.pkgver = some n ∨ e.pkgname = some n)

instance (n : Str) (e : PkgDict) : Decidable (Touches n e) :=
  inferInstanceAs (Decidable (_ ∧ _ ∧ _))

theorem bind_eq_ok {α β : Type} {x : Except Rv α} {f : α → Except Rv β} {b : β}
    (h : x.bind f = .ok b) : ∃ a, x = .ok a ∧ f a = .ok b := by
  cases x with
  | error e => cases h
  | ok a => exact ⟨a, rfl, h⟩

theorem registerPkg_spec {env : CommitEnv} {xhp xhp' : Handle} {pkgrd : PkgDict}
    (h : registerPkg env xhp pkgrd = .ok xhp') :
    xhp'.flags = xhp.flags ∧ ∃ pkgname, pkgrd.pkgname = some pkgname ∧
      xhp'.pkgdb = xhp.pkgdb.set pkgname (registeredDict env xhp.flags pkgrd pkgname) := by
  rw [registerPkg] at h
  split at h
  · cases h
  · split at h
    · cases h
    · next pkgname hn =>
      obtain rfl := Except.ok.inj h
      exact ⟨rfl, pkgname, hn, rfl⟩

theorem removePkg_spec {env : CommitEnv} {xhp xhp' : Handle} {obj : PkgDict} {update : Bool}
    (h : removePkg env xhp obj update = .ok xhp') :
    xhp'.flags = xhp.flags ∧ ∀ n, pkgName obj.pkgver ≠ some n →
      xhp'.pkgdb.get n = xhp.pkgdb.get n := by
  rw [removePkg] at h
  split at h
  · cases h
  · next pkgname hn =>
    split at h
    · cases h
    · split at h
      · cases h
      · cases h
      · split at h
        · obtain rfl := Except.ok.inj h
          exact ⟨rfl, fun _ _ => rfl⟩
        · obtain rfl := Except.ok.inj h
          refine ⟨rfl, fun n hne => Dict.get_erase_ne _ ?_⟩
          rintro rfl
          exact hne hn

theorem commitUnpack_spec {env : CommitEnv} {xhp xhp' : Handle} {obj : PkgDict}
    (h : commitUnpack env xhp obj = .ok xhp') :
    xhp'.flags = xhp.flags ∧ ∃ pkgname, obj.pkgname = some pkgname ∧
      xhp'.pkgdb = xhp.pkgdb.set pkgname
        (registeredDict env xhp.flags { obj with state := some .unpacked } pkgname) := by
  rw [commitUnpack] at h
  split at h
  · cases h
  · exact registerPkg_spec h

/-- An entry for another package leaves the record alone. -/
theorem commitEntry_frame {env : CommitEnv} {xhp xhp' : Handle} {obj : PkgDict} {n : Str}
    (h : commitEntry env xhp obj = .ok xhp') (hn : ¬ Touches n obj) :
    xhp'.flags = xhp.flags ∧ xhp'.pkgdb.get n = xhp.pkgdb.get n := by
  -- an entry that is not passed over has another name
  have hother : obj.transaction ≠ .configure → obj.transaction ≠ .hold →
      pkgName obj.pkgver ≠ some n ∧ obj.pkgname ≠ some n := fun hc hh =>
    ⟨fun hp => hn ⟨hc, hh, Or.inl hp⟩, fun hp => hn ⟨hc, hh, Or.inr hp⟩⟩
  have hremove : ∀ {xhp xhp' : Handle} {update : Bool}, obj.transaction ≠ .configure →
      obj.transaction ≠ .hold → removePkg env xhp obj update = .ok xhp' →
      xhp'.flags = xhp.flags ∧ xhp'.pkgdb.get n = xhp.pkgdb.get n := fun hc hh hr =>
    ⟨(removePkg_spec hr).1, (removePkg_spec hr).2 n (hother hc hh).1⟩
  have hunpack : ∀ {xhp xhp' : Handle}, obj.transaction ≠ .configure → obj.transaction ≠ .hold →
      commitUnpack env xhp obj = .ok xhp' →
      xhp'.flags = xhp.flags ∧ xhp'.pkgdb.get n = xhp.pkgdb.get n := by
    intro xhp xhp' hc hh hu
    obtain ⟨hf, pkgname, hpkgname, hdb⟩ := commitUnpack_spec hu
    refine ⟨hf, ?_⟩
    rw [hdb]
    refine Dict.get_set_ne _ _ ?_
    rintro rfl
    exact (hother hc hh).2 hpkgname
  rw [commitEntry] at h
  split at h
  · next ht =>
    split at h
    · obtain rfl := Except.ok.inj h
      exact ⟨rfl, rfl⟩
    · exact hremove (by simp [ht]) (by simp [ht]) h
  · next ht =>
    obtain ⟨xhp₁, h₁, h₂⟩ := bind_eq_ok h
    have hr := hremove (by simp [ht]) (by simp [ht]) h₁
    have hu := hunpack (by simp [ht]) (by simp [ht]) h₂
    exact ⟨hu.1.trans hr.1, hu.2.trans hr.2⟩
  · obtain rfl := Except.ok.inj h
    exact ⟨rfl, rfl⟩
  · obtain rfl := Except.ok.inj h
    exact ⟨rfl, rfl⟩
  · next ht => exact hunpack (by simp [ht]) (by simp [ht]) h
  · next ht => exact hunpack (by simp [ht]) (by simp [ht]) h
  · next ht => exact hunpack (by simp [ht]) (by simp [ht]) h
  · next ht => exact hunpack (by simp [ht]) (by simp [ht]) h

/-- The record that an entry for `n` that is unpacked leaves. -/
theorem commitEntry_unpacks {env : CommitEnv} {xhp xhp' : Handle} {obj : PkgDict} {n : Str}
    (h : commitEntry env xhp obj = .ok xhp') (hn : obj.pkgname = some n)
    (ht : obj.transaction ≠ .remove ∧ obj.transaction ≠ .configure ∧ obj.transaction ≠ .hold) :
    xhp'.flags = xhp.flags ∧ xhp'.pkgdb.get n =
      some (registeredDict env xhp.flags { obj with state := some .unpacked } n) := by
  have hunpack : ∀ {xhp xhp' : Handle}, commitUnpack env xhp obj = .ok xhp' →
      xhp'.flags = xhp.flags ∧ xhp'.pkgdb.get n =
        some (registeredDict env xhp.flags { obj with state := some .unpacked } n) := by
    intro xhp xhp' hu
    obtain ⟨hf, pkgname, hpkgname, hdb⟩ := commitUnpack_spec hu
    obtain rfl := Option.some.inj (hn.symm.trans hpkgname)
    exact ⟨hf, hdb ▸ Dict.get_set_self _ _ _⟩
  rw [commitEntry] at h
  split at h
  · next hr => exact absurd hr ht.1
  · obtain ⟨xhp₁, h₁, h₂⟩ := bind_eq_ok h
    obtain ⟨hf, hget⟩ := hunpack h₂
    have hflags := (removePkg_spec h₁).1
    exact ⟨hf.trans hflags, hflags ▸ hget⟩
  · next hc => exact absurd hc ht.2.1
  · next hh => exact absurd hh ht.2.2
  · exact hunpack h
  · exact hunpack h
  · exact hunpack h
  · exact hunpack h

/-- A package whose record is only changed by updates and reinstallations has in the end
the record that one of them has given it, or the old one if there are none. -/
theorem get_commitLoop {env : CommitEnv} {n : Str} :
    ∀ {pkgs : List PkgDict} {xhp xhp' : Handle}, commitLoop env xhp pkgs = .ok xhp' →
      (∀ e ∈ pkgs, Touches n e → e.pkgname = some n ∧
        (e.transaction = .update ∨ e.transaction = .reinstall)) →
      xhp'.flags = xhp.flags ∧
        (xhp'.pkgdb.get n = xhp.pkgdb.get n ∧ (∀ e ∈ pkgs, ¬ Touches n e) ∨
          ∃ e ∈ pkgs, Touches n e ∧ xhp'.pkgdb.get n =
            some (registeredDict env xhp.flags { e with state := some .unpacked } n)) := by
  intro pkgs
  induction pkgs with
  | nil =>
    intro xhp xhp' h _
    obtain rfl := Except.ok.inj h
    exact ⟨rfl, Or.inl ⟨rfl, fun e he => by cases he⟩⟩
  | cons obj pkgs ih =>
    intro xhp xhp' h hall
    obtain ⟨xhp₁, h₁, h₂⟩ := bind_eq_ok h
    obtain ⟨hflags, hrest⟩ := ih h₂ fun e he => hall e (List.mem_cons_of_mem obj he)
    by_cases ht : Touches n obj
    · obtain ⟨hn, htype⟩ := hall obj List.mem_cons_self ht
      obtain ⟨hf₁, hget₁⟩ := commitEntry_unpacks h₁ hn (by
        rcases htype with h | h
        · simp [h]
        · simp [h])
      refine ⟨hflags.trans hf₁, Or.inr ?_⟩
      rcases hrest with ⟨hget, -⟩ | ⟨e, he, hte, hget⟩
      · exact ⟨obj, List.mem_cons_self, ht, hget.trans hget₁⟩
      · exact ⟨e, List.mem_cons_of_mem obj he, hte, hf₁ ▸ hget⟩
    · obtain ⟨hf₁, hget₁⟩ := commitEntry_frame h₁ ht
      refine ⟨hflags.trans hf₁, ?_⟩
      rcases hrest with ⟨hget, hnone⟩ | ⟨e, he, hte, hget⟩
      · exact Or.inl ⟨hget.trans hget₁, List.forall_mem_cons.mpr ⟨ht, hnone⟩⟩
      · exact Or.inr ⟨e, List.mem_cons_of_mem obj he, hte, hf₁ ▸ hget⟩

end Flappy
