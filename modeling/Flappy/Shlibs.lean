/-
The shared-library check of a transaction (`lib/transaction_check_shlibs.c`).

Two passes over the same packages: `collect_shlibs` gathers what the packages
after the transaction provide, `check_shlibs` looks up what they require.  Each
pass walks the transaction first and the package database second, and decides
for itself which installed packages still count.

* `collectShlibs_spec` — the first pass gathers what the post-transaction
  packages provide;
* `checkShlibs_eq_nil` — the second pass reports nothing iff everything they
  require has been gathered;
* `transactionCheckShlibs_iff` — `missing_shlibs` disappears from the
  transaction iff the post-transaction packages are closed.
-/
import Flappy.Pkgdb

open CStr

namespace Flappy

/-- `struct shlib_ctx`, less the handle. -/
structure ShlibCtx where
  entries : List Str := []
  seen : List Str := []
  missing : List Str := []
deriving DecidableEq, Repr

/-- `shlib_entry_get`: the table after the lookup. -/
def shlibEntryGet (entries : List Str) (name : Str) : List Str :=
  if name ∈ entries then entries else name :: entries

/-- `collect_shlib_array`. -/
def collectShlibArray (ctx : ShlibCtx) (array : List Str) : ShlibCtx :=
  { ctx with entries := array.foldl shlibEntryGet ctx.entries }

/-- The loop of `collect_shlibs` over the transaction. -/
def collectShlibsTrans : List PkgDict → ShlibCtx → Except Errno ShlibCtx
  | [], ctx => .ok ctx
  | pkgd :: pkgs, ctx =>
    if pkgd.transaction = .hold then collectShlibsTrans pkgs ctx
    else
      match pkgd.pkgname with
      | none => .error .einval
      | some pkgname =>
        let ctx := { ctx with seen := pkgname :: ctx.seen }
        if pkgd.transaction = .remove then collectShlibsTrans pkgs ctx
        else collectShlibsTrans pkgs (collectShlibArray ctx (pkgd.shlibProvides.getD []))

/-- The loop of `collect_shlibs` over the package database. -/
def collectShlibsPkgdb : List (Str × PkgDict) → ShlibCtx → ShlibCtx
  | [], ctx => ctx
  | (pkgname, pkgd) :: db, ctx =>
    if isInternal pkgname then collectShlibsPkgdb db ctx
    else if pkgname ∈ ctx.seen then collectShlibsPkgdb db ctx
    else collectShlibsPkgdb db (collectShlibArray ctx (pkgd.shlibProvides.getD []))

/-- `collect_shlibs`. -/
def collectShlibs (xhp : Handle) (pkgs : List PkgDict) (ctx : ShlibCtx) : Except Errno ShlibCtx :=
  (collectShlibsTrans pkgs ctx).map (collectShlibsPkgdb xhp.pkgdb.entries)

/-- The message about a missing library. -/
def missingShlib (pkgver shlib : Str) : Str :=
  pkgver ++ ": broken, unresolvable shlib `".toList ++ shlib ++ "'".toList

/-- The innermost loop of `check_shlibs`: the libraries one package requires. -/
def checkShlibArray (pkgver : Str) : List Str → ShlibCtx → ShlibCtx
  | [], ctx => ctx
  | shlib :: array, ctx =>
    if shlib ∈ ctx.entries then checkShlibArray pkgver array ctx
    else
      checkShlibArray pkgver array
        { ctx with missing := ctx.missing ++ [missingShlib pkgver shlib] }

/-- The loop of `check_shlibs` over the transaction. -/
def checkShlibsTrans : List PkgDict → ShlibCtx → ShlibCtx
  | [], ctx => ctx
  | pkgd :: pkgs, ctx =>
    if pkgd.transaction = .hold ∨ pkgd.transaction = .remove then checkShlibsTrans pkgs ctx
    else checkShlibsTrans pkgs (checkShlibArray pkgd.pkgver (pkgd.shlibRequires.getD []) ctx)

/-- The loop of `check_shlibs` over the package database. -/
def checkShlibsPkgdb : List (Str × PkgDict) → ShlibCtx → ShlibCtx
  | [], ctx => ctx
  | (pkgname, pkgd) :: db, ctx =>
    if isInternal pkgname then checkShlibsPkgdb db ctx
    else if pkgname ∈ ctx.seen then checkShlibsPkgdb db ctx
    else checkShlibsPkgdb db (checkShlibArray pkgd.pkgver (pkgd.shlibRequires.getD []) ctx)

/-- `check_shlibs`. -/
def checkShlibs (xhp : Handle) (pkgs : List PkgDict) (ctx : ShlibCtx) : ShlibCtx :=
  checkShlibsPkgdb xhp.pkgdb.entries (checkShlibsTrans pkgs ctx)

/-- `flappy_transaction_check_shlibs` on a transaction whose `missing_shlibs` is
`missing`.  The result is the new `missing_shlibs`, `none` once it has been
removed; an error is the return value `false`. -/
def transactionCheckShlibs (xhp : Handle) (pkgs : List PkgDict) (missing : List Str) :
    Except Errno (Option (List Str)) :=
  match collectShlibs xhp pkgs { missing := missing } with
  | .error e => .error e
  | .ok ctx =>
    let missing := (checkShlibs xhp pkgs ctx).missing
    .ok (if missing = [] then none else some missing)

/-! ### The first pass -/

theorem mem_foldl_shlibEntryGet {x : Str} :
    ∀ {array entries : List Str},
      x ∈ array.foldl shlibEntryGet entries ↔ x ∈ entries ∨ x ∈ array := by
  intro array
  induction array with
  | nil => intro entries; simp
  | cons a array ih =>
    intro entries
    rw [List.foldl_cons, ih, shlibEntryGet, List.mem_cons]
    by_cases ha : a ∈ entries
    · rw [if_pos ha]
      constructor
      · rintro (h | h)
        · exact Or.inl h
        · exact Or.inr (Or.inr h)
      · rintro (h | rfl | h)
        · exact Or.inl h
        · exact Or.inl ha
        · exact Or.inr h
    · rw [if_neg ha, List.mem_cons, or_assoc, or_left_comm]

theorem mem_collectShlibArray {ctx : ShlibCtx} {array : List Str} {x : Str} :
    x ∈ (collectShlibArray ctx array).entries ↔ x ∈ ctx.entries ∨ x ∈ array :=
  mem_foldl_shlibEntryGet

/-- What the loop over the transaction leaves behind. -/
theorem collectShlibsTrans_spec :
    ∀ {pkgs : List PkgDict} {ctx ctx' : ShlibCtx}, collectShlibsTrans pkgs ctx = .ok ctx' →
      (∀ k, k ∈ ctx'.seen ↔ k ∈ ctx.seen ∨
        ∃ p ∈ pkgs, p.pkgname = some k ∧ p.transaction ≠ .hold) ∧
      (∀ x, x ∈ ctx'.entries ↔ x ∈ ctx.entries ∨
        ∃ p ∈ pkgs, (p.transaction ≠ .hold ∧ p.transaction ≠ .remove) ∧
          x ∈ p.shlibProvides.getD []) ∧
      ctx'.missing = ctx.missing := by
  intro pkgs
  induction pkgs with
  | nil =>
    intro ctx ctx' h
    rw [collectShlibsTrans, Except.ok.injEq] at h
    simp [h]
  | cons pkgd pkgs ih =>
    intro ctx ctx' h
    rw [collectShlibsTrans] at h
    -- an entry on hold is passed over
    by_cases hh : pkgd.transaction = .hold
    · rw [if_pos hh] at h
      simpa [hh] using ih h
    · rw [if_neg hh] at h
      cases hn : pkgd.pkgname with
      | none => simp [hn] at h
      | some n =>
        simp only [hn] at h
        -- a removed package is seen, but provides nothing
        by_cases hr : pkgd.transaction = .remove
        · rw [if_pos hr] at h
          obtain ⟨hs, he, hm⟩ := ih h
          refine ⟨fun k => ?_, fun x => ?_, hm⟩
          · rw [hs k, List.exists_mem_cons_iff, List.mem_cons, or_assoc, or_left_comm]
            simp [hn, hh, eq_comm]
          · rw [he x, List.exists_mem_cons_iff]
            simp [hr]
        · rw [if_neg hr] at h
          obtain ⟨hs, he, hm⟩ := ih h
          refine ⟨fun k => ?_, fun x => ?_, hm⟩
          · rw [hs k, List.exists_mem_cons_iff]
            simp only [collectShlibArray, List.mem_cons]
            rw [or_assoc, or_left_comm]
            simp [hn, hh, eq_comm]
          · rw [he x, List.exists_mem_cons_iff, mem_collectShlibArray, or_assoc]
            simp [hr, hh]

/-- What the loop over the package database leaves behind. -/
theorem collectShlibsPkgdb_spec :
    ∀ (db : List (Str × PkgDict)) (ctx : ShlibCtx),
      (collectShlibsPkgdb db ctx).seen = ctx.seen ∧
      (collectShlibsPkgdb db ctx).missing = ctx.missing ∧
      ∀ x, x ∈ (collectShlibsPkgdb db ctx).entries ↔ x ∈ ctx.entries ∨
        ∃ e ∈ db, (isInternal e.1 = false ∧ e.1 ∉ ctx.seen) ∧ x ∈ e.2.shlibProvides.getD [] := by
  intro db
  induction db with
  | nil => intro ctx; simp [collectShlibsPkgdb]
  | cons e db ih =>
    intro ctx
    obtain ⟨k, p⟩ := e
    rw [collectShlibsPkgdb]
    by_cases hi : isInternal k = true
    · rw [if_pos hi]
      simpa [hi] using ih ctx
    · rw [if_neg hi]
      by_cases hs : k ∈ ctx.seen
      · rw [if_pos hs]
        simpa [hs] using ih ctx
      · rw [if_neg hs]
        obtain ⟨h₁, h₂, h₃⟩ := ih (collectShlibArray ctx (p.shlibProvides.getD []))
        refine ⟨h₁, h₂, fun x => ?_⟩
        rw [h₃ x, mem_collectShlibArray, List.exists_mem_cons_iff, or_assoc]
        simp [hi, hs, collectShlibArray]

/-! ### The second pass -/

theorem checkShlibArray_spec (pkgver : Str) :
    ∀ (array : List Str) (ctx : ShlibCtx),
      (checkShlibArray pkgver array ctx).seen = ctx.seen ∧
      (checkShlibArray pkgver array ctx).entries = ctx.entries ∧
      ((checkShlibArray pkgver array ctx).missing = [] ↔
        ctx.missing = [] ∧ ∀ x ∈ array, x ∈ ctx.entries) := by
  intro array
  induction array with
  | nil => intro ctx; simp [checkShlibArray]
  | cons a array ih =>
    intro ctx
    rw [checkShlibArray]
    by_cases ha : a ∈ ctx.entries
    · rw [if_pos ha]
      simpa [ha] using ih ctx
    · rw [if_neg ha]
      simpa [ha] using ih { ctx with missing := ctx.missing ++ [missingShlib pkgver a] }

theorem checkShlibsTrans_spec :
    ∀ (pkgs : List PkgDict) (ctx : ShlibCtx),
      (checkShlibsTrans pkgs ctx).seen = ctx.seen ∧
      (checkShlibsTrans pkgs ctx).entries = ctx.entries ∧
      ((checkShlibsTrans pkgs ctx).missing = [] ↔ ctx.missing = [] ∧
        ∀ p ∈ pkgs, (p.transaction ≠ .hold ∧ p.transaction ≠ .remove) →
          ∀ x ∈ p.shlibRequires.getD [], x ∈ ctx.entries) := by
  intro pkgs
  induction pkgs with
  | nil => intro ctx; simp [checkShlibsTrans]
  | cons pkgd pkgs ih =>
    intro ctx
    rw [checkShlibsTrans]
    by_cases hc : pkgd.transaction = .hold ∨ pkgd.transaction = .remove
    · rw [if_pos hc]
      obtain ⟨h₁, h₂, h₃⟩ := ih ctx
      refine ⟨h₁, h₂, ?_⟩
      rw [h₃, List.forall_mem_cons]
      rw [← not_or]
      simp [hc]
    · rw [if_neg hc]
      obtain ⟨a₁, a₂, a₃⟩ := checkShlibArray_spec pkgd.pkgver (pkgd.shlibRequires.getD []) ctx
      obtain ⟨h₁, h₂, h₃⟩ := ih (checkShlibArray pkgd.pkgver (pkgd.shlibRequires.getD []) ctx)
      refine ⟨h₁.trans a₁, h₂.trans a₂, ?_⟩
      rw [h₃, a₃, a₂, List.forall_mem_cons, and_assoc, ← not_or]
      simp [hc]

theorem checkShlibsPkgdb_spec :
    ∀ (db : List (Str × PkgDict)) (ctx : ShlibCtx),
      (checkShlibsPkgdb db ctx).missing = [] ↔ ctx.missing = [] ∧
        ∀ e ∈ db, (isInternal e.1 = false ∧ e.1 ∉ ctx.seen) →
          ∀ x ∈ e.2.shlibRequires.getD [], x ∈ ctx.entries := by
  intro db
  induction db with
  | nil => intro ctx; simp [checkShlibsPkgdb]
  | cons e db ih =>
    intro ctx
    obtain ⟨k, p⟩ := e
    rw [checkShlibsPkgdb]
    by_cases hi : isInternal k = true
    · rw [if_pos hi, ih ctx, List.forall_mem_cons]
      simp [hi]
    · rw [if_neg hi]
      by_cases hs : k ∈ ctx.seen
      · rw [if_pos hs, ih ctx, List.forall_mem_cons]
        simp [hs]
      · obtain ⟨a₁, a₂, a₃⟩ := checkShlibArray_spec p.pkgver (p.shlibRequires.getD []) ctx
        rw [if_neg hs, ih, a₃, a₁, a₂, List.forall_mem_cons, and_assoc]
        simp [hi, hs]

/-! ### Both passes see the post-transaction packages -/

/-- The types a transaction entry has when the check runs. -/
def TransType.checked (t : TransType) : Prop := t ≠ .unknown ∧ t ≠ .download

instance (t : TransType) : Decidable t.checked := inferInstanceAs (Decidable (_ ∧ _))

theorem TransType.registers_iff {t : TransType} (h : t.checked) :
    t.registers = true ↔ t ≠ .hold ∧ t ≠ .remove := by
  cases t <;> simp_all [TransType.registers, TransType.checked]

/-- Quantifying over the two lists the passes walk is quantifying over the
post-transaction packages. -/
theorem exists_walk_iff {xhp : Handle} {pkgs : List PkgDict} {seen : List Str}
    {P : PkgDict → Prop} (ht : ∀ p ∈ pkgs, p.transaction.checked)
    (hk : ∀ k ∈ xhp.pkgdb.keys, isInternal k = false)
    (hs : ∀ k, k ∈ seen ↔ ∃ p ∈ pkgs, p.pkgname = some k ∧ p.transaction ≠ .hold) :
    ((∃ p ∈ pkgs, (p.transaction ≠ .hold ∧ p.transaction ≠ .remove) ∧ P p) ∨
        ∃ e ∈ xhp.pkgdb.entries, (isInternal e.1 = false ∧ e.1 ∉ seen) ∧ P e.2) ↔
      ∃ p ∈ postTransaction xhp pkgs, P p := by
  have hu : ∀ k, isUntouched pkgs k = true ↔ k ∉ seen := by
    intro k
    rw [hs, isUntouched, List.all_eq_true]
    simp only [ne_eq, decide_not, Bool.or_eq_true, Bool.not_eq_true', decide_eq_false_iff_not,
      decide_eq_true_eq, not_exists, not_and, not_not]
    exact forall₂_congr fun p _ => imp_iff_not_or.symm
  constructor
  · rintro (⟨p, hp, hty, hP⟩ | ⟨⟨k, p⟩, he, ⟨-, hns⟩, hP⟩)
    · exact ⟨p, mem_postTransaction.mpr
        (Or.inl ⟨hp, (TransType.registers_iff (ht p hp)).mpr hty⟩), hP⟩
    · exact ⟨p, mem_postTransaction.mpr (Or.inr ⟨k, he, (hu k).mpr hns⟩), hP⟩
  · rintro ⟨p, hp, hP⟩
    rcases mem_postTransaction.mp hp with ⟨hp, hty⟩ | ⟨k, he, hun⟩
    · exact Or.inl ⟨p, hp, (TransType.registers_iff (ht p hp)).mp hty, hP⟩
    · exact Or.inr ⟨(k, p), he, ⟨hk k (List.mem_map.mpr ⟨_, he, rfl⟩), (hu k).mp hun⟩, hP⟩

theorem collectShlibs_spec {xhp : Handle} {pkgs : List PkgDict} {missing : List Str}
    {ctx : ShlibCtx} (h : collectShlibs xhp pkgs { missing := missing } = .ok ctx)
    (ht : ∀ p ∈ pkgs, p.transaction.checked)
    (hk : ∀ k ∈ xhp.pkgdb.keys, isInternal k = false) :
    ctx.missing = missing ∧
    (∀ k, k ∈ ctx.seen ↔ ∃ p ∈ pkgs, p.pkgname = some k ∧ p.transaction ≠ .hold) ∧
    ∀ x, x ∈ ctx.entries ↔
      ∃ q ∈ postTransaction xhp pkgs, x ∈ q.shlibProvides.getD [] := by
  rw [collectShlibs] at h
  cases hc : collectShlibsTrans pkgs { missing := missing } with
  | error e => simp [hc, Except.map] at h
  | ok ctx₁ =>
    simp only [hc, Except.map, Except.ok.injEq] at h
    subst h
    obtain ⟨s₁, e₁, m₁⟩ := collectShlibsTrans_spec hc
    obtain ⟨s₂, m₂, e₂⟩ := collectShlibsPkgdb_spec xhp.pkgdb.entries ctx₁
    simp only [List.not_mem_nil, false_or] at s₁ e₁
    refine ⟨m₂.trans m₁, fun k => by rw [s₂]; exact s₁ k, fun x => ?_⟩
    rw [e₂ x, e₁ x]
    exact exists_walk_iff ht hk s₁

theorem checkShlibs_eq_nil {xhp : Handle} {pkgs : List PkgDict} {ctx : ShlibCtx}
    (ht : ∀ p ∈ pkgs, p.transaction.checked)
    (hk : ∀ k ∈ xhp.pkgdb.keys, isInternal k = false)
    (hs : ∀ k, k ∈ ctx.seen ↔ ∃ p ∈ pkgs, p.pkgname = some k ∧ p.transaction ≠ .hold) :
    (checkShlibs xhp pkgs ctx).missing = [] ↔ ctx.missing = [] ∧
      ∀ p ∈ postTransaction xhp pkgs, ∀ x ∈ p.shlibRequires.getD [], x ∈ ctx.entries := by
  obtain ⟨h₁, h₂, h₃⟩ := checkShlibsTrans_spec pkgs ctx
  rw [checkShlibs, checkShlibsPkgdb_spec, h₁, h₂, h₃, and_assoc]
  refine and_congr_right fun _ => ?_
  -- the negation is a search for a library that is required and was not gathered
  have hw := exists_walk_iff (P := fun p => ∃ x ∈ p.shlibRequires.getD [], x ∉ ctx.entries)
    ht hk hs
  rw [← not_iff_not] at hw
  push Not at hw
  exact hw

/-! ### The check -/

/-- Everything the post-transaction packages require is provided by one of them. -/
def ShlibsClosed (xhp : Handle) (pkgs : List PkgDict) : Prop :=
  ∀ p ∈ postTransaction xhp pkgs, ∀ x ∈ p.shlibRequires.getD [],
    ∃ q ∈ postTransaction xhp pkgs, x ∈ q.shlibProvides.getD []

instance (xhp : Handle) (pkgs : List PkgDict) : Decidable (ShlibsClosed xhp pkgs) :=
  inferInstanceAs (Decidable (∀ p ∈ postTransaction xhp pkgs, ∀ x ∈ p.shlibRequires.getD [],
    ∃ q ∈ postTransaction xhp pkgs, x ∈ q.shlibProvides.getD []))

/-- When the check returns `true`, it has removed `missing_shlibs` from the
transaction iff the packages after the transaction provide whatever they require. -/
theorem transactionCheckShlibs_iff (xhp : Handle) (pkgs : List PkgDict) (r : Option (List Str))
    (hk : ∀ k ∈ xhp.pkgdb.keys, isInternal k = false)
    (ht : ∀ p ∈ pkgs, p.transaction.checked)
    (h : transactionCheckShlibs xhp pkgs [] = .ok r) :
    r = none ↔ ShlibsClosed xhp pkgs := by
  rw [transactionCheckShlibs] at h
  cases hc : collectShlibs xhp pkgs { missing := [] } with
  | error e => simp [hc] at h
  | ok ctx =>
    obtain ⟨hm, hs, he⟩ := collectShlibs_spec hc ht hk
    have hnil := checkShlibs_eq_nil ht hk hs
    simp only [hm, he, true_and] at hnil
    simp only [hc, Except.ok.injEq] at h
    rw [ShlibsClosed, ← hnil, ← h]
    by_cases hz : (checkShlibs xhp pkgs ctx).missing = []
    · simp [hz]
    · simp [hz]

/-- `baz` needs the `libfoo.so.0` of `foo-1_1`. -/
def shlibDemo : Handle :=
  { pkgdb := ⟨[
      ("baz".toList, { pkgver := "baz-1_1".toList, shlibRequires := some ["libfoo.so.0".toList] }),
      ("foo".toList, { pkgver := "foo-1_1".toList,
                       shlibProvides := some ["libfoo.so.0".toList] })], by decide⟩ }

/-- The update of `foo` to a version with another soname. -/
def shlibUpdate : List PkgDict :=
  [{ pkgver := "foo-2_1".toList, pkgname := some "foo".toList, transaction := .update,
     shlibProvides := some ["libfoo.so.1".toList] }]

theorem transactionCheckShlibs_shlibDemo :
    (some ["baz-1_1: broken, unresolvable shlib `libfoo.so.0'".toList] = none ↔
      ShlibsClosed shlibDemo shlibUpdate) ∧ ¬ ShlibsClosed shlibDemo shlibUpdate :=
  ⟨transactionCheckShlibs_iff shlibDemo shlibUpdate _ (by decide) (by decide) (by decide),
    by decide⟩

/-- The same for a package with a name that the loops take for an internal object. -/
def shlibInternal : Handle :=
  { pkgdb := ⟨[
      ("_FLAPPY_baz".toList, { pkgver := "_FLAPPY_baz-1_1".toList,
                               shlibRequires := some ["libfoo.so.0".toList] }),
      ("foo".toList, { pkgver := "foo-1_1".toList,
                       shlibProvides := some ["libfoo.so.0".toList] })], by decide⟩ }

theorem transactionCheckShlibs_shlibInternal :
    (shlibUpdate.map PkgDict.pkgname).Nodup ∧
      transactionCheckShlibs shlibInternal shlibUpdate [] = .ok none ∧
      ¬ ShlibsClosed shlibInternal shlibUpdate := by
  decide

end Flappy
