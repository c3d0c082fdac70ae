/-
Version comparison and pattern matching (`lib/external/dewey.c` and
`flappy_pkgpattern_match` of `lib/util.c`).

A version is read as a vector of numbers and a revision; letters and the
modifiers `alpha`, `beta`, `pre`, `rc`, `pl` and `.` become numbers too.  Two
vectors are compared position by position, the shorter one padded with zeros,
and the revisions decide last.  The numbers and their differences are `int`, so
that long numbers are compared by what is left of them.

* `cmpver_self` — every string compares equal to itself;
* `cmpverPreorder_of_comparable` — on versions whose differences all fit in an
  `int`, `flappy_cmpver` is a total preorder;
* `pkgpatternMatch_self` — every pkgver matches itself as a pattern.
-/
import Flappy.Util

open CStr

namespace Flappy

/-- What an `int` holds of a result. -/
def toInt32 (n : Int) : Int := n.bmod 4294967296

/-- `arr_t`: the numbers of a version, and its `_` suffix. -/
structure Version where
  v : List Int
  revision : Int
deriving DecidableEq, Repr

/-- The `modifiers` table. -/
def modifiers : List (Str × Int) :=
  [("alpha".toList, -3), ("beta".toList, -2), ("pre".toList, -1), ("rc".toList, -1),
   ("pl".toList, 0), (".".toList, 0)]

/-- `mkcomponent`: the numbers the component at the head of `num` adds, the
revision if it sets one, and the number of characters it takes. -/
def mkcomponent (num : Str) : List Int × Option Int × Nat :=
  match num with
  | [] => ([], none, 1)
  | c :: rest =>
    if c.isDigit then
      let ds := num.takeWhile Char.isDigit
      ([toInt32 (atoi ds)], none, ds.length)
    else
      match modifiers.find? fun m => hasPrefixNoCase m.1 num with
      | some m => ([m.2], none, m.1.length)
      | none =>
        if c = '_' then
          let ds := rest.takeWhile Char.isDigit
          ([], some (toInt32 (atoi ds)), ds.length + 1)
        else if c.isAlpha then
          ([0, (c.toLower.toNat - 'a'.toNat : Nat) + 1], none, 1)
        else ([], none, 1)

/-- The loop of `mkversion`; every component takes at least one character, so
the length of the text is fuel enough. -/
def mkversionAux : Nat → Str → Version → Version
  | 0, _, ap => ap
  | _ + 1, [], ap => ap
  | n + 1, num, ap =>
    let (v, rev, k) := mkcomponent num
    mkversionAux n (num.drop k) ⟨ap.v ++ v, rev.getD ap.revision⟩

/-- `mkversion`. -/
def mkversion (num : Str) : Version := mkversionAux num.length num ⟨[], 0⟩

/-- The comparison operators of a pattern. -/
inductive DeweyOp where
  | lt | le | eq | ge | gt | ne
deriving DecidableEq, Repr

/-- `result`: does a difference of this sign pass the test? -/
def deweyResult (cmp : Int) : DeweyOp → Bool
  | .lt => cmp < 0
  | .le => cmp ≤ 0
  | .gt => 0 < cmp
  | .ge => 0 ≤ cmp
  | .eq => cmp = 0
  | .ne => cmp ≠ 0

/-- The loop of `vtest` once the left vector is used up: a missing number
counts as zero. -/
def vdiffNil : List Int → Int
  | [] => 0
  | b :: bs => if toInt32 (0 - b) = 0 then vdiffNil bs else toInt32 (0 - b)

/-- The loop of `vtest`: the first difference of the two vectors. -/
def vdiff : List Int → List Int → Int
  | [], bs => vdiffNil bs
  | a :: as, bs =>
    if toInt32 (a - bs.headD 0) = 0 then vdiff as bs.tail else toInt32 (a - bs.headD 0)

/-- The difference `vtest` judges: that of the vectors, else that of the revisions. -/
def versionDiff (lhs rhs : Version) : Int :=
  if vdiff lhs.v rhs.v = 0 then toInt32 (lhs.revision - rhs.revision) else vdiff lhs.v rhs.v

/-- `vtest`. -/
def vtest (lhs : Version) (tst : DeweyOp) (rhs : Version) : Bool :=
  deweyResult (versionDiff lhs rhs) tst

/-- `dewey_cmp`. -/
def deweyCmp (lhs : Str) (op : DeweyOp) (rhs : Str) : Bool :=
  vtest (mkversion lhs) op (mkversion rhs)

/-- `flappy_cmpver`. -/
def cmpver (pkg1 pkg2 : Str) : Int :=
  if deweyCmp pkg1 .lt pkg2 then -1
  else if deweyCmp pkg1 .gt pkg2 then 1
  else 0

/-- `dewey_mktest` at a `<` or `>`: the operator and the text behind it. -/
def deweyMktest : Str → Option (DeweyOp × Str)
  | '<' :: '=' :: s => some (.le, s)
  | '<' :: s => some (.lt, s)
  | '>' :: '=' :: s => some (.ge, s)
  | '>' :: s => some (.gt, s)
  | '=' :: '=' :: s => some (.eq, s)
  | '!' :: '=' :: s => some (.ne, s)
  | _ => none

/-- `PKG_PATTERN_MAX`. -/
def pkgPatternMax : Nat := 1024

/-- `dewey_match`.  Its error result is for a pattern without `<` and `>`,
which `flappy_pkgpattern_match` never hands it. -/
def deweyMatch (pattern pkg : Str) : Bool :=
  match strrchr '-' pkg with
  | none => false
  | some (name, version) =>
    match strpbrk ['<', '>'] pattern with
    | none => false
    | some sep =>
      if strcspn ['<', '>'] pattern ≠ name then false
      else
        match deweyMktest sep with
        | none => false
        | some (op, sep) =>
          match (if op = .gt ∨ op = .ge then strchr '<' sep else none) with
          | none => deweyCmp version op sep
          | some (low, high) =>
            match deweyMktest ('<' :: high) with
            | none => false
            | some (op2, limit) =>
              deweyCmp version op2 limit &&
                deweyCmp version op (low.take (pkgPatternMax - 1))

/-- `flappy_pkgpattern_match`. -/
def pkgpatternMatch (pkg pattern : Str) : Bool :=
  if pattern = pkg then true
  else if (strpbrk ['<', '>'] pattern).isSome then deweyMatch pattern pkg
  else if (strpbrk ['*', '?', '[', ']'] pattern).isSome then fnmatch pattern pkg
  else false

@[simp] theorem pkgpatternMatch_self (pkg : Str) : pkgpatternMatch pkg pkg = true := by
  simp [pkgpatternMatch]

/-- A pattern without special characters matches only itself. -/
theorem eq_of_pkgpatternMatch {pkg pattern : Str} (h : pkgpatternVersion pattern = none)
    (hm : pkgpatternMatch pkg pattern = true) : pattern = pkg := by
  have hc := strpbrk_eq_none.mp h
  have h1 : strpbrk ['<', '>'] pattern = none :=
    strpbrk_eq_none.mpr fun c hcp hset => hc c hcp (by
      simp only [patternChars, List.mem_cons, List.not_mem_nil, or_false] at hset ⊢
      tauto)
  have h2 : strpbrk ['*', '?', '[', ']'] pattern = none :=
    strpbrk_eq_none.mpr fun c hcp hset => hc c hcp (by
      simp only [patternChars, List.mem_cons, List.not_mem_nil, or_false] at hset ⊢
      tauto)
  by_contra hne
  simp [pkgpatternMatch, hne, h1, h2] at hm

/-! ### The first difference -/

/-- The first number that is not zero, with the other sign. -/
def firstDiffNil : List Int → Int
  | [] => 0
  | b :: bs => if b = 0 then firstDiffNil bs else -b

/-- The first difference of two vectors that go on with zeros. -/
def firstDiff : List Int → List Int → Int
  | [], bs => firstDiffNil bs
  | a :: as, bs => if a = bs.headD 0 then firstDiff as bs.tail else a - bs.headD 0

/-- One step, whichever of the vectors is used up. -/
theorem firstDiff_head_tail (a b : List Int) :
    firstDiff a b =
      if a.headD 0 = b.headD 0 then firstDiff a.tail b.tail else a.headD 0 - b.headD 0 := by
  cases a with
  | cons a as => rfl
  | nil =>
    cases b with
    | nil => rfl
    | cons b bs =>
      show firstDiffNil (b :: bs) = if 0 = b then firstDiffNil bs else 0 - b
      rw [firstDiffNil]
      by_cases h : b = 0
      · rw [if_pos h, if_pos h.symm]
      · rw [if_neg h, if_neg (Ne.symm h), Int.zero_sub]

theorem length_tail_le {n : Nat} {l : List Int} (h : l.length ≤ n + 1) : l.tail.length ≤ n := by
  rw [List.length_tail]
  omega

theorem firstDiff_swap : ∀ (n : Nat) (a b : List Int), a.length ≤ n → b.length ≤ n →
    firstDiff b a = -firstDiff a b := by
  intro n
  induction n with
  | zero =>
    intro a b ha hb
    obtain rfl := List.length_eq_zero_iff.mp (Nat.le_zero.mp ha)
    obtain rfl := List.length_eq_zero_iff.mp (Nat.le_zero.mp hb)
    rfl
  | succ n ih =>
    intro a b ha hb
    rw [firstDiff_head_tail b, firstDiff_head_tail a]
    by_cases h : a.headD 0 = b.headD 0
    · rw [if_pos h, if_pos h.symm]
      exact ih _ _ (length_tail_le ha) (length_tail_le hb)
    · rw [if_neg h, if_neg (Ne.symm h)]
      omega

/-- The first difference is transitive, and vectors between equal ones are equal to them.
The induction is on a bound of the three lengths. -/
theorem firstDiff_trans : ∀ (n : Nat) (a b c : List Int), a.length ≤ n → b.length ≤ n →
    c.length ≤ n → firstDiff a b ≤ 0 → firstDiff b c ≤ 0 →
      firstDiff a c ≤ 0 ∧ (firstDiff a c = 0 → firstDiff a b = 0 ∧ firstDiff b c = 0) := by
  intro n
  induction n with
  | zero =>
    intro a b c ha hb hc _ _
    obtain rfl := List.length_eq_zero_iff.mp (Nat.le_zero.mp ha)
    obtain rfl := List.length_eq_zero_iff.mp (Nat.le_zero.mp hb)
    obtain rfl := List.length_eq_zero_iff.mp (Nat.le_zero.mp hc)
    exact ⟨Int.le_refl _, fun _ => ⟨rfl, rfl⟩⟩
  | succ n ih =>
    intro a b c ha hb hc hab hbc
    rw [firstDiff_head_tail] at hab hbc
    rw [firstDiff_head_tail a c, firstDiff_head_tail a b, firstDiff_head_tail b c]
    by_cases h₁ : a.headD 0 = b.headD 0
    · rw [if_pos h₁] at hab ⊢
      by_cases h₂ : b.headD 0 = c.headD 0
      · rw [if_pos h₂] at hbc ⊢
        rw [if_pos (h₁.trans h₂)]
        exact ih _ _ _ (length_tail_le ha) (length_tail_le hb) (length_tail_le hc) hab hbc
      · rw [if_neg h₂] at hbc ⊢
        rw [if_neg (by omega)]
        omega
    · rw [if_neg h₁] at hab ⊢
      by_cases h₂ : b.headD 0 = c.headD 0
      · rw [if_neg (by omega)]
        omega
      · rw [if_neg h₂] at hbc ⊢
        rw [if_neg (by omega)]
        omega

/-! ### `flappy_cmpver` -/

/-- The result is one of an `int`. -/
def FitsInt (n : Int) : Prop := -2147483648 ≤ n ∧ n < 2147483648

theorem toInt32_of_fitsInt {n : Int} (h : FitsInt n) : toInt32 n = n :=
  Int.bmod_eq_of_le (by rw [FitsInt] at h; omega) (by rw [FitsInt] at h; omega)

theorem vdiff_self : ∀ v : List Int, vdiff v v = 0
  | [] => rfl
  | a :: as => by
    rw [vdiff, List.headD_cons, Int.sub_self, if_pos (by decide)]
    exact vdiff_self as

theorem versionDiff_self (a : Version) : versionDiff a a = 0 := by
  rw [versionDiff, vdiff_self, if_pos rfl, Int.sub_self]
  rfl

theorem cmpver_eq_sign (a b : Str) :
    cmpver a b = (versionDiff (mkversion a) (mkversion b)).sign := by
  simp only [cmpver, deweyCmp, vtest, deweyResult, decide_eq_true_eq]
  by_cases h1 : versionDiff (mkversion a) (mkversion b) < 0
  · rw [if_pos h1, Int.sign_eq_neg_one_of_neg h1]
  · rw [if_neg h1]
    by_cases h2 : 0 < versionDiff (mkversion a) (mkversion b)
    · rw [if_pos h2, Int.sign_eq_one_of_pos h2]
    · rw [if_neg h2, show versionDiff (mkversion a) (mkversion b) = 0 by omega]
      rfl

@[simp] theorem cmpver_self (a : Str) : cmpver a a = 0 := by
  rw [cmpver_eq_sign, versionDiff_self]
  rfl

/-- The result is one of three. -/
theorem cmpver_eq_one_iff {a b : Str} : cmpver a b = 1 ↔ ¬ cmpver a b ≤ 0 := by
  rw [cmpver_eq_sign]
  rcases Int.lt_trichotomy (versionDiff (mkversion a) (mkversion b)) 0 with h | h | h
  · rw [Int.sign_eq_neg_one_of_neg h]
    decide
  · rw [h]
    decide
  · rw [Int.sign_eq_one_of_pos h]
    decide

/-- The test by which a stored version is kept. -/
theorem cmpver_kept_iff {a b : Str} : (cmpver a b = 0 ∨ cmpver a b = -1) ↔ cmpver a b ≤ 0 := by
  rw [cmpver_eq_sign]
  rcases Int.lt_trichotomy (versionDiff (mkversion a) (mkversion b)) 0 with h | h | h
  · rw [Int.sign_eq_neg_one_of_neg h]
    omega
  · rw [h]
    simp
  · rw [Int.sign_eq_one_of_pos h]
    omega

/-- No difference that is taken of the two versions overflows. -/
structure Comparable (a b : Version) : Prop where
  vector : ∀ i, FitsInt (a.v.getD i 0 - b.v.getD i 0)
  revision : FitsInt (a.revision - b.revision)

/-- While no difference overflows, `vtest` finds the first one. -/
theorem vdiff_eq_firstDiff : ∀ {a b : List Int}, (∀ i, FitsInt (a.getD i 0 - b.getD i 0)) →
    vdiff a b = firstDiff a b
  | [], [], _ => rfl
  | [], b :: bs, h => by
    have hb : toInt32 (0 - b) = 0 - b := toInt32_of_fitsInt (h 0)
    have hbs : vdiffNil bs = firstDiffNil bs :=
      vdiff_eq_firstDiff (a := []) fun i => h (i + 1)
    show vdiffNil (b :: bs) = firstDiffNil (b :: bs)
    rw [vdiffNil, firstDiffNil, hb, hbs]
    by_cases hzero : b = 0
    · rw [if_pos hzero, if_pos (by omega)]
    · rw [if_neg hzero, if_neg (by omega), Int.zero_sub]
  | a :: as, bs, h => by
    have hhead : bs.getD 0 0 = bs.headD 0 := by cases bs <;> rfl
    have htail : ∀ i, bs.getD (i + 1) 0 = bs.tail.getD i 0 := by
      intro i
      cases bs <;> simp
    have ha : toInt32 (a - bs.headD 0) = a - bs.headD 0 :=
      toInt32_of_fitsInt (hhead ▸ h 0)
    have has : vdiff as bs.tail = firstDiff as bs.tail :=
      vdiff_eq_firstDiff fun i => htail i ▸ h (i + 1)
    rw [vdiff, firstDiff, ha, has]
    by_cases heq : a = bs.headD 0
    · rw [if_pos heq, if_pos (by omega)]
    · rw [if_neg heq, if_neg (by omega)]

theorem Comparable.versionDiff {a b : Version} (h : Comparable a b) :
    versionDiff a b =
      if firstDiff a.v b.v = 0 then a.revision - b.revision else firstDiff a.v b.v := by
  rw [Flappy.versionDiff, vdiff_eq_firstDiff h.vector, toInt32_of_fitsInt h.revision]

/-- On these versions `flappy_cmpver` is a total preorder. -/
structure CmpverPreorder (vs : Str → Prop) : Prop where
  swap : ∀ {a b}, vs a → vs b → cmpver b a = -cmpver a b
  trans : ∀ {a b c}, vs a → vs b → vs c → cmpver a b ≤ 0 → cmpver b c ≤ 0 → cmpver a c ≤ 0

theorem CmpverPreorder.mono {vs ws : Str → Prop} (h : CmpverPreorder ws) (hsub : ∀ v, vs v → ws v) :
    CmpverPreorder vs :=
  ⟨fun ha hb => h.swap (hsub _ ha) (hsub _ hb),
    fun ha hb hc => h.trans (hsub _ ha) (hsub _ hb) (hsub _ hc)⟩

/-- It is one while no difference overflows. -/
theorem cmpverPreorder_of_comparable {vs : Str → Prop}
    (h : ∀ a b, vs a → vs b → Comparable (mkversion a) (mkversion b)) : CmpverPreorder vs := by
  constructor
  · intro a b ha hb
    have hswap := firstDiff_swap (max (mkversion a).v.length (mkversion b).v.length)
      (mkversion a).v (mkversion b).v (by omega) (by omega)
    rw [cmpver_eq_sign, cmpver_eq_sign, (h a b ha hb).versionDiff, (h b a hb ha).versionDiff, hswap,
      ← Int.sign_neg]
    congr 1
    by_cases hzero : firstDiff (mkversion a).v (mkversion b).v = 0
    · rw [if_pos hzero, if_pos (by omega)]
      omega
    · rw [if_neg hzero, if_neg (by omega)]
  · intro a b c ha hb hc hab hbc
    rw [cmpver_eq_sign, Int.sign_nonpos_iff] at hab hbc ⊢
    rw [(h a b ha hb).versionDiff] at hab
    rw [(h b c hb hc).versionDiff] at hbc
    rw [(h a c ha hc).versionDiff]
    have hv : firstDiff (mkversion a).v (mkversion b).v ≤ 0 := by
      split at hab <;> omega
    have hv' : firstDiff (mkversion b).v (mkversion c).v ≤ 0 := by
      split at hbc <;> omega
    obtain ⟨hle, heq⟩ := firstDiff_trans
      (max (mkversion a).v.length (max (mkversion b).v.length (mkversion c).v.length))
      (mkversion a).v (mkversion b).v (mkversion c).v (by omega) (by omega) (by omega) hv hv'
    by_cases hzero : firstDiff (mkversion a).v (mkversion c).v = 0
    · obtain ⟨h₁, h₂⟩ := heq hzero
      rw [if_pos h₁] at hab
      rw [if_pos h₂] at hbc
      rw [if_pos hzero]
      omega
    · rw [if_neg hzero]
      exact hle

/-- Every number of the version is at a distance from the ends of `int` that no modifier
covers. -/
def SmallVersion (pkgver : Str) : Prop :=
  (∀ n ∈ (mkversion pkgver).v, -3 ≤ n ∧ n < 2147483645) ∧ 0 ≤ (mkversion pkgver).revision ∧
    (mkversion pkgver).revision < 2147483648

instance (pkgver : Str) : Decidable (SmallVersion pkgver) := by
  unfold SmallVersion
  infer_instance

theorem SmallVersion.getD {pkgver : Str} (h : SmallVersion pkgver) (i : Nat) :
    -3 ≤ (mkversion pkgver).v.getD i 0 ∧ (mkversion pkgver).v.getD i 0 < 2147483645 := by
  rw [List.getD_eq_getElem?_getD]
  cases hi : (mkversion pkgver).v[i]? with
  | none => exact ⟨by decide, by decide⟩
  | some n => exact h.1 n (List.mem_of_getElem? hi)

theorem comparable_of_small {a b : Str} (ha : SmallVersion a) (hb : SmallVersion b) :
    Comparable (mkversion a) (mkversion b) := by
  refine ⟨fun i => ?_, ?_⟩
  · have hai := ha.getD i
    have hbi := hb.getD i
    rw [FitsInt]
    omega
  · have har := ha.2
    have hbr := hb.2
    rw [FitsInt]
    omega

/-- On numbers of 14 digits it is none. -/
example :
    cmpver "foo-20240101000000_1".toList "foo-20250101000000_1".toList ≤ 0 ∧
      cmpver "foo-20250101000000_1".toList "foo-20260101000000_1".toList ≤ 0 ∧
      ¬ cmpver "foo-20240101000000_1".toList "foo-20260101000000_1".toList ≤ 0 := by
  decide

end Flappy
