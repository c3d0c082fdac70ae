/-
The three parsers of package versions (`flappy_pkg_version`,
`flappy_pkg_revision` and `flappy_pkg_name` in `lib/util.c`).

Each has a loop of its own behind the last `-`, for a digit with a `_` behind it:
the first two start behind the `-`, the third reads the text from the `-` on and
starts at 1.  The index is an `unsigned int`, the length a `size_t`.

* `loop_returns` — where the counter gets far enough, the loops end as `scanVersion` does;
* `pkgVersion_returns`, `pkgRevision_returns`, `pkgName_returns` — the results then;
* `pkgParsers_agree_iff` — the strings on which the three agree;
* `pkgParsers_disagree` — a version whose first digit is 2 ^ 32 characters behind the `-`.
-/
import Flappy.Lib.Counter
import Flappy.Util
import Mathlib.Algebra.GroupWithZero.Nat

open CStr Counter

namespace Flappy

/-- The number of values of an `unsigned int`. -/
def uintSize : ℕ := 2 ^ 32

namespace Loops

/-! ### The loops -/

/-- The tests on `p[i]`: `some none` is a `break`, and `some (some r)` the `_` that `r`
points at. -/
def testAt (p : Str) (i : ℕ) : Option (Option Str) :=
  match p.drop i with
  | [] => none
  | c :: rest =>
    if c = '_' then some none
    else if c.isDigit then (strchr '_' rest).map fun (_, r) => some ('_' :: r)
    else none

/-- `flappy_pkg_version`; the outer `none` is a loop that still runs. -/
def pkgVersion (pkg : Str) (turns : ℕ) : Option (Option Str) :=
  match strrchr '-' pkg with
  | none => some none
  | some (_, p) =>
    let body i := (testAt p i).map fun
      | none => none
      | some r => if !isRevision r.tail then none else some p
    (forLoop uintSize p.length body turns 0).map Option.join

/-- `flappy_pkg_revision`. -/
def pkgRevision (pkg : Str) (turns : ℕ) : Option (Option Str) :=
  match strrchr '-' pkg with
  | none => some none
  | some (_, p) =>
    let body i := (testAt p i).map fun
      | none => none
      | some r => if !isRevision r.tail then none else (strrchr '_' r).map Prod.snd
    (forLoop uintSize p.length body turns 0).map Option.join

/-- `flappy_pkg_name` into a buffer of `len` bytes. -/
def pkgName (len : ℕ) (pkg : Str) (turns : ℕ) : Option (Option Str) :=
  match strrchr '-' pkg with
  | none => some none
  | some (_, version) =>
    -- `p` points at the `-`
    let p := '-' :: version
    let body i := (testAt p i).map fun
      | none => false
      | some r => isRevision r.tail
    (forLoop uintSize p.length body turns 1).map fun valid =>
      let plen := pkg.length - p.length + 1
      if !valid.getD false then none
      else if len < plen then none
      else some (pkg.take (plen - 1))

/-! ### The scan -/

/-- What ends the scan of a text, if anything does. -/
def stop : Str → Option (Option Str)
  | [] => none
  | c :: rest =>
    match testAt (c :: rest) 0 with
    | some o => some o
    | none => stop rest

theorem testAt_append (front v : Str) (k : ℕ) :
    testAt (front ++ v) (front.length + k) = testAt v k := by
  rw [testAt, List.drop_append, List.drop_of_length_le (by omega), List.nil_append,
    Nat.add_sub_cancel_left]
  rfl

theorem testAt_lt {v : Str} {k : ℕ} {o : Option Str} (h : testAt v k = some o) : k < v.length := by
  by_contra hle
  rw [testAt, List.drop_of_length_le (by omega)] at h
  cases h

/-- The scan ends at the first place where the tests end it. -/
theorem stop_eq_some {v : Str} {o : Option Str} :
    stop v = some o ↔ ∃ k, testAt v k = some o ∧ ∀ j, j < k → testAt v j = none := by
  induction v with
  | nil =>
    constructor
    · intro h
      cases h
    · rintro ⟨k, hk, -⟩
      exact absurd (testAt_lt hk) (by simp)
  | cons c v ih =>
    rw [stop]
    rcases htest : testAt (c :: v) 0 with _ | o'
    · show stop v = some o ↔ _
      rw [ih]
      constructor
      · rintro ⟨k, hk, hnone⟩
        refine ⟨k + 1, hk, ?_⟩
        intro j hj
        rcases j with _ | j
        · exact htest
        · exact hnone j (by omega)
      · rintro ⟨k, hk, hnone⟩
        rcases k with _ | k
        · rw [htest] at hk
          cases hk
        · exact ⟨k, hk, fun j hj => hnone (j + 1) (by omega)⟩
    · show some o' = some o ↔ _
      constructor
      · rintro heq
        exact ⟨0, htest.trans heq, by omega⟩
      · rintro ⟨k, hk, hnone⟩
        rcases k with _ | k
        · rw [← htest, hk]
        · rw [hnone 0 (by omega)] at htest
          cases htest

theorem stop_eq_none {v : Str} : stop v = none ↔ ∀ k, testAt v k = none := by
  induction v with
  | nil => exact ⟨fun _ k => by simp [testAt], fun _ => rfl⟩
  | cons c v ih =>
    rw [stop]
    rcases htest : testAt (c :: v) 0 with _ | o
    · show stop v = none ↔ _
      rw [ih]
      constructor
      · intro hnone k
        rcases k with _ | k
        · exact htest
        · exact hnone k
      · intro hnone k
        exact hnone (k + 1)
    · constructor
      · intro h
        cases h
      · intro hnone
        rw [hnone 0] at htest
        cases htest

/-- What the scan of `Flappy.scanVersion` makes of the place where it ends. -/
theorem scanVersion_eq (v : Str) :
    scanVersion v = match stop v with
      | some (some r) => isRevision r.tail
      | _ => false := by
  induction v with
  | nil => rfl
  | cons c v ih =>
    rw [scanVersion, stop, testAt, List.drop_zero]
    by_cases hc : c = '_'
    · simp only [if_pos hc]
    · simp only [if_neg hc]
      by_cases hd : c.isDigit = true
      · simp only [if_pos hd]
        rcases strchr '_' v with _ | ⟨a, r⟩
        · exact ih
        · rfl
      · simp only [if_neg hd]
        exact ih

/-- A digit with a `_` behind it ends the scan at the first `_` of the text. -/
theorem stop_split {v r : Str} (h : stop v = some (some r)) :
    ∃ a r', r = '_' :: r' ∧ v = a ++ '_' :: r' ∧ '_' ∉ a := by
  induction v with
  | nil => cases h
  | cons c v ih =>
    rw [stop, testAt, List.drop_zero] at h
    by_cases hc : c = '_'
    · simp only [if_pos hc] at h
      cases h
    · simp only [if_neg hc] at h
      have hgo : stop v = some (some r) →
          ∃ a r', r = '_' :: r' ∧ c :: v = a ++ '_' :: r' ∧ '_' ∉ a := by
        intro hv
        obtain ⟨a, r', hr, rfl, ha⟩ := ih hv
        exact ⟨c :: a, r', hr, rfl, by simpa [Ne.symm hc] using ha⟩
      by_cases hd : c.isDigit = true
      · simp only [if_pos hd] at h
        rcases hr : strchr '_' v with _ | ⟨a, r'⟩
        · rw [hr] at h
          exact hgo h
        · rw [hr] at h
          obtain ⟨rfl, ha⟩ := strchr_eq_some.mp hr
          obtain rfl : '_' :: r' = r := Option.some.inj (Option.some.inj h)
          exact ⟨c :: a, r', rfl, rfl, by simpa [Ne.symm hc] using ha⟩
      · simp only [if_neg hd] at h
        exact hgo h

/-- **The loops end as the scan does**, where the counter gets to the place at which the
scan ends or, if there is none, to the end of the text. -/
theorem loop_returns {γ : Type} (front v : Str) (g : Option Str → γ)
    (h : front.length + v.length < uintSize ∨
      ∃ k, front.length + k < uintSize ∧ testAt v k ≠ none) :
    Returns (fun turns => forLoop uintSize (front ++ v).length
      (fun i => (testAt (front ++ v) i).map g) turns front.length) ((stop v).map g) := by
  have hshift : ∀ j, front.length ≤ j → testAt (front ++ v) j = testAt v (j - front.length) := by
    intro j hj
    rw [← testAt_append front v, Nat.add_sub_cancel' hj]
  have hlen : (front ++ v).length = front.length + v.length := List.length_append
  rcases hstop : stop v with _ | o
  · have hnone := stop_eq_none.mp hstop
    have hshort : front.length + v.length < uintSize := by
      rcases h with h | ⟨k, -, hk⟩
      · exact h
      · exact absurd (hnone k) hk
    refine forLoop_end (by omega) (by omega) ?_
    intro j hj _
    rw [hshift j hj, hnone, Option.map_none]
  · obtain ⟨k, hk, hfirst⟩ := stop_eq_some.mp hstop
    have hkv : k < v.length := testAt_lt hk
    have hreach : front.length + k < uintSize := by
      rcases h with h | ⟨k', hk', hstop'⟩
      · omega
      · by_contra hfar
        exact hstop' (hfirst k' (by omega))
    refine forLoop_hit (by omega) (by omega) hreach ?_ ?_
    · intro j hj hjk
      rw [hshift j hj, hfirst _ (by omega), Option.map_none]
    · show (testAt (front ++ v) (front.length + k)).map g = some (g o)
      rw [testAt_append, hk, Option.map_some]

/-! ### The results -/

/-- The text behind the last `-` is shorter than `2 ^ 32 - 1`, or among its first
`2 ^ 32 - 1` characters is a `_`, or a digit with a `_` behind it. -/
def InTime (pkg : Str) : Prop :=
  ∀ n v, strrchr '-' pkg = some (n, v) →
    v.length + 1 < uintSize ∨ ∃ k, k + 1 < uintSize ∧ testAt v k ≠ none

/-- What stands behind the last `_`. -/
def behindLast (v : Str) : Option Str := (strrchr '_' v).map Prod.snd

theorem behindLast_append {a r : Str} (h : '_' ∈ r) : behindLast (a ++ r) = behindLast r := by
  obtain ⟨b, rev, hr⟩ := exists_strrchr h
  obtain ⟨rfl, hrev⟩ := strrchr_eq_some.mp hr
  have happ : strrchr '_' (a ++ (b ++ '_' :: rev)) = some (a ++ b, rev) :=
    strrchr_eq_some.mpr ⟨by simp, hrev⟩
  rw [behindLast, happ, behindLast, hr]
  rfl

variable {pkg : Str}

/-- The loops behind the last `-`, and from it on. -/
theorem behind_returns {γ : Type} (h : InTime pkg) {n v : Str}
    (hdash : strrchr '-' pkg = some (n, v)) (front : Str) (hfront : front.length ≤ 1)
    (g : Option Str → γ) :
    Returns (fun turns => forLoop uintSize (front ++ v).length
      (fun i => (testAt (front ++ v) i).map g) turns front.length) ((stop v).map g) := by
  refine loop_returns front v g ?_
  rcases h n v hdash with hshort | ⟨k, hk, hstop⟩
  · exact Or.inl (by omega)
  · exact Or.inr ⟨k, by omega, hstop⟩

theorem pkgVersion_returns (h : InTime pkg) : Returns (pkgVersion pkg) (Flappy.pkgVersion pkg) := by
  rcases hdash : strrchr '-' pkg with _ | ⟨n, v⟩
  · exact ⟨0, by rw [pkgVersion, Flappy.pkgVersion, hdash]⟩
  · set g : Option Str → Option Str := fun
      | none => none
      | some r => if !isRevision r.tail then none else some v with hg
    obtain ⟨turns, hturns⟩ := (behind_returns h hdash [] (by simp) g).map Option.join
    refine ⟨turns, ?_⟩
    have hvalue : ((stop v).map g).join = Flappy.pkgVersion pkg := by
      rw [Flappy.pkgVersion, hdash]
      simp only [scanVersion_eq]
      rcases stop v with _ | _ | r
      · rfl
      · rfl
      · show (if !isRevision r.tail then none else some v) =
          if isRevision r.tail then some v else none
        cases isRevision r.tail <;> rfl
    rw [← hvalue, pkgVersion, hdash]
    exact hturns

theorem pkgRevision_returns (h : InTime pkg) :
    Returns (pkgRevision pkg) ((Flappy.pkgVersion pkg).bind behindLast) := by
  rcases hdash : strrchr '-' pkg with _ | ⟨n, v⟩
  · exact ⟨0, by rw [pkgRevision, Flappy.pkgVersion, hdash]; rfl⟩
  · set g : Option Str → Option Str := fun
      | none => none
      | some r => if !isRevision r.tail then none else (strrchr '_' r).map Prod.snd with hg
    obtain ⟨turns, hturns⟩ := (behind_returns h hdash [] (by simp) g).map Option.join
    refine ⟨turns, ?_⟩
    have hvalue : ((stop v).map g).join = (Flappy.pkgVersion pkg).bind behindLast := by
      rw [Flappy.pkgVersion, hdash]
      simp only [scanVersion_eq]
      rcases hstop : stop v with _ | _ | r
      · rfl
      · rfl
      · obtain ⟨a, r', rfl, rfl, -⟩ := stop_split hstop
        show (if !isRevision r' then none else behindLast ('_' :: r')) =
          (if isRevision r' then some (a ++ '_' :: r') else none).bind behindLast
        cases isRevision r'
        · rfl
        · exact (behindLast_append List.mem_cons_self).symm
    rw [← hvalue, pkgRevision, hdash]
    exact hturns

theorem pkgName_returns (h : InTime pkg) (len : ℕ) :
    Returns (pkgName len pkg) (pkgNameLen len pkg) := by
  rcases hdash : strrchr '-' pkg with _ | ⟨n, v⟩
  · exact ⟨0, by rw [pkgName, pkgNameLen, hdash]⟩
  · set g : Option Str → Bool := fun
      | none => false
      | some r => isRevision r.tail with hg
    have hsplit : pkg = n ++ '-' :: v := (strrchr_eq_some.mp hdash).1
    set result : Option Bool → Option Str := fun valid =>
      let plen := pkg.length - ('-' :: v).length + 1
      if !valid.getD false then none
      else if len < plen then none
      else some (pkg.take (plen - 1)) with hresult
    obtain ⟨turns, hturns⟩ := (behind_returns h hdash ['-'] (by simp) g).map result
    refine ⟨turns, ?_⟩
    have hvalid : ((stop v).map g).getD false = scanVersion v := by
      rw [scanVersion_eq]
      rcases stop v with _ | _ | r <;> rfl
    have hlen : pkg.length - ('-' :: v).length = n.length := by
      rw [hsplit, List.length_append]
      omega
    have hvalue : result ((stop v).map g) = pkgNameLen len pkg := by
      rw [hresult, pkgNameLen, hdash]
      simp only [hvalid, hlen, Nat.add_sub_cancel]
      rw [hsplit, List.take_left]
    rw [← hvalue, pkgName, hdash]
    exact hturns

/-! ### Agreement -/

/-- What a name, a version and a revision say about their string. -/
structure Parsed (pkg name version revision : Str) : Prop where
  split : pkg = name ++ '-' :: version
  dash : '-' ∉ version
  last : ∃ front, pkg = front ++ '_' :: revision ∧ '_' ∉ revision
  digits : ∀ c ∈ revision, c.isDigit = true

/-- The three parsers return, and accept the string together or not at all: the name is
for every buffer that holds the string. -/
def Agree (pkg : Str) : Prop :=
  ∃ version revision, Returns (pkgVersion pkg) version ∧ Returns (pkgRevision pkg) revision ∧
    (version.isSome ↔ revision.isSome) ∧
    ∀ len, pkg.length + 1 ≤ len → ∃ name, Returns (pkgName len pkg) name ∧
      (version.isSome ↔ name.isSome) ∧
      ∀ n v r, name = some n → version = some v → revision = some r → Parsed pkg n v r

/-- A text that the scan accepts has a `_`, and behind the first of them digits and
further ones. -/
theorem exists_revision {v : Str} (h : scanVersion v = true) :
    ∃ a r, v = a ++ '_' :: r ∧ isRevision r = true := by
  rw [scanVersion_eq] at h
  rcases hstop : stop v with _ | _ | r
  · rw [hstop] at h
    cases h
  · rw [hstop] at h
    cases h
  · rw [hstop] at h
    obtain ⟨a, r', rfl, hv, -⟩ := stop_split hstop
    exact ⟨a, r', hv, h⟩

theorem behindLast_isSome {v : Str} (h : scanVersion v = true) : (behindLast v).isSome = true := by
  obtain ⟨a, r, rfl, -⟩ := exists_revision h
  obtain ⟨b, rev, hr⟩ := exists_strrchr (c := '_') (s := a ++ '_' :: r) (by simp)
  rw [behindLast, hr]
  rfl

theorem behindLast_digits {v rev : Str} (h : scanVersion v = true)
    (hrev : behindLast v = some rev) : ∀ c ∈ rev, c.isDigit = true := by
  obtain ⟨a, r, rfl, hr⟩ := exists_revision h
  rw [behindLast_append List.mem_cons_self, behindLast, Option.map_eq_some_iff] at hrev
  obtain ⟨⟨b, rev'⟩, hlast, rfl⟩ := hrev
  obtain ⟨hsplit, hrev'⟩ := strrchr_eq_some.mp hlast
  rw [isRevision, Bool.and_eq_true, List.all_eq_true] at hr
  intro c hc
  have hmem : c ∈ r := by
    rcases b with _ | ⟨x, b⟩
    · rw [(List.cons.inj hsplit).2]
      exact hc
    · rw [(List.cons.inj hsplit).2]
      exact List.mem_append_right _ (List.mem_cons_of_mem _ hc)
  have hne : c ≠ '_' := fun heq => hrev' (heq ▸ hc)
  simpa [hne] using hr.2 c hmem

theorem parsed_of_results {len : ℕ} {n v r : Str} (hn : pkgNameLen len pkg = some n)
    (hv : Flappy.pkgVersion pkg = some v) (hr : behindLast v = some r) : Parsed pkg n v r := by
  obtain ⟨n', hsplit, hdash, hscan⟩ := pkgVersion_eq_some.mp hv
  obtain ⟨v', hsplit', hdash', -, -⟩ := pkgNameLen_eq_some.mp hn
  have hsame := (strrchr_eq_some.mpr ⟨hsplit, hdash⟩).symm.trans
    (strrchr_eq_some.mpr ⟨hsplit', hdash'⟩)
  obtain ⟨rfl, rfl⟩ := Prod.mk.inj (Option.some.inj hsame)
  refine ⟨hsplit, hdash, ?_, behindLast_digits hscan hr⟩
  rw [behindLast, Option.map_eq_some_iff] at hr
  obtain ⟨⟨b, r'⟩, hlast, rfl⟩ := hr
  obtain ⟨rfl, hr'⟩ := strrchr_eq_some.mp hlast
  exact ⟨n' ++ '-' :: b, by rw [hsplit]; simp, hr'⟩

theorem pkgNameLen_isSome_iff {len : ℕ} (h : pkg.length + 1 ≤ len) :
    (pkgNameLen len pkg).isSome ↔ (Flappy.pkgVersion pkg).isSome := by
  rw [Option.isSome_iff_exists, Option.isSome_iff_exists]
  constructor
  · rintro ⟨n, hn⟩
    obtain ⟨v, hsplit, hdash, hscan, -⟩ := pkgNameLen_eq_some.mp hn
    exact ⟨v, pkgVersion_eq_some.mpr ⟨n, hsplit, hdash, hscan⟩⟩
  · rintro ⟨v, hv⟩
    obtain ⟨n, hsplit, hdash, hscan⟩ := pkgVersion_eq_some.mp hv
    refine ⟨n, pkgNameLen_eq_some.mpr ⟨v, hsplit, hdash, hscan, ?_⟩⟩
    have hlen := congrArg List.length hsplit
    rw [List.length_append] at hlen
    omega

theorem revision_isSome_iff :
    ((Flappy.pkgVersion pkg).bind behindLast).isSome ↔ (Flappy.pkgVersion pkg).isSome := by
  rcases hv : Flappy.pkgVersion pkg with _ | v
  · exact Iff.rfl
  · obtain ⟨n, -, -, hscan⟩ := pkgVersion_eq_some.mp hv
    show (behindLast v).isSome ↔ (some v).isSome
    rw [behindLast_isSome hscan]
    exact Iff.rfl

theorem agree_of_inTime (h : InTime pkg) : Agree pkg := by
  refine ⟨_, _, pkgVersion_returns h, pkgRevision_returns h, revision_isSome_iff.symm, ?_⟩
  intro len hlen
  refine ⟨_, pkgName_returns h len, (pkgNameLen_isSome_iff hlen).symm, ?_⟩
  intro n v r hn hv hr
  rw [hv] at hr
  exact parsed_of_results hn hv hr

/-- The third loop, a character behind the others, never ends on the other strings. -/
theorem pkgName_forever (h : ¬ InTime pkg) (len turns : ℕ) : pkgName len pkg turns = none := by
  obtain ⟨n, v, hdash, hlong, hnone⟩ : ∃ n v, strrchr '-' pkg = some (n, v) ∧
      uintSize ≤ v.length + 1 ∧ ∀ k, k + 1 < uintSize → testAt v k = none := by
    by_contra hcon
    refine h ?_
    intro n v hdash
    by_contra hout
    rw [not_or] at hout
    refine hcon ⟨n, v, hdash, by omega, ?_⟩
    intro k hk
    by_contra hstop
    exact hout.2 ⟨k, hk, hstop⟩
  have htest : ∀ j, j < uintSize → testAt ('-' :: v) j = none := by
    intro j hj
    rcases j with _ | j
    · rfl
    · exact hnone j hj
  have hone : 1 < uintSize := by decide
  have hlong' : uintSize ≤ ('-' :: v).length := hlong
  rw [pkgName, hdash]
  show Option.map _ (forLoop uintSize ('-' :: v).length _ turns 1) = none
  rw [forLoop_forever hlong' (fun j hj => by rw [htest j hj, Option.map_none]) hone,
    Option.map_none]

theorem pkgRevision_succ (turns : ℕ) (v : Option Str) (h : pkgRevision pkg turns = some v) :
    pkgRevision pkg (turns + 1) = some v := by
  rw [pkgRevision] at h ⊢
  rcases hdash : strrchr '-' pkg with _ | ⟨n, p⟩
  · rw [hdash] at h
    exact h
  · rw [hdash] at h
    obtain ⟨w, hw, rfl⟩ := Option.map_eq_some_iff.mp h
    exact Option.map_eq_some_iff.mpr ⟨w, forLoop_succ hw, rfl⟩

theorem behindLast_eq_nil {v : Str} : behindLast v = some [] ↔ v.getLast? = some '_' := by
  constructor
  · intro h
    rw [behindLast, Option.map_eq_some_iff] at h
    obtain ⟨⟨b, r⟩, hlast, hr⟩ := h
    obtain rfl : r = [] := hr
    rw [(strrchr_eq_some.mp hlast).1, List.getLast?_concat]
  · intro h
    obtain ⟨b, rfl⟩ : ∃ b, v = b ++ ['_'] :=
      ⟨v.dropLast, (List.dropLast_append_getLast? '_' h).symm⟩
    have hlast : strrchr '_' (b ++ ['_']) = some (b, []) := strrchr_eq_some.mpr ⟨rfl, by simp⟩
    rw [behindLast, hlast]
    rfl

/-- The revision is the empty text where the version ends with a `_`. -/
theorem revision_nil_iff (h : InTime pkg) :
    Returns (pkgRevision pkg) (some []) ↔
      ∃ v, Flappy.pkgVersion pkg = some v ∧ v.getLast? = some '_' := by
  have hvalue : Returns (pkgRevision pkg) (some []) ↔
      (Flappy.pkgVersion pkg).bind behindLast = some [] := by
    constructor
    · intro hnil
      exact Returns.unique pkgRevision_succ (pkgRevision_returns h) hnil
    · intro hnil
      rw [← hnil]
      exact pkgRevision_returns h
  rw [hvalue, Option.bind_eq_some_iff]
  simp only [behindLast_eq_nil]

/-- **The three parsers agree exactly if the counters get far enough**.  The revision that
they agree on is not empty exactly if, moreover, the version does not end with a `_`. -/
theorem pkgParsers_agree_iff (pkg : Str) :
    (Agree pkg ↔ InTime pkg) ∧
      (Agree pkg ∧ ¬ Returns (pkgRevision pkg) (some []) ↔
        InTime pkg ∧ ∀ v, Flappy.pkgVersion pkg = some v → v.getLast? ≠ some '_') := by
  have hagree : Agree pkg ↔ InTime pkg := by
    constructor
    · rintro ⟨version, revision, -, -, -, hname⟩
      by_contra h
      obtain ⟨name, ⟨turns, hturns⟩, -⟩ := hname (pkg.length + 1) (Nat.le_refl _)
      rw [pkgName_forever h] at hturns
      cases hturns
    · exact agree_of_inTime
  refine ⟨hagree, ?_⟩
  rw [hagree]
  refine and_congr_right ?_
  intro h
  rw [revision_nil_iff h]
  constructor
  · intro hnot v hv hlast
    exact hnot ⟨v, hv, hlast⟩
  · rintro hall ⟨v, hv, hlast⟩
    exact hall v hv hlast

/-- A version with its first digit at an index that the third counter does not reach. -/
theorem pkgParsers_far {k : ℕ} (hk : k + 1 = uintSize) :
    Returns (pkgVersion ("a-".toList ++ (List.replicate k 'x' ++ "1_1".toList)))
        (some (List.replicate k 'x' ++ "1_1".toList)) ∧
      ∀ len turns,
        pkgName len ("a-".toList ++ (List.replicate k 'x' ++ "1_1".toList)) turns = none := by
  set v : Str := List.replicate k 'x' ++ "1_1".toList with hv
  have hdash : strrchr '-' ("a-".toList ++ v) = some (['a'], v) := by
    refine strrchr_eq_some.mpr ⟨rfl, ?_⟩
    intro hmem
    rcases List.mem_append.mp hmem with hmem | hmem
    · exact absurd (List.eq_of_mem_replicate hmem) (by decide)
    · exact absurd hmem (by decide)
  -- the scan finds nothing in the filling
  have hx : ∀ j, j < k → testAt v j = none := by
    intro j hj
    rw [hv, testAt, List.drop_append, List.drop_replicate]
    obtain ⟨d, hd⟩ : ∃ d, k - j = d + 1 := ⟨k - j - 1, by omega⟩
    rw [hd, List.replicate_succ]
    rfl
  have hdigit : testAt v k = some (some "_1".toList) := by
    have happ := testAt_append (List.replicate k 'x') "1_1".toList 0
    rw [List.length_replicate] at happ
    exact happ
  have hlen : v.length = k + 3 := by
    rw [hv, List.length_append, List.length_replicate]
    rfl
  constructor
  · set g : Option Str → Option Str := fun
      | none => none
      | some r => if !isRevision r.tail then none else some v with hg
    have hhit : Returns
        (fun turns => forLoop uintSize v.length (fun i => (testAt v i).map g) turns 0)
        (some (some v)) := by
      refine forLoop_hit (Nat.zero_le k) (by omega) (by omega) ?_ ?_
      · intro j _ hj
        rw [hx j hj, Option.map_none]
      · show (testAt v k).map g = some (some v)
        rw [hdigit]
        rfl
    obtain ⟨turns, hturns⟩ := hhit.map Option.join
    refine ⟨turns, ?_⟩
    rw [pkgVersion, hdash]
    exact hturns
  · -- the other parser's counter wraps before it comes to the end
    refine pkgName_forever ?_
    intro h
    rcases h ['a'] v hdash with hshort | ⟨j, hj, hstop⟩
    · omega
    · exact hstop (hx j (by omega))

/-- Behind the `-`, the first digit comes after 2 ^ 32 - 1 letters: the version is found,
and the loop for the name never ends. -/
theorem pkgParsers_disagree :
    Returns (pkgVersion ("a-".toList ++ (List.replicate (2 ^ 32 - 1) 'x' ++ "1_1".toList)))
        (some (List.replicate (2 ^ 32 - 1) 'x' ++ "1_1".toList)) ∧
      (∀ len turns, pkgName len
        ("a-".toList ++ (List.replicate (2 ^ 32 - 1) 'x' ++ "1_1".toList)) turns = none) ∧
      ¬ Agree ("a-".toList ++ (List.replicate (2 ^ 32 - 1) 'x' ++ "1_1".toList)) := by
  have hk : 2 ^ 32 - 1 + 1 = uintSize := by decide
  obtain ⟨hversion, hname⟩ := pkgParsers_far hk
  refine ⟨hversion, hname, ?_⟩
  rintro ⟨version, revision, -, -, -, hagree⟩
  obtain ⟨name, ⟨turns, hturns⟩, -⟩ := hagree _ (Nat.le_refl _)
  rw [hname] at hturns
  cases hturns

end Loops

end Flappy
