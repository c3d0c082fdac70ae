/-
The two implementations of `reverts` (`check_reverts` in
`bin/flappy-checkvers/main.c`, `flappy_pkg_reverts` in `lib/util.c`).

A package may name versions that it goes back from.  The library keeps them in
an array and compares whole elements; the checker walks over the text of the
template and compares as many characters as there are up to the next space.

* `checkReverts_iff` — what the walk accepts;
* `checkReverts_agrees_iff` — when it agrees with the library.
-/
import Flappy.Lib.Pieces
import Flappy.Lib.Strncmp
import Flappy.Plist

open CStr

namespace Flappy.Checkvers

/-- The loop of `check_reverts`; the fuel bounds what is left of the text. -/
def checkRevertsLoop (repover : Str) : Nat → Str → Bool
  | 0, _ => false
  | n + 1, s =>
    if s = [] then false
    else
      match strchr ' ' s with
      -- `e` is the end of the text, and the loop ends behind it
      | none => strncmp s.length s repover = .eq
      | some (tok, rest) =>
        if strncmp tok.length s repover = .eq then true else checkRevertsLoop repover n rest

/-- `check_reverts`. -/
def checkReverts (repover reverts : Str) : Bool := checkRevertsLoop repover reverts.length reverts

/-! ### What the walk accepts -/

/-- Somewhere the walk stands at a space: the text begins with one, or one
follows another. -/
def EmptyToken (s : Str) : Prop := s.head? = some ' ' ∨ [' ', ' '] <:+: s

/-- Comparing as many characters as the token has asks whether it begins the version. -/
theorem strncmp_token (tok rest repover : Str) :
    strncmp tok.length (tok ++ rest) repover = .eq ↔ tok <+: repover := by
  rw [strncmp_eq, List.take_left, List.prefix_iff_eq_take]

theorem doubleSpace_append {tok rest : Str} (h : ' ' ∉ tok) :
    [' ', ' '] <:+: tok ++ ' ' :: rest ↔ EmptyToken rest := by
  induction tok with
  | nil =>
    rw [List.nil_append, List.infix_cons_iff, EmptyToken]
    have hhead : [' ', ' '] <+: ' ' :: rest ↔ rest.head? = some ' ' := by
      rcases rest with _ | ⟨c, rest⟩
      · simp
      · simp [eq_comm]
    rw [hhead]
  | cons c tok ih =>
    have hc : ' ' ≠ c := fun heq => h (heq ▸ List.mem_cons_self)
    have hno : ¬ [' ', ' '] <+: c :: (tok ++ ' ' :: rest) := by
      intro hpre
      exact hc (List.cons_prefix_cons.mp hpre).1
    rw [List.cons_append, List.infix_cons_iff, or_iff_right hno]
    exact ih fun hmem => h (List.mem_cons_of_mem _ hmem)

/-- An empty token behind a first one is one of the rest. -/
theorem emptyToken_append {tok rest : Str} (h : ' ' ∉ tok) :
    EmptyToken (tok ++ ' ' :: rest) ↔ tok = [] ∨ EmptyToken rest := by
  rw [EmptyToken, doubleSpace_append h]
  rcases tok with _ | ⟨c, tok⟩
  · simp
  · have hc : c ≠ ' ' := fun heq => h (by simp [heq])
    simp [hc]

theorem checkRevertsLoop_iff {repover : Str} {n : Nat} {s : Str} (hn : s.length ≤ n) :
    checkRevertsLoop repover n s = true ↔
      (∃ v ∈ pieces ' ' s, v <+: repover) ∨ EmptyToken s := by
  induction n generalizing s with
  | zero =>
    obtain rfl : s = [] := List.length_eq_zero_iff.mp (Nat.le_zero.mp hn)
    simp [checkRevertsLoop, EmptyToken]
  | succ n ih =>
    rw [checkRevertsLoop]
    by_cases hs : s = []
    · subst hs
      simp [EmptyToken]
    rw [if_neg hs]
    cases hspace : strchr ' ' s with
    | none =>
      rw [strchr_eq_none] at hspace
      have hempty : ¬ EmptyToken s := by
        rintro (hhead | hin)
        · exact hspace (List.mem_of_head? hhead)
        · exact hspace (hin.subset (by simp))
      have hcmp := strncmp_token s [] repover
      rw [List.append_nil] at hcmp
      simp [hempty, pieces_single hs hspace, hcmp]
    | some r =>
      obtain ⟨tok, rest⟩ := r
      obtain ⟨rfl, htok⟩ := strchr_eq_some.mp hspace
      rw [List.length_append, List.length_cons] at hn
      simp only
      rw [pieces_append, emptyToken_append htok]
      by_cases hnil : tok = []
      · -- an empty token is equal to every version
        subst hnil
        simp [strncmp]
      · rw [pieces_single hnil htok]
        by_cases hpre : tok <+: repover
        · rw [if_pos ((strncmp_token tok _ repover).mpr hpre)]
          simp [hpre]
        · rw [if_neg (fun h => hpre ((strncmp_token tok _ repover).mp h)), ih (by omega)]
          simp [hnil, hpre]

/-- **The walk accepts the versions that begin with an element of the list**,
and every version if there is an empty token. -/
theorem checkReverts_iff (repover reverts : Str) :
    checkReverts repover reverts = true ↔
      (∃ v ∈ pieces ' ' reverts, v <+: repover) ∨ EmptyToken reverts :=
  checkRevertsLoop_iff (Nat.le_refl _)

/-! ### The two implementations -/

/-- The text is the list with spaces between its elements, and possibly at its ends. -/
def IsJoined (list : List Str) (reverts : Str) : Prop := pieces ' ' reverts = list

instance (list : List Str) (reverts : Str) : Decidable (IsJoined list reverts) :=
  inferInstanceAs (Decidable (pieces ' ' reverts = list))

/-- `check_reverts` says whether the version is in the list, and so does
`flappy_pkg_reverts` for the packages with this list and version. -/
def RevertsAgree (list : List Str) (repover reverts : Str) : Prop :=
  (checkReverts repover reverts = true ↔ repover ∈ list) ∧
    ∀ pkg pkgver, pkg.reverts.getD [] = list → pkgVersion pkgver = some repover →
      pkgReverts pkg pkgver = checkReverts repover reverts

/-- `flappy_pkg_reverts` compares whole elements. -/
theorem pkgReverts_iff {pkg : PkgDict} {pkgver version : Str}
    (h : pkgVersion pkgver = some version) :
    pkgReverts pkg pkgver = true ↔ version ∈ pkg.reverts.getD [] := by
  rw [pkgReverts, h]
  simp

/-- **The two agree exactly if the version is in the list, or no element
begins it and there is no empty token.** -/
theorem checkReverts_agrees_iff {list : List Str} {reverts : Str} (h : IsJoined list reverts)
    (repover : Str) :
    RevertsAgree list repover reverts ↔
      repover ∈ list ∨ (∀ v ∈ list, ¬ v <+: repover) ∧ ¬ EmptyToken reverts := by
  have hcheck := checkReverts_iff repover reverts
  rw [h] at hcheck
  constructor
  · rintro ⟨hagree, -⟩
    by_cases hmem : repover ∈ list
    · exact Or.inl hmem
    · have hfalse : ¬ checkReverts repover reverts = true := fun ht => hmem (hagree.mp ht)
      rw [hcheck, not_or] at hfalse
      exact Or.inr ⟨fun v hv hpre => hfalse.1 ⟨v, hv, hpre⟩, hfalse.2⟩
  · intro hcond
    have hagree : checkReverts repover reverts = true ↔ repover ∈ list := by
      rw [hcheck]
      rcases hcond with hmem | ⟨hno, hempty⟩
      · exact iff_of_true (Or.inl ⟨repover, hmem, List.prefix_rfl⟩) hmem
      · refine iff_of_false ?_ fun hmem => hno repover hmem List.prefix_rfl
        rintro (⟨v, hv, hpre⟩ | he)
        · exact hno v hv hpre
        · exact hempty he
    refine ⟨hagree, ?_⟩
    intro pkg pkgver hlist hver
    rw [Bool.eq_iff_iff, pkgReverts_iff hver, hlist, hagree]

theorem checkReverts_agrees_iff_two :
    RevertsAgree ["1.0_1".toList, "1.2_1".toList] "1.2_1".toList "1.0_1 1.2_1 ".toList ↔
      "1.2_1".toList ∈ ["1.0_1".toList, "1.2_1".toList] ∨
        (∀ v ∈ ["1.0_1".toList, "1.2_1".toList], ¬ v <+: "1.2_1".toList) ∧
          ¬ EmptyToken "1.0_1 1.2_1 ".toList :=
  checkReverts_agrees_iff (by decide +kernel) _

/-- The version `1.2_10` is taken for the reverted `1.2_1`. -/
theorem checkReverts_begins :
    IsJoined ["1.2_1".toList] "1.2_1".toList ∧
      ¬ RevertsAgree ["1.2_1".toList] "1.2_10".toList "1.2_1".toList := by
  constructor
  · decide +kernel
  · rintro ⟨hagree, -⟩
    have hcheck : checkReverts "1.2_10".toList "1.2_1".toList = true := by decide +kernel
    have hmem : "1.2_10".toList ∉ ["1.2_1".toList] := by decide +kernel
    exact hmem (hagree.mp hcheck)

end Flappy.Checkvers
