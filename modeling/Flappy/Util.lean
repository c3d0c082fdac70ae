/-
Package names, versions and patterns (`lib/util.c`).

A *pkgver* is `<name>-<version>_<revision>`; the name ends at the last `-`.
A *pattern* contains one of `><*?[]`.  Everything else that asks for a package
(`foo`) is a plain name.  Which of the three a string is decides how every
lookup of the library reads it, so the predicates below are used throughout.

* `pkgName_eq_some` — what a successful `flappy_pkg_name` says about its input;
* `pkgVersion_eq_some` — the same for `flappy_pkg_version`;
* `pkgpatternName_eq_some` — and for `flappy_pkgpattern_name`.
-/
import Flappy.Lib.CStr

open CStr

namespace Flappy

/-- The `errno` values with which the modelled functions fail. -/
inductive Errno where
  | eacces
  | eagain
  | ebusy
  | eexist
  | einval
  | eloop
  | enodev
  | enoent
  | enoexec
  | enospc
  | enotempty
  | enotsup
  | enxio
  | eperm
  | erange
deriving DecidableEq, Repr

/-- `FLAPPY_NAME_SIZE`: the size of every package name buffer. -/
def nameSize : Nat := 64

/-- The characters that make a request a pattern. -/
def patternChars : List Char := ['>', '<', '*', '?', '[', ']']

/-- `is_revision`: digits and underscores only, and at least one of them. -/
def isRevision (s : Str) : Bool := !s.isEmpty && s.all fun c => c.isDigit || c = '_'

/-- The scan shared by `flappy_pkg_version`, `flappy_pkg_revision` and
`flappy_pkg_name` over the text behind the last `-`: some digit comes before
the first `_`, and a revision follows that `_`. -/
def scanVersion : Str → Bool
  | [] => false
  | c :: rest =>
    if c = '_' then false
    else if c.isDigit then
      match strchr '_' rest with
      | some (_, r) => isRevision r
      | none => scanVersion rest
    else scanVersion rest

/-- `flappy_pkg_version`. -/
def pkgVersion (pkg : Str) : Option Str :=
  match strrchr '-' pkg with
  | none => none
  | some (_, p) => if scanVersion p then some p else none

/-- `flappy_pkg_name` into a buffer of `len` bytes. -/
def pkgNameLen (len : Nat) (pkg : Str) : Option Str :=
  match strrchr '-' pkg with
  | none => none
  | some (n, p) =>
    if !scanVersion p then none
    else if len < n.length + 1 then none
    else some n

/-- `flappy_pkg_name` into a buffer of `FLAPPY_NAME_SIZE` bytes. -/
def pkgName : Str → Option Str := pkgNameLen nameSize

/-- `flappy_pkgpattern_version`: the suffix that starts at the first pattern character. -/
def pkgpatternVersion (pkg : Str) : Option Str := strpbrk patternChars pkg

/-- `flappy_pkgpattern_name` into a buffer of `len` bytes: the text before the
first pattern character, less one `-` at its end. -/
def pkgpatternNameLen (len : Nat) (pkg : Str) : Option Str :=
  match pkgpatternVersion pkg with
  | none => none
  | some _ =>
    let pre := strcspn patternChars pkg
    -- `strlen(pkg) < plen - 2` wraps around, and holds, only for an empty prefix
    if pre = [] then none
    else
      let n := if pre.getLast? = some '-' then pre.dropLast else pre
      if len < n.length + 1 then none else some n

/-- `flappy_pkgpattern_name` into a buffer of `FLAPPY_NAME_SIZE` bytes. -/
def pkgpatternName : Str → Option Str := pkgpatternNameLen nameSize

/-- The name of a dependency: `flappy_pkgpattern_name`, else `flappy_pkg_name`. -/
def depName (dep : Str) : Option Str := (pkgpatternName dep).or (pkgName dep)

/-- The three ways in which the library reads a request. -/
inductive Request where
  | pattern
  | pkgver
  | pkgname
deriving DecidableEq, Repr

/-- The cascade `flappy_pkgpattern_version` / `flappy_pkg_version` / else. -/
def request (s : Str) : Request :=
  if (pkgpatternVersion s).isSome then .pattern
  else if (pkgVersion s).isSome then .pkgver
  else .pkgname

/-! ### Names and versions -/

theorem pkgNameLen_eq_some {len : Nat} {pkg n : Str} :
    pkgNameLen len pkg = some n ↔
      ∃ v, pkg = n ++ '-' :: v ∧ '-' ∉ v ∧ scanVersion v = true ∧ n.length + 1 ≤ len := by
  rw [pkgNameLen]
  cases h : strrchr '-' pkg with
  | none =>
    constructor
    · intro h'; exact absurd h' (by simp)
    · rintro ⟨v, rfl, _⟩
      exact absurd (strrchr_eq_none.mp h) (by simp)
  | some p =>
    obtain ⟨n', v'⟩ := p
    obtain ⟨hpkg, hv'⟩ := strrchr_eq_some.mp h
    constructor
    · intro h'
      by_cases hs : scanVersion v' = true
      · by_cases hl : len < n'.length + 1
        · simp [hs, hl] at h'
        · simp only [hs, Bool.not_true, Bool.false_eq_true, if_false, if_neg hl,
            Option.some.injEq] at h'
          subst h'
          exact ⟨v', hpkg, hv', hs, by omega⟩
      · simp [hs] at h'
    · rintro ⟨v, hp, hv, hs, hl⟩
      have := strrchr_eq_some.mpr ⟨hp, hv⟩
      rw [h] at this
      simp only [Option.some.injEq, Prod.mk.injEq] at this
      obtain ⟨rfl, rfl⟩ := this
      simp [hs, Nat.not_lt.mpr hl]

theorem pkgName_eq_some {pkg n : Str} :
    pkgName pkg = some n ↔
      ∃ v, pkg = n ++ '-' :: v ∧ '-' ∉ v ∧ scanVersion v = true ∧ n.length + 1 ≤ nameSize :=
  pkgNameLen_eq_some

theorem pkgVersion_eq_some {pkg v : Str} :
    pkgVersion pkg = some v ↔
      ∃ n, pkg = n ++ '-' :: v ∧ '-' ∉ v ∧ scanVersion v = true := by
  rw [pkgVersion]
  cases h : strrchr '-' pkg with
  | none =>
    constructor
    · intro h'; exact absurd h' (by simp)
    · rintro ⟨n, rfl, _⟩
      exact absurd (strrchr_eq_none.mp h) (by simp)
  | some p =>
    obtain ⟨n', v'⟩ := p
    obtain ⟨hpkg, hv'⟩ := strrchr_eq_some.mp h
    constructor
    · intro h'
      by_cases hs : scanVersion v' = true
      · simp only [hs, if_true, Option.some.injEq] at h'
        subst h'
        exact ⟨n', hpkg, hv', hs⟩
      · simp [hs] at h'
    · rintro ⟨n, hp, hv, hs⟩
      have := strrchr_eq_some.mpr ⟨hp, hv⟩
      rw [h] at this
      simp only [Option.some.injEq, Prod.mk.injEq] at this
      obtain ⟨rfl, rfl⟩ := this
      simp [hs]

/-- The text before the first pattern character, less one `-` at its end. -/
def patternStem (pkg : Str) : Str :=
  let pre := strcspn patternChars pkg
  if pre.getLast? = some '-' then pre.dropLast else pre

theorem pkgpatternName_eq_some {pkg n : Str} :
    pkgpatternName pkg = some n ↔
      (pkgpatternVersion pkg).isSome ∧ strcspn patternChars pkg ≠ [] ∧ n = patternStem pkg ∧
        n.length + 1 ≤ nameSize := by
  rw [pkgpatternName, pkgpatternNameLen]
  cases pkgpatternVersion pkg with
  | none => simp
  | some v =>
    simp only [Option.isSome_some, true_and]
    by_cases hpre : strcspn patternChars pkg = []
    · simp [hpre]
    · rw [if_neg hpre]
      show (if nameSize < (patternStem pkg).length + 1 then none else some (patternStem pkg)) =
        some n ↔ _
      by_cases hlen : nameSize < (patternStem pkg).length + 1
      · rw [if_pos hlen]
        constructor
        · intro h
          cases h
        · rintro ⟨-, rfl, h⟩
          omega
      · rw [if_neg hlen, Option.some.injEq]
        constructor
        · rintro rfl
          exact ⟨hpre, rfl, by omega⟩
        · rintro ⟨-, rfl, -⟩
          rfl

theorem patternStem_isPrefix (pkg : Str) : patternStem pkg <+: pkg := by
  have hpre : strcspn patternChars pkg <+: pkg := List.takeWhile_prefix _
  rw [patternStem]
  split
  · exact (List.dropLast_prefix _).trans hpre
  · exact hpre

/-! ### How a request is read -/

theorem pkgVersion_isSome {pkg n : Str} (h : pkgName pkg = some n) : (pkgVersion pkg).isSome := by
  obtain ⟨v, hpkg, hv, hs, -⟩ := pkgName_eq_some.mp h
  exact Option.isSome_iff_exists.mpr ⟨v, pkgVersion_eq_some.mpr ⟨n, hpkg, hv, hs⟩⟩

theorem request_of_pkgpatternName {str : Str} (h : (pkgpatternName str).isSome) :
    request str = .pattern := by
  obtain ⟨n, hn⟩ := Option.isSome_iff_exists.mp h
  exact if_pos (pkgpatternName_eq_some.mp hn).1

/-- A dependency with a name is not a bare name. -/
theorem request_of_depName {dep : Str} (h : (depName dep).isSome) : request dep ≠ .pkgname := by
  intro hreq
  rw [depName] at h
  cases hp : pkgpatternName dep with
  | some n =>
    rw [request_of_pkgpatternName (by rw [hp]; rfl)] at hreq
    cases hreq
  | none =>
    rw [hp, Option.none_or] at h
    obtain ⟨n, hn⟩ := Option.isSome_iff_exists.mp h
    rw [request, pkgVersion_isSome hn] at hreq
    split at hreq
    · cases hreq
    · cases hreq

end Flappy
