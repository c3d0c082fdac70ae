/-
The file names of binary packages (`flappy_binpkg_pkgver` and
`flappy_binpkg_arch` in `lib/util.c`, `binpkg_parse` in
`bin/flappy-remove/clean-cache.c`).

A package is stored as `<pkgver>.<arch>.flappy`.  The decoders cut off as many
characters as the extension has, without a look at them, and take the text
before and behind the last dot of the rest.

* `fileName_binpkgFile` — the name that `flappy_pkg_path` builds;
* `binpkgPkgver_reencodes_iff`, `binpkgArch_reencodes_iff`,
  `binpkgParse_reencodes_iff` — the names each decoder reads as they were written;
* `binpkg_names_iff` — the decoders and the encoder together.
-/
import Flappy.Fetch
import Mathlib.Algebra.GroupWithZero.Nat

open CStr

namespace Flappy

/-! ### The decoders -/

/-- The name `flappy_pkg_path` gives a package. -/
def binpkgName (pkgver arch : Str) : Str := pkgver ++ '.' :: (arch ++ ".flappy".toList)

/-- The file name at the end of a path. -/
def fileName (pkg : Str) : Str :=
  match strrchr '/' pkg with
  | some (_, fname) => fname
  | none => pkg

/-- The file name less its last seven characters, as both functions of the
library copy it; its length is kept in an `unsigned int`. -/
def stripExt (pkg : Str) : Option Str :=
  let len := (fileName pkg).length % 2 ^ 32
  if len < 7 then none else some ((fileName pkg).take (len - 7))

/-- The text before and behind the last dot of the copy. -/
def binpkgSplit (pkg : Str) : Option (Str × Str) := (stripExt pkg).bind fun p => strrchr '.' p

/-- `flappy_binpkg_pkgver`. -/
def binpkgPkgver (pkg : Str) : Option Str :=
  match binpkgSplit pkg with
  | none => none
  | some (p, _) => if (pkgVersion p).isSome then some p else none

/-- `flappy_binpkg_arch`. -/
def binpkgArch (pkg : Str) : Option Str :=
  match binpkgSplit pkg with
  | none => none
  | some (_, arch) => some arch

/-- The loop of `binpkg_parse` from an index down to the previous dot, or to the
start of the buffer. -/
def previousDot (buf : Str) : Nat → Nat
  | 0 => 0
  | i + 1 => if buf[i + 1]? ≠ some '.' then previousDot buf i else i + 1

/-- `binpkg_parse` with a buffer of `bufsz` bytes: the pkgver and the
architecture.  The inner `none` is an error, the outer one an access before the
start of the buffer. -/
def binpkgParse (bufsz : Nat) (path : Str) : Option (Option (Str × Str)) :=
  let n := path.length
  if bufsz ≤ n then some none
  -- `*p = '\0'` at `buf+n-7`, and the next look is at the byte before
  else if n < 8 then none
  else
    let buf := path.take (n - 7)
    let p := previousDot buf (n - 8)
    if buf[p]? ≠ some '.' then some none
    else if (pkgVersion (buf.take p)).isNone then some none
    else some (some (buf.take p, buf.drop (p + 1)))

/-! ### What the cut leaves -/

/-- A text that a package name less its extension can be. -/
def IsPkgverArch (s : Str) : Prop :=
  ∃ pkgver arch, s = pkgver ++ '.' :: arch ∧ '.' ∉ arch ∧ (pkgVersion pkgver).isSome

theorem previousDot_spec (buf : Str) (i : Nat) :
    previousDot buf i ≤ i ∧ (buf[previousDot buf i]? = some '.' ∨ previousDot buf i = 0) ∧
      ∀ j, previousDot buf i < j → j ≤ i → buf[j]? ≠ some '.' := by
  induction i with
  | zero => exact ⟨Nat.le_refl _, Or.inr rfl, fun j h₁ h₂ => absurd h₂ (by omega)⟩
  | succ i ih =>
    rw [previousDot]
    by_cases hdot : buf[i + 1]? = some '.'
    · rw [if_neg (fun h => h hdot)]
      exact ⟨Nat.le_refl _, Or.inl hdot, fun j h₁ h₂ => absurd h₂ (by omega)⟩
    · obtain ⟨hle, hstop, hgo⟩ := ih
      rw [if_pos hdot]
      refine ⟨by omega, hstop, ?_⟩
      intro j h₁ h₂
      rcases Nat.eq_or_lt_of_le h₂ with rfl | hlt
      · exact hdot
      · exact hgo j h₁ (by omega)

/-- From the last character, the loop finds the last dot. -/
theorem previousDot_eq {buf pkgver arch : Str} (h : buf = pkgver ++ '.' :: arch)
    (harch : '.' ∉ arch) : previousDot buf (buf.length - 1) = pkgver.length := by
  have hlen : buf.length = pkgver.length + 1 + arch.length := by
    rw [h, List.length_append, List.length_cons]
    omega
  have hdot : buf[pkgver.length]? = some '.' := by
    rw [h]
    simp
  obtain ⟨hle, hstop, hgo⟩ := previousDot_spec buf (buf.length - 1)
  rcases Nat.lt_trichotomy (previousDot buf (buf.length - 1)) pkgver.length with hlt | heq | hgt
  · exact absurd hdot (hgo _ hlt (by omega))
  · exact heq
  · -- a dot behind the last one
    rcases hstop with hread | hzero
    · rw [h, List.getElem?_append_right (by rw [← h]; omega)] at hread
      obtain ⟨k, hk⟩ : ∃ k, previousDot buf (buf.length - 1) - pkgver.length = k + 1 :=
        ⟨_, (Nat.sub_add_cancel (by omega)).symm⟩
      rw [← h, hk, List.getElem?_cons_succ] at hread
      exact absurd (List.mem_of_getElem? hread) harch
    · omega

/-- The result of `binpkg_parse` on a name that fits and is long enough. -/
theorem binpkgParse_eq {bufsz : Nat} {path : Str} (hfit : path.length < bufsz)
    (hlong : 8 ≤ path.length) :
    binpkgParse bufsz path = some
      ((strrchr '.' (path.take (path.length - 7))).bind fun (pkgver, arch) =>
        if (pkgVersion pkgver).isSome then some (pkgver, arch) else none) := by
  have hlen : (path.take (path.length - 7)).length - 1 = path.length - 8 := by
    rw [List.length_take]
    omega
  rw [binpkgParse, if_neg (by omega), if_neg (by omega), ← hlen]
  generalize path.take (path.length - 7) = buf
  simp only
  cases hdot : strrchr '.' buf with
  | none =>
    have hread : buf[previousDot buf (buf.length - 1)]? ≠ some '.' := fun h =>
      strrchr_eq_none.mp hdot (List.mem_of_getElem? h)
    rw [if_pos hread]
    rfl
  | some r =>
    obtain ⟨pkgver, arch⟩ := r
    obtain ⟨hbuf, harch⟩ := strrchr_eq_some.mp hdot
    have htake : buf.take pkgver.length = pkgver := by rw [hbuf, List.take_left]
    have hdrop : buf.drop (pkgver.length + 1) = arch := by
      rw [hbuf, ← List.drop_drop, List.drop_left]
      rfl
    have hread : buf[pkgver.length]? = some '.' := by
      rw [hbuf]
      simp
    rw [previousDot_eq hbuf harch, htake, hdrop, if_neg (fun h => h hread)]
    cases hver : pkgVersion pkgver with
    | none => simp [hver]
    | some v => simp [hver]

/-- A name is the cut text with the extension, if that is what was cut off. -/
theorem binpkgName_eq_iff {name pkgver arch : Str} {n : Nat}
    (h : name.take n = pkgver ++ '.' :: arch) :
    name = binpkgName pkgver arch ↔ name = name.take n ++ ".flappy".toList := by
  rw [h, binpkgName, List.append_assoc, List.cons_append]

/-- The name ends in the extension. -/
def HasExt (name : Str) : Prop := ".flappy".toList <:+ name

theorem take_ext_iff {name : Str} : name = name.take (name.length - 7) ++ ".flappy".toList ↔
    HasExt name := by
  have hlen : ".flappy".toList.length = 7 := rfl
  constructor
  · intro h
    rw [h]
    exact List.suffix_append _ _
  · rintro ⟨s, rfl⟩
    rw [List.length_append, hlen, Nat.add_sub_cancel, List.take_left]

/-! ### Reading and writing a name again -/

/-- A pkgver that the library accepts, as the name of a file. -/
structure WellFormed (pkgver : Str) : Prop where
  version : (pkgVersion pkgver).isSome
  no_slash : '/' ∉ pkgver

/-- What the two functions of the library do with a text of the form. -/
theorem binpkgSplit_eq_some {pkg pkgver arch : Str} :
    binpkgSplit pkg = some (pkgver, arch) ↔
      ∃ s, stripExt pkg = some s ∧ s = pkgver ++ '.' :: arch ∧ '.' ∉ arch := by
  rw [binpkgSplit, Option.bind_eq_some_iff]
  simp only [strrchr_eq_some]

theorem binpkgPkgver_eq_some {pkg pkgver : Str} :
    binpkgPkgver pkg = some pkgver ↔
      ∃ arch, binpkgSplit pkg = some (pkgver, arch) ∧ (pkgVersion pkgver).isSome := by
  rw [binpkgPkgver]
  cases binpkgSplit pkg with
  | none => simp
  | some r =>
    obtain ⟨p, arch⟩ := r
    simp only [Option.ite_none_right_eq_some, Option.some.injEq, Prod.mk.injEq]
    constructor
    · rintro ⟨hver, rfl⟩
      exact ⟨arch, ⟨rfl, rfl⟩, hver⟩
    · rintro ⟨arch', ⟨rfl, rfl⟩, hver⟩
      exact ⟨hver, rfl⟩

theorem binpkgArch_eq_some {pkg arch : Str} :
    binpkgArch pkg = some arch ↔ ∃ pkgver, binpkgSplit pkg = some (pkgver, arch) := by
  rw [binpkgArch]
  cases binpkgSplit pkg with
  | none => simp
  | some r =>
    obtain ⟨p, a⟩ := r
    simp

/-- The file name in a path that `flappy_pkg_path` builds. -/
theorem fileName_binpkgFile (dir : Str) {pkgver arch : Str} (hver : '/' ∉ pkgver)
    (harch : '/' ∉ arch) : fileName (binpkgFile dir pkgver arch) = binpkgName pkgver arch := by
  have hfile : binpkgFile dir pkgver arch = dir ++ '/' :: binpkgName pkgver arch := by
    simp [binpkgFile, binpkgName]
  have hslash : '/' ∉ binpkgName pkgver arch := by
    simp [binpkgName, hver, harch]
  rw [fileName, strrchr_eq_some.mpr ⟨hfile, hslash⟩]

theorem binpkgName_length (pkgver arch : Str) :
    (binpkgName pkgver arch).length = (pkgver ++ '.' :: arch).length + 7 := by
  simp [binpkgName]
  omega

theorem take_binpkgName (pkgver arch : Str) :
    (binpkgName pkgver arch).take ((binpkgName pkgver arch).length - 7) = pkgver ++ '.' :: arch := by
  have hname : binpkgName pkgver arch = (pkgver ++ '.' :: arch) ++ ".flappy".toList := by
    simp [binpkgName]
  rw [binpkgName_length, Nat.add_sub_cancel, hname, List.take_left]

/-- The decoders recover what the encoder wrote. -/
theorem binpkg_round_trip {pkg pkgver arch : Str} (hname : fileName pkg = binpkgName pkgver arch)
    (hver : WellFormed pkgver) (hdot : '.' ∉ arch) (hlen : (fileName pkg).length < 2 ^ 32) :
    binpkgPkgver pkg = some pkgver ∧ binpkgArch pkg = some arch ∧
      ∀ bufsz, (fileName pkg).length < bufsz →
        binpkgParse bufsz (fileName pkg) = some (some (pkgver, arch)) := by
  have hn := binpkgName_length pkgver arch
  rw [List.length_append, List.length_cons] at hn
  have hsplit : binpkgSplit pkg = some (pkgver, arch) := by
    refine binpkgSplit_eq_some.mpr ⟨_, ?_, rfl, hdot⟩
    rw [stripExt, Nat.mod_eq_of_lt hlen, hname, if_neg (by omega), take_binpkgName]
  refine ⟨binpkgPkgver_eq_some.mpr ⟨arch, hsplit, hver.version⟩,
    binpkgArch_eq_some.mpr ⟨pkgver, hsplit⟩, ?_⟩
  intro bufsz hbuf
  rw [binpkgParse_eq hbuf (by rw [hname]; omega), hname, take_binpkgName,
    strrchr_eq_some.mpr ⟨rfl, hdot⟩]
  simp [hver.version]

/-- The pkgver that `flappy_binpkg_pkgver` returns gives the name again, with
the architecture it has cut off. -/
def PkgverReencodes (pkg : Str) : Prop :=
  ∀ pkgver, binpkgPkgver pkg = some pkgver →
    ∃ arch, binpkgSplit pkg = some (pkgver, arch) ∧ fileName pkg = binpkgName pkgver arch

/-- The architecture that `flappy_binpkg_arch` returns gives the name again,
with the text before it. -/
def ArchReencodes (pkg : Str) : Prop :=
  ∀ arch, binpkgArch pkg = some arch →
    ∃ pkgver, binpkgSplit pkg = some (pkgver, arch) ∧ fileName pkg = binpkgName pkgver arch

/-- `binpkg_parse` stays behind the start of the name, and what it returns
gives the name again. -/
def ParseReencodes (bufsz : Nat) (path : Str) : Prop :=
  ∃ r, binpkgParse bufsz path = some r ∧
    ∀ pkgver arch, r = some (pkgver, arch) → path = binpkgName pkgver arch

/-- The extension is what the functions of the library cut off. -/
def CutsExt (pkg : Str) : Prop := (fileName pkg).length < 2 ^ 32 ∧ HasExt (fileName pkg)

/-- The two halves of the copy give the name again exactly if the extension was cut off. -/
theorem binpkgSplit_reencodes_iff {pkg pkgver arch : Str}
    (h : binpkgSplit pkg = some (pkgver, arch)) :
    fileName pkg = binpkgName pkgver arch ↔ CutsExt pkg := by
  obtain ⟨s, hs, hform, -⟩ := binpkgSplit_eq_some.mp h
  rw [stripExt] at hs
  simp only [Option.ite_none_left_eq_some, Option.some.injEq] at hs
  obtain ⟨hlong, hcut⟩ := hs
  have hmod : (fileName pkg).length % 2 ^ 32 ≤ (fileName pkg).length := Nat.mod_le _ _
  rw [binpkgName_eq_iff (hcut.trans hform), CutsExt, ← take_ext_iff]
  constructor
  · intro heq
    -- the copy and the extension are as long as the name, so that no length was lost
    have hlen := congrArg List.length heq
    have hext : ".flappy".toList.length = 7 := rfl
    rw [List.length_append, List.length_take, hext] at hlen
    have hsame : (fileName pkg).length % 2 ^ 32 = (fileName pkg).length := by omega
    refine ⟨by rw [← hsame]; exact Nat.mod_lt _ (by omega), ?_⟩
    rwa [hsame] at heq
  · rintro ⟨hlt, heq⟩
    rwa [Nat.mod_eq_of_lt hlt]

theorem binpkgPkgver_reencodes_iff (pkg : Str) :
    PkgverReencodes pkg ↔ ((∃ s, stripExt pkg = some s ∧ IsPkgverArch s) → CutsExt pkg) := by
  constructor
  · rintro h ⟨s, hs, pkgver, arch, hform, harch, hver⟩
    have hsplit := binpkgSplit_eq_some.mpr ⟨s, hs, hform, harch⟩
    obtain ⟨arch', hsplit', hname⟩ := h pkgver (binpkgPkgver_eq_some.mpr ⟨arch, hsplit, hver⟩)
    exact (binpkgSplit_reencodes_iff hsplit').mp hname
  · intro h pkgver hp
    obtain ⟨arch, hsplit, hver⟩ := binpkgPkgver_eq_some.mp hp
    obtain ⟨s, hs, hform, harch⟩ := binpkgSplit_eq_some.mp hsplit
    have hext := h ⟨s, hs, pkgver, arch, hform, harch, hver⟩
    exact ⟨arch, hsplit, (binpkgSplit_reencodes_iff hsplit).mpr hext⟩

theorem binpkgArch_reencodes_iff (pkg : Str) :
    ArchReencodes pkg ↔ ((∃ s, stripExt pkg = some s ∧ '.' ∈ s) → CutsExt pkg) := by
  constructor
  · rintro h ⟨s, hs, hdot⟩
    obtain ⟨⟨pkgver, arch⟩, hr⟩ : ∃ r, strrchr '.' s = some r := by
      rw [← Option.ne_none_iff_exists']
      exact fun hnone => strrchr_eq_none.mp hnone hdot
    obtain ⟨hform, harch⟩ := strrchr_eq_some.mp hr
    have hsplit := binpkgSplit_eq_some.mpr ⟨s, hs, hform, harch⟩
    obtain ⟨pkgver', hsplit', hname⟩ := h arch (binpkgArch_eq_some.mpr ⟨pkgver, hsplit⟩)
    exact (binpkgSplit_reencodes_iff hsplit').mp hname
  · intro h arch ha
    obtain ⟨pkgver, hsplit⟩ := binpkgArch_eq_some.mp ha
    obtain ⟨s, hs, hform, -⟩ := binpkgSplit_eq_some.mp hsplit
    have hext := h ⟨s, hs, by rw [hform]; simp⟩
    exact ⟨pkgver, hsplit, (binpkgSplit_reencodes_iff hsplit).mpr hext⟩

theorem binpkgParse_reencodes_iff (bufsz : Nat) (path : Str) :
    ParseReencodes bufsz path ↔
      bufsz ≤ path.length ∨
        8 ≤ path.length ∧ (IsPkgverArch (path.take (path.length - 7)) → HasExt path) := by
  by_cases hfit : bufsz ≤ path.length
  · refine iff_of_true ⟨none, by rw [binpkgParse, if_pos hfit], ?_⟩ (Or.inl hfit)
    exact fun _ _ h => absurd h (by simp)
  by_cases hlong : path.length < 8
  · refine iff_of_false ?_ ?_
    · rintro ⟨r, hr, -⟩
      rw [binpkgParse, if_neg hfit, if_pos hlong] at hr
      cases hr
    · rintro (hle | ⟨hle, -⟩)
      · exact hfit hle
      · omega
  have hparse : binpkgParse bufsz path = _ := binpkgParse_eq (by omega) (by omega)
  have hname : ∀ {pkgver arch}, strrchr '.' (path.take (path.length - 7)) = some (pkgver, arch) →
      (path = binpkgName pkgver arch ↔ HasExt path) := by
    intro pkgver arch hdot
    rw [binpkgName_eq_iff (strrchr_eq_some.mp hdot).1, take_ext_iff]
  constructor
  · rintro ⟨r, hr, hre⟩
    refine Or.inr ⟨by omega, ?_⟩
    rintro ⟨pkgver, arch, hform, harch, hver⟩
    have hdot := strrchr_eq_some.mpr ⟨hform, harch⟩
    rw [hparse, hdot, Option.some.injEq] at hr
    refine (hname hdot).mp (hre pkgver arch ?_)
    rw [← hr]
    simp [hver]
  · rintro (hle | ⟨-, hext⟩)
    · exact absurd hle hfit
    · refine ⟨_, hparse, ?_⟩
      intro pkgver arch hr
      rw [Option.bind_eq_some_iff] at hr
      obtain ⟨⟨p, a⟩, hdot, hif⟩ := hr
      simp only [Option.ite_none_right_eq_some, Option.some.injEq, Prod.mk.injEq] at hif
      obtain ⟨hver, rfl, rfl⟩ := hif
      obtain ⟨hform, harch⟩ := strrchr_eq_some.mp hdot
      exact (hname hdot).mpr (hext ⟨p, a, hform, harch, hver⟩)

/-- **What `flappy_pkg_path` writes is read back, and a name is read as it was
written exactly if what was cut off is the extension** (`snprintf` writes less
than 2^31 characters). -/
theorem binpkg_names_iff (dir pkgver arch pkg : Str) (bufsz : Nat) :
    (WellFormed pkgver → '.' ∉ arch → '/' ∉ arch → (binpkgFile dir pkgver arch).length < 2 ^ 31 →
      binpkgPkgver (binpkgFile dir pkgver arch) = some pkgver ∧
        binpkgArch (binpkgFile dir pkgver arch) = some arch ∧
        ((binpkgName pkgver arch).length < bufsz →
          binpkgParse bufsz (binpkgName pkgver arch) = some (some (pkgver, arch)))) ∧
      (PkgverReencodes pkg ↔ ((∃ s, stripExt pkg = some s ∧ IsPkgverArch s) → CutsExt pkg)) ∧
      (ArchReencodes pkg ↔ ((∃ s, stripExt pkg = some s ∧ '.' ∈ s) → CutsExt pkg)) ∧
      (ParseReencodes bufsz pkg ↔
        bufsz ≤ pkg.length ∨
          8 ≤ pkg.length ∧ (IsPkgverArch (pkg.take (pkg.length - 7)) → HasExt pkg)) := by
  refine ⟨?_, binpkgPkgver_reencodes_iff pkg, binpkgArch_reencodes_iff pkg,
    binpkgParse_reencodes_iff bufsz pkg⟩
  intro hver hdot hslash hlen
  have hname := fileName_binpkgFile dir hver.no_slash hslash
  have hshort : (fileName (binpkgFile dir pkgver arch)).length < 2 ^ 32 := by
    rw [hname]
    have hfile : binpkgFile dir pkgver arch = dir ++ '/' :: binpkgName pkgver arch := by
      simp [binpkgFile, binpkgName]
    rw [hfile, List.length_append, List.length_cons] at hlen
    omega
  obtain ⟨hpkgver, harch, hparse⟩ := binpkg_round_trip hname hver hdot hshort
  rw [hname] at hparse
  exact ⟨hpkgver, harch, hparse bufsz⟩

theorem binpkg_names_iff_foo :
    binpkgPkgver "/cache/foo-1.0_1.x86_64.flappy".toList = some "foo-1.0_1".toList ∧
      binpkgArch "/cache/foo-1.0_1.x86_64.flappy".toList = some "x86_64".toList := by
  obtain ⟨htrip, -, -, -⟩ :=
    binpkg_names_iff "/cache".toList "foo-1.0_1".toList "x86_64".toList ".flappy".toList pathMax
  obtain ⟨hpkgver, harch, -⟩ := htrip ⟨by decide +kernel, by simp⟩ (by simp) (by simp) (by decide)
  exact ⟨hpkgver, harch⟩

/-- The file `.flappy` of a cache directory is looked at before its start, and
another extension of seven characters is taken for `.flappy`. -/
theorem binpkg_names_misread :
    ¬ ParseReencodes pathMax ".flappy".toList ∧
      ¬ PkgverReencodes "foo-1.0_1.x86_64.tar.xz".toList := by
  constructor
  · rintro ⟨r, hr, -⟩
    have hnone : binpkgParse pathMax ".flappy".toList = none := rfl
    rw [hnone] at hr
    cases hr
  · intro h
    have hp : binpkgPkgver "foo-1.0_1.x86_64.tar.xz".toList = some "foo-1.0_1".toList := by
      decide +kernel
    obtain ⟨arch, hsplit, hname⟩ := h _ hp
    have hext := ((binpkgSplit_reencodes_iff hsplit).mp hname).2
    have hno : ¬ ".flappy".toList <:+ fileName "foo-1.0_1.x86_64.tar.xz".toList := by
      decide +kernel
    exact hno hext

end Flappy
