/-
Joining paths in a buffer (`flappy_path_join`, `flappy_path_append` and
`flappy_path_prepend` in `lib/util_path.c`).

The three functions follow one law, `joinPath`: one slash between two parts that
are not empty.  They differ in how they find out that the slash does not fit.

* `pathJoin_exact_iff`, `pathAppend_exact_iff`, `pathPrepend_exact` — when each
  of them joins, or fails, as it should;
* `path_concat_iff` — the three together.
-/
import Flappy.Lib.Buf
import Mathlib.Algebra.GroupWithZero.Nat

open CStr Buf

namespace Flappy

/-! ### The law -/

/-- The left part with a slash at its end. -/
def withSlash (left : Str) : Str := if left.getLast? = some '/' then left else left ++ ['/']

/-- The right part less a slash at its start. -/
def unslash (right : Str) : Str := if right.head? = some '/' then right.tail else right

/-- Two parts of a path with one slash between them, if neither is empty. -/
def joinPath (left right : Str) : Str :=
  if left = [] then right else if right = [] then left else withSlash left ++ unslash right

/-! ### The functions -/

/-- `(ssize_t)len < 0 ? -1 : (ssize_t)len`. -/
def ssize (len : Nat) : Option Nat := if 2 ^ 63 ≤ len then none else some len

/-- The slash that `flappy_path_vjoin` sets behind `len` characters: the buffer and
the new length.  The inner `none` is the jump to `err`, the outer one a write
outside the buffer. -/
def addSlash (dst : Bytes) (len : Nat) : Option (Bytes × Option Nat) :=
  if 0 < len ∧ dst[len - 1]? ≠ some '/' then
    if dst.length < len + 1 then some (dst, none)
    else
      ((put dst len ['/']).bind fun dst => put dst (len + 1) [nul]).map fun dst =>
        (dst, some (len + 1))
  else some (dst, some len)

/-- The loop of `flappy_path_vjoin`, with `val` in hand and `vals` to come.  The
inner `none` is -1, the outer one a write outside the buffer. -/
def vjoinLoop : List Str → Str → Bytes → Nat → Option (Bytes × Option Nat)
  | vals, val, dst, len =>
    match strlcat dst len val (dst.length - len) with
    | none => none
    | some (dst, n) =>
      if dst.length - len ≤ n then some (dst, none)
      else
        match vals with
        | [] => some (dst, ssize (len + n))
        | val :: vals =>
          match addSlash dst (len + n) with
          | none => none
          | some (dst, none) => some (dst, none)
          | some (dst, some len) =>
            vjoinLoop vals (if 0 < len then unslash val else val) dst len

/-- `flappy_path_join`; the size of the destination is that of the buffer. -/
def pathJoin (dst : Bytes) (vals : List Str) : Option (Bytes × Option Nat) :=
  match put dst 0 [nul] with
  | none => none
  | some dst =>
    match vals with
    | [] => some (dst, some 0)
    | val :: vals => vjoinLoop vals val dst 0

/-- `flappy_path_append`. -/
def pathAppend (dst : Bytes) (suffix : Str) : Option (Bytes × Option Nat) :=
  let s := text dst
  if suffix = [] then some (dst, ssize s.length)
  else if s = [] then
    match strlcpy dst 0 suffix dst.length with
    | none => none
    | some (dst, len) => some (dst, if dst.length ≤ len then none else ssize len)
  else
    match
      if s.getLast? ≠ some '/' ∧ s.length + 1 < dst.length then
        (put dst s.length ['/']).bind fun dst => put dst (s.length + 1) [nul]
      else some dst with
    | none => none
    | some dst =>
      match strlcat dst 0 (unslash suffix) dst.length with
      | none => none
      | some (dst, len) => some (dst, if dst.length ≤ len then none else ssize len)

/-- `flappy_path_prepend`. -/
def pathPrepend (dst : Bytes) (front : Str) : Option (Bytes × Option Nat) :=
  let s := text dst
  if front = [] then some (dst, ssize s.length)
  else if s = [] then
    match strlcpy dst 0 front dst.length with
    | none => none
    | some (dst, len) => some (dst, if dst.length ≤ len then none else ssize len)
  else
    let prelen := if front.getLast? = some '/' then front.length - 1 else front.length
    let p := unslash s
    -- prefix + '/' + dst + '\0'
    if dst.length < p.length + prelen + 2 then some (dst, none)
    else
      -- `memmove`, the slash, `memcpy` and the NUL
      match put dst (prelen + 1) p with
      | none => none
      | some dst =>
        match put dst prelen ['/'] with
        | none => none
        | some dst =>
          match put dst 0 (front.take prelen) with
          | none => none
          | some dst =>
            (put dst (p.length + prelen + 1) [nul]).map fun dst =>
              (dst, ssize (p.length + prelen + 1))

/-- The function failed, or it left the text and returned its length; nothing
was written outside the buffer. -/
def ExactOrFails (s : Str) : Option (Bytes × Option Nat) → Prop
  | none => False
  | some (_, none) => True
  | some (dst, some len) => text dst = s ∧ len = s.length

theorem exact_ssize {dst : Bytes} {s : Str} (h : Holds dst s) :
    ExactOrFails s (some (dst, ssize s.length)) := by
  rw [ssize]
  by_cases hlen : 2 ^ 63 ≤ s.length
  · rw [if_pos hlen]
    trivial
  · rw [if_neg hlen]
    exact ⟨h.text, rfl⟩

/-- The result of a copy that may have been cut off. -/
theorem exact_checked {dst : Bytes} {s : Str} (h : s.length < dst.length → Holds dst s) :
    ExactOrFails s (some (dst, if dst.length ≤ s.length then none else ssize s.length)) := by
  by_cases hlen : dst.length ≤ s.length
  · rw [if_pos hlen]
    trivial
  · rw [if_neg hlen]
    exact exact_ssize (h (by omega))

/-- A copy to a buffer that holds a string. -/
theorem exact_strlcpy {dst : Bytes} {s src : Str} (hdst : Holds dst s) (hsrc : nul ∉ src) :
    ExactOrFails src (match strlcpy dst 0 src dst.length with
      | none => none
      | some (dst, len) => some (dst, if dst.length ≤ len then none else ssize len)) := by
  have hne : dst ≠ [] := by
    rintro rfl
    exact absurd hdst.length_lt (by simp)
  obtain ⟨dst', hcpy, hlen, hholds⟩ := strlcpy_start hsrc hne
  rw [hcpy]
  rw [← hlen] at hholds
  exact exact_checked hholds

/-- The same for an appended text. -/
theorem exact_strlcat {dst : Bytes} {s src : Str} (hdst : Holds dst s) (hsrc : nul ∉ src) :
    ExactOrFails (s ++ src) (match strlcat dst 0 src dst.length with
      | none => none
      | some (dst, len) => some (dst, if dst.length ≤ len then none else ssize len)) := by
  obtain ⟨dst', hcat, hlen, hholds⟩ := strlcat_start hdst hsrc
  rw [hcat]
  rw [← hlen] at hholds
  exact exact_checked hholds

theorem joinPath_nil (s : Str) : joinPath s [] = s := by
  rw [joinPath]
  split
  · exact ‹s = []›.symm
  · rfl

/-- Only a lone slash leaves nothing. -/
theorem unslash_eq_nil {s : Str} (hne : s ≠ []) (h : unslash s = []) : s = ['/'] := by
  rw [unslash] at h
  by_cases hhead : s.head? = some '/'
  · rw [if_pos hhead] at h
    obtain ⟨c, t, rfl⟩ := List.exists_cons_of_ne_nil hne
    obtain rfl : c = '/' := by simpa using hhead
    rw [List.tail_cons] at h
    rw [h]
  · rw [if_neg hhead] at h
    exact absurd h hne

theorem nul_unslash {right : Str} (h : nul ∉ right) : nul ∉ unslash right := by
  rw [unslash]
  split
  · exact fun hmem => h (List.mem_of_mem_tail hmem)
  · exact h

theorem withSlash_length (left : Str) : left.length ≤ (withSlash left).length := by
  rw [withSlash]
  split
  · exact Nat.le_refl _
  · simp

/-- The slash of the law, written behind a text that does not end in one. -/
theorem put_slash {dst : Bytes} {s : Str} (h : Holds dst s) (hlen : s.length + 1 < dst.length) :
    ∃ dst', ((put dst s.length ['/']).bind fun dst => put dst (s.length + 1) [nul]) = some dst' ∧
      Holds dst' (s ++ ['/']) ∧ dst'.length = dst.length := by
  obtain ⟨hs, rest, rfl⟩ := h
  rw [List.length_append, List.length_cons] at hlen
  obtain ⟨r, rest, rfl⟩ := List.exists_cons_of_length_pos (l := rest) (by omega)
  have hfirst : put (s ++ nul :: r :: rest) s.length ['/'] = some (s ++ ['/'] ++ r :: rest) := by
    rw [put_append _ _ (by simp)]
    simp
  have hnul : nul ∉ s ++ ['/'] := by
    simpa [nul] using hs
  obtain ⟨dst', hput, hholds, hl⟩ := put_nul (a := s ++ ['/']) (r := r :: rest) (s := []) hnul
    (by simp) (by simp)
  rw [List.length_append, List.length_singleton, List.nil_append] at hput
  rw [List.append_nil] at hholds
  refine ⟨dst', ?_, hholds, ?_⟩
  · rw [hfirst, Option.bind_some, hput]
  · rw [hl]
    simp

/-- Where the slash takes the place of the NUL, the new NUL lies outside. -/
theorem put_slash_none {dst : Bytes} {s : Str} (h : Holds dst s) (hlen : s.length + 1 = dst.length) :
    ((put dst s.length ['/']).bind fun dst => put dst (s.length + 1) [nul]) = none := by
  obtain ⟨hs, rest, rfl⟩ := h
  obtain rfl : rest = [] := by
    rw [List.length_append, List.length_cons] at hlen
    exact List.length_eq_zero_iff.mp (by omega)
  have hfirst : put (s ++ [nul]) s.length ['/'] = some (s ++ ['/']) := by
    rw [put_append _ _ (by simp)]
    simp
  rw [hfirst, Option.bind_some]
  have hnone := put_none (s ++ ['/']) [] (s := [nul]) (by simp)
  rwa [List.append_nil, List.length_append, List.length_singleton] at hnone

/-! ### Joining -/

/-- The parts from `left` on, joined. -/
def joinPaths (left : Str) (vals : List Str) : Str := vals.foldl joinPath left

/-- Some of the parts, but not all, fill the buffer but for the NUL, and a slash
would have to follow. -/
def TightSlash (size : Nat) (left : Str) (vals : List Str) : Prop :=
  ∃ pre post, vals = pre ++ post ∧ post ≠ [] ∧ (joinPaths left pre).length + 1 = size ∧
    joinPaths left pre ≠ [] ∧ (joinPaths left pre).getLast? ≠ some '/'

theorem joinPath_length {left right : Str} : left.length ≤ (joinPath left right).length := by
  rw [joinPath]
  by_cases hl : left = []
  · simp [hl]
  · rw [if_neg hl]
    by_cases hr : right = []
    · rw [if_pos hr]
    · rw [if_neg hr, List.length_append]
      exact Nat.le_add_right_of_le (withSlash_length left)

theorem joinPaths_length (left : Str) (vals : List Str) :
    left.length ≤ (joinPaths left vals).length := by
  induction vals generalizing left with
  | nil => exact Nat.le_refl _
  | cons val vals ih => exact Nat.le_trans joinPath_length (ih _)

/-- The first part is the tight one, or a longer one is. -/
theorem tightSlash_cons {size : Nat} {left val : Str} {vals : List Str} :
    TightSlash size left (val :: vals) ↔
      (left.length + 1 = size ∧ left ≠ [] ∧ left.getLast? ≠ some '/') ∨
        TightSlash size (joinPath left val) vals := by
  constructor
  · rintro ⟨pre, post, heq, hpost, hlen, hne, hlast⟩
    rcases pre with _ | ⟨v, pre⟩
    · exact Or.inl ⟨hlen, hne, hlast⟩
    · obtain ⟨rfl, rfl⟩ := List.cons.inj heq
      exact Or.inr ⟨pre, post, rfl, hpost, hlen, hne, hlast⟩
  · rintro (⟨hlen, hne, hlast⟩ | ⟨pre, post, rfl, hpost, hlen, hne, hlast⟩)
    · exact ⟨[], val :: vals, rfl, by simp, hlen, hne, hlast⟩
    · exact ⟨val :: pre, post, rfl, hpost, hlen, hne, hlast⟩

/-- The `strlcat` of the loop: the part in hand goes behind what has been joined. -/
theorem strlcat_part {dst : Bytes} {acc val : Str} (hdst : Holds dst acc) (hval : nul ∉ val) :
    ∃ dst', strlcat dst acc.length val (dst.length - acc.length) = some (dst', val.length) ∧
      dst'.length = dst.length ∧ ((acc ++ val).length < dst.length → Holds dst' (acc ++ val)) := by
  obtain ⟨hacc, rest, rfl⟩ := hdst
  obtain ⟨dst', hcat, hlen, hholds⟩ := strlcat_at (s := []) rest hacc (by simp) hval
  simp only [List.nil_append, List.length_nil, Nat.zero_add] at hcat hlen hholds
  have hsub : (acc ++ nul :: rest).length - acc.length = (nul :: rest).length := by
    rw [List.length_append]
    omega
  refine ⟨dst', by rw [hsub, hcat], hlen, ?_⟩
  intro hlt
  refine hholds ?_
  rw [List.length_append, List.length_append] at hlt
  omega

/-- What is in the buffer when the next part is copied. -/
def separated (left : Str) : Str := if left = [] then [] else withSlash left

theorem separated_append {left val : Str} (hval : val ≠ []) :
    separated left ++ (if 0 < (separated left).length then unslash val else val) =
      joinPath left val := by
  rw [separated, joinPath]
  by_cases hl : left = []
  · rw [if_pos hl, if_pos hl]
    rfl
  · have hpos := List.length_pos_of_ne_nil hl
    have hle := withSlash_length left
    rw [if_neg hl, if_neg hl, if_neg hval, if_pos (by omega)]

theorem addSlash_tight {dst : Bytes} {left : Str} (h : Holds dst left) (hne : left ≠ [])
    (hlast : left.getLast? ≠ some '/') (hlen : left.length + 1 = dst.length) :
    addSlash dst left.length = none := by
  have hread : dst[left.length - 1]? = left.getLast? := h.getLast hne
  have hpos := List.length_pos_of_ne_nil hne
  rw [addSlash, hread, if_pos ⟨hpos, hlast⟩, if_neg (by omega), put_slash_none h hlen]
  rfl

theorem addSlash_fits {dst : Bytes} {left : Str} (h : Holds dst left)
    (hfit : ¬ (left.length + 1 = dst.length ∧ left ≠ [] ∧ left.getLast? ≠ some '/')) :
    ∃ dst', addSlash dst left.length = some (dst', some (separated left).length) ∧
      Holds dst' (separated left) ∧ dst'.length = dst.length := by
  have hlt := h.length_lt
  by_cases hne : left = []
  · subst hne
    exact ⟨dst, by simp [addSlash, separated], h, rfl⟩
  · have hpos := List.length_pos_of_ne_nil hne
    have hread : dst[left.length - 1]? = left.getLast? := h.getLast hne
    by_cases hlast : left.getLast? = some '/'
    · have hsep : separated left = left := by rw [separated, if_neg hne, withSlash, if_pos hlast]
      refine ⟨dst, ?_, by rwa [hsep], rfl⟩
      rw [addSlash, hread, if_neg (fun hand => hand.2 hlast), hsep]
    · have hsep : separated left = left ++ ['/'] := by
        rw [separated, if_neg hne, withSlash, if_neg hlast]
      have hroom : left.length + 1 < dst.length := by
        have hnot : left.length + 1 ≠ dst.length := fun heq => hfit ⟨heq, hne, hlast⟩
        omega
      obtain ⟨dst', hput, hholds, hl⟩ := put_slash h hroom
      refine ⟨dst', ?_, by rwa [hsep], hl⟩
      rw [addSlash, hread, if_pos ⟨hpos, hlast⟩, if_neg (by omega), hput, hsep]
      simp

/-- The loop, from a buffer that holds what was joined before the part in hand. -/
theorem vjoinLoop_exact_iff {vals : List Str} {val acc left : Str} {dst : Bytes}
    (hleft : acc ++ val = left) (hdst : Holds dst acc) (hval : nul ∉ val)
    (hvals : ∀ v ∈ vals, nul ∉ v ∧ v ≠ []) :
    ExactOrFails (joinPaths left vals) (vjoinLoop vals val dst acc.length) ↔
      ¬ TightSlash dst.length left vals := by
  induction vals generalizing val acc left dst with
  | nil =>
    obtain ⟨dst', hcat, hlen, hholds⟩ := strlcat_part hdst hval
    have htight : ¬ TightSlash dst.length left [] := by
      rintro ⟨pre, post, heq, hpost, -⟩
      exact hpost (List.append_eq_nil_iff.mp heq.symm).2
    refine iff_of_true ?_ htight
    have hacc := hdst.length_lt
    rw [vjoinLoop, hcat]
    simp only
    by_cases hfull : dst'.length - acc.length ≤ val.length
    · rw [if_pos hfull]
      trivial
    · rw [if_neg hfull]
      subst hleft
      have hsum : acc.length + val.length = (acc ++ val).length := List.length_append.symm
      rw [hsum]
      exact exact_ssize (hholds (by omega))
  | cons v vals ih =>
    obtain ⟨dst', hcat, hlen, hholds⟩ := strlcat_part hdst hval
    obtain ⟨hv, hvne⟩ := hvals v List.mem_cons_self
    have hvals' : ∀ w ∈ vals, nul ∉ w ∧ w ≠ [] := fun w hw => hvals w (List.mem_cons_of_mem _ hw)
    have hacc := hdst.length_lt
    have hsum : acc.length + val.length = left.length := by
      rw [← hleft, List.length_append]
    rw [hleft] at hholds
    rw [vjoinLoop, hcat]
    simp only [hsum]
    by_cases hfull : dst'.length - acc.length ≤ val.length
    · -- the part does not fit, and neither does anything longer
      rw [if_pos hfull]
      refine iff_of_true trivial ?_
      rintro ⟨pre, post, -, -, hsize, -, -⟩
      have hmono := joinPaths_length left pre
      omega
    · rw [if_neg hfull, tightSlash_cons, ← hlen]
      have hholds : Holds dst' left := hholds (by omega)
      by_cases hfit : left.length + 1 = dst'.length ∧ left ≠ [] ∧ left.getLast? ≠ some '/'
      · rw [addSlash_tight hholds hfit.2.1 hfit.2.2 hfit.1]
        exact iff_of_false (fun h => h) fun h => h (Or.inl hfit)
      · obtain ⟨dst'', hadd, hsep, hl⟩ := addSlash_fits hholds hfit
        have hnul : nul ∉ if 0 < (separated left).length then unslash v else v := by
          split
          · exact nul_unslash hv
          · exact hv
        rw [hadd]
        simp only
        rw [show joinPaths left (v :: vals) = joinPaths (joinPath left v) vals from rfl,
          ih (separated_append hvne) hsep hnul hvals', hl]
        simp only [hfit, false_or]

/-- `flappy_path_join` joins or fails exactly if no part that is followed by
another one fills the buffer and still wants its slash. -/
theorem pathJoin_exact_iff {dst : Bytes} (hdst : dst ≠ []) {val : Str} {vals : List Str}
    (hval : nul ∉ val) (hvals : ∀ v ∈ vals, nul ∉ v ∧ v ≠ []) :
    ExactOrFails (joinPaths val vals) (pathJoin dst (val :: vals)) ↔
      ¬ TightSlash dst.length val vals := by
  have hpos : 0 < dst.length := List.length_pos_of_ne_nil hdst
  obtain ⟨dst', hput, hholds, hlen⟩ := put_nul (a := []) (r := dst) (s := []) (by simp) (by simp) hpos
  simp only [List.nil_append, List.length_nil] at hput hholds hlen
  rw [pathJoin, hput]
  simp only
  rw [← hlen]
  exact vjoinLoop_exact_iff rfl hholds hval hvals

/-! ### Appending -/

/-- The text fills the buffer but for the NUL and does not end in a slash, and
a slash is all there is to append. -/
structure SlashLost (size : Nat) (s suffix : Str) : Prop where
  full : s.length + 1 = size
  ne_nil : s ≠ []
  no_slash : s.getLast? ≠ some '/'
  suffix_eq : suffix = ['/']
  /-- The length is returned as it is. -/
  small : s.length < 2 ^ 63

theorem joinPath_ne_nil {left right : Str} (hl : left ≠ []) (hr : right ≠ []) :
    joinPath left right = withSlash left ++ unslash right := by
  rw [joinPath, if_neg hl, if_neg hr]

/-- `flappy_path_append` appends or fails exactly if it is not a lone slash
that does not fit. -/
theorem pathAppend_exact_iff {dst : Bytes} {s suffix : Str} (hdst : Holds dst s)
    (hsuffix : nul ∉ suffix) :
    ExactOrFails (joinPath s suffix) (pathAppend dst suffix) ↔ ¬ SlashLost dst.length s suffix := by
  have hlt := hdst.length_lt
  have hun : nul ∉ unslash suffix := nul_unslash hsuffix
  rw [pathAppend]
  simp only [hdst.text]
  by_cases hnil : suffix = []
  · subst hnil
    rw [if_pos rfl]
    rw [joinPath_nil]
    exact iff_of_true (exact_ssize hdst) fun h => absurd h.suffix_eq (by simp)
  rw [if_neg hnil]
  by_cases hs : s = []
  · subst hs
    rw [if_pos rfl]
    exact iff_of_true (exact_strlcpy hdst hsuffix) fun h => h.ne_nil rfl
  rw [if_neg hs, joinPath_ne_nil hs hnil]
  by_cases hroom : s.getLast? ≠ some '/' ∧ s.length + 1 < dst.length
  · -- the slash is set
    obtain ⟨dst', hput, hholds, -⟩ := put_slash hdst hroom.2
    rw [if_pos hroom, hput, withSlash, if_neg hroom.1]
    exact iff_of_true (exact_strlcat hholds hun) fun h => absurd h.full (by omega)
  · rw [if_neg hroom]
    by_cases hlast : s.getLast? = some '/'
    · rw [withSlash, if_pos hlast]
      exact iff_of_true (exact_strlcat hdst hun) fun h => h.no_slash hlast
    · -- there is no room for the slash
      obtain ⟨dst', hcat, hlen, hholds⟩ := strlcat_start hdst hun
      simp only
      rw [hcat]
      simp only
      have hfull : s.length + 1 = dst.length := by
        have hno : ¬ s.length + 1 < dst.length := fun h => hroom ⟨hlast, h⟩
        omega
      rw [withSlash, if_neg hlast]
      by_cases hempty : unslash suffix = []
      · have hone : suffix = ['/'] := unslash_eq_nil hnil hempty
        simp only [hempty, List.append_nil]
        rw [if_neg (by omega), ssize]
        by_cases hsmall : 2 ^ 63 ≤ s.length
        · rw [if_pos hsmall]
          exact iff_of_true trivial fun h => absurd h.small (by omega)
        · rw [if_neg hsmall]
          refine iff_of_false ?_ fun h => h ⟨hfull, hs, hlast, hone, by omega⟩
          rintro ⟨-, hlen'⟩
          rw [List.length_append, List.length_singleton] at hlen'
          omega
      · have hpos := List.length_pos_of_ne_nil hempty
        have hlong : dst'.length ≤ (s ++ unslash suffix).length := by
          rw [List.length_append]
          omega
        rw [if_pos hlong]
        refine iff_of_true trivial fun h => hempty ?_
        rw [h.suffix_eq]
        rfl

/-! ### Prepending -/

/-- The front part less its slash, as long as `flappy_path_prepend` counts it. -/
theorem withSlash_eq_take {front : Str} (hne : front ≠ []) :
    withSlash front =
      front.take (if front.getLast? = some '/' then front.length - 1 else front.length) ++ ['/'] := by
  rw [withSlash]
  by_cases hlast : front.getLast? = some '/'
  · obtain ⟨init, c, rfl⟩ := (List.eq_nil_or_concat' front).resolve_left hne
    obtain rfl : c = '/' := by simpa using hlast
    rw [if_pos hlast, if_pos hlast, List.length_append, List.length_singleton,
      Nat.add_sub_cancel, List.take_left]
  · rw [if_neg hlast, if_neg hlast, List.take_length]

/-- Moving the path back, a slash before it and the front part before that give the three in
turn. -/
theorem put_before {a front back r : Bytes} {n : Nat} (x : Char) (ha : a.length = n)
    (hfront : front.length = n) (hback : back.length ≤ r.length) :
    ∃ moved slashed, put (a ++ x :: r) (n + 1) back = some moved ∧
      put moved n ['/'] = some slashed ∧
      put slashed 0 front = some (front ++ ['/'] ++ back ++ r.drop back.length) := by
  refine ⟨a ++ x :: (back ++ r.drop back.length), a ++ '/' :: (back ++ r.drop back.length),
    ?_, ?_, ?_⟩
  · have hput := put_append (a ++ [x]) r hback
    rw [List.length_append, List.length_singleton, ha] at hput
    simpa using hput
  · rw [← ha, put_append _ _ (by simp)]
    simp
  · have hput := put_append [] (a ++ '/' :: (back ++ r.drop back.length)) (s := front)
      (by rw [hfront, List.length_append]; omega)
    have hdrop : (a ++ '/' :: (back ++ r.drop back.length)).drop n =
        '/' :: (back ++ r.drop back.length) := by
      rw [← ha, List.drop_left]
    rw [hfront, hdrop] at hput
    simpa using hput

/-- `flappy_path_prepend` prepends or fails. -/
theorem pathPrepend_exact {dst : Bytes} {s front : Str} (hdst : Holds dst s)
    (hfront : nul ∉ front) : ExactOrFails (joinPath front s) (pathPrepend dst front) := by
  have hlt := hdst.length_lt
  rw [pathPrepend]
  simp only [hdst.text]
  by_cases hnil : front = []
  · subst hnil
    rw [if_pos rfl]
    exact exact_ssize hdst
  rw [if_neg hnil]
  by_cases hs : s = []
  · subst hs
    rw [if_pos rfl, joinPath_nil]
    exact exact_strlcpy hdst hfront
  have hun : nul ∉ unslash s := nul_unslash hdst.1
  rw [if_neg hs, joinPath_ne_nil hnil hs, withSlash_eq_take hnil]
  set prelen := if front.getLast? = some '/' then front.length - 1 else front.length with hprelen
  have hple : prelen ≤ front.length := by
    rw [hprelen]
    split <;> omega
  have hplen : (front.take prelen).length = prelen := by
    rw [List.length_take]
    omega
  by_cases hfull : dst.length < (unslash s).length + prelen + 2
  · rw [if_pos hfull]
    trivial
  rw [if_neg hfull]
  -- the buffer as the place of the front part, that of the slash, and the rest
  obtain ⟨a, x, r, rfl, ha⟩ : ∃ a x r, dst = a ++ x :: r ∧ a.length = prelen := by
    refine ⟨dst.take prelen, dst[prelen], dst.drop (prelen + 1), ?_, ?_⟩
    · rw [List.getElem_cons_drop, List.take_append_drop]
    · rw [List.length_take]
      omega
  rw [List.length_append, List.length_cons, ha] at hfull
  obtain ⟨moved, slashed, hmove, hslash, hcopy⟩ :=
    put_before x ha hplen (show (unslash s).length ≤ r.length by omega)
  have htext : nul ∉ front.take prelen ++ ['/'] ++ unslash s := by
    have htake : nul ∉ front.take prelen := fun h => hfront (List.mem_of_mem_take h)
    have hslash : nul ∉ ['/'] := by simp [nul]
    simp only [List.mem_append, not_or]
    exact ⟨⟨htake, hslash⟩, hun⟩
  obtain ⟨dst', hput, hholds, -⟩ := put_nul (a := front.take prelen ++ ['/'] ++ unslash s)
    (r := r.drop (unslash s).length) (s := []) htext (by simp)
    (by rw [List.length_drop, List.length_nil]; omega)
  have hlen : (front.take prelen ++ ['/'] ++ unslash s).length = (unslash s).length + prelen + 1 := by
    simp only [List.length_append, List.length_singleton, hplen]
    omega
  rw [hlen, List.nil_append] at hput
  rw [List.append_nil] at hholds
  rw [hmove]
  simp only
  rw [hslash]
  simp only
  rw [hcopy]
  simp only
  rw [hput, ← hlen]
  exact exact_ssize hholds

/-! ### The three functions -/

/-- **Concatenation is exact or fails, but for two cases**: a part to be
followed by a slash that fills the buffer, and a lone slash appended to a text
that fills it. -/
theorem path_concat_iff (dst : Bytes) (s t : Str) (vals : List Str) :
    (dst ≠ [] → nul ∉ s → (∀ v ∈ vals, nul ∉ v ∧ v ≠ []) →
      (ExactOrFails (joinPaths s vals) (pathJoin dst (s :: vals)) ↔ ¬ TightSlash dst.length s vals)) ∧
      (Holds dst s → nul ∉ t →
        (ExactOrFails (joinPath s t) (pathAppend dst t) ↔ ¬ SlashLost dst.length s t)) ∧
      (Holds dst s → nul ∉ t → ExactOrFails (joinPath t s) (pathPrepend dst t)) :=
  ⟨fun hdst hs hvals => pathJoin_exact_iff hdst hs hvals,
    fun hdst ht => pathAppend_exact_iff hdst ht,
    fun hdst ht => pathPrepend_exact hdst ht⟩

theorem path_concat_iff_abc :
    (ExactOrFails (joinPaths "a/".toList ["/b/".toList, "/c".toList])
        (pathJoin ['a', '/', nul, nul] ["a/".toList, "/b/".toList, "/c".toList]) ↔
      ¬ TightSlash 4 "a/".toList ["/b/".toList, "/c".toList]) ∧
      (ExactOrFails (joinPath "a/".toList "/".toList) (pathAppend ['a', '/', nul, nul] "/".toList) ↔
        ¬ SlashLost 4 "a/".toList "/".toList) ∧
      ExactOrFails (joinPath "/".toList "a/".toList) (pathPrepend ['a', '/', nul, nul] "/".toList) := by
  have hholds : Holds ['a', '/', nul, nul] "a/".toList := ⟨by simp [nul], [nul], rfl⟩
  obtain ⟨hjoin, happend, hprepend⟩ :=
    path_concat_iff ['a', '/', nul, nul] "a/".toList "/".toList ["/b/".toList, "/c".toList]
  refine ⟨hjoin (by simp) (by simp [nul]) ?_, happend hholds ?_, hprepend hholds ?_⟩
  · simp [nul]
  · simp [nul]
  · simp [nul]

/-- Two parts, where the first leaves no room but for the NUL: a NUL is written
behind the buffer. -/
theorem pathJoin_overflow :
    pathJoin "......".toList ["abcde".toList, "f".toList] = none ∧
      ¬ ExactOrFails (joinPaths "abcde".toList ["f".toList])
        (pathJoin "......".toList ["abcde".toList, "f".toList]) := by
  have hnone : pathJoin "......".toList ["abcde".toList, "f".toList] = none := by decide +kernel
  exact ⟨hnone, by rw [hnone]; exact fun h => h⟩

end Flappy
