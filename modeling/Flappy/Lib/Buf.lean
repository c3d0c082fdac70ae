/-
Buffers of characters with a fixed size.

A buffer is the list of its bytes.  A write that does not lie in it has no
result.  `strlcpy` and `strlcat` write no more than the size they are given, and
return the length of what they tried to write.

* `put_append` — a write replaces what was there;
* `strlcpy_start`, `strlcat_at` — what they leave, if it fits and if it does not.
-/
import Flappy.Lib.CStr
import Mathlib.Data.List.TakeWhile

open CStr

namespace Buf

/-- The bytes of a buffer. -/
abbrev Bytes := List Char

/-- The byte that ends a C string. -/
def nul : Char := '\x00'

/-- The C string at the start of a buffer. -/
def text (b : Bytes) : Str := b.takeWhile (· ≠ nul)

/-- A write of some bytes from an index on; `none` if it leaves the buffer. -/
def put (b : Bytes) (i : Nat) (s : Str) : Option Bytes :=
  if i + s.length ≤ b.length then some (b.take i ++ s ++ b.drop (i + s.length)) else none

/-- `strlcpy (b + off, src, siz)`. -/
def strlcpy (b : Bytes) (off : Nat) (src : Str) (siz : Nat) : Option (Bytes × Nat) :=
  if siz = 0 then some (b, src.length)
  else (put b off (src.take (siz - 1) ++ [nul])).map fun b => (b, src.length)

/-- `strlcat (b + off, src, siz)`. -/
def strlcat (b : Bytes) (off : Nat) (src : Str) (siz : Nat) : Option (Bytes × Nat) :=
  let n := (text ((b.drop off).take siz)).length
  if n = siz then some (b, siz + src.length)
  else (put b (off + n) (src.take (siz - n - 1) ++ [nul])).map fun b => (b, n + src.length)

theorem text_append {s : Str} (h : nul ∉ s) (rest : Bytes) : text (s ++ nul :: rest) = s := by
  rw [text, List.takeWhile_append_of_pos]
  · simp
  · intro c hc
    simp only [ne_eq, decide_not, Bool.not_eq_eq_eq_not, Bool.not_true, decide_eq_false_iff_not]
    rintro rfl
    exact h hc

/-- A write replaces as many bytes as it has. -/
theorem put_append (a r : Bytes) {s : Str} (h : s.length ≤ r.length) :
    put (a ++ r) a.length s = some (a ++ (s ++ r.drop s.length)) := by
  rw [put, if_pos (by rw [List.length_append]; omega), List.take_left, List.append_assoc,
    ← List.drop_drop, List.drop_left]

theorem put_none (a r : Bytes) {s : Str} (h : r.length < s.length) : put (a ++ r) a.length s = none := by
  rw [put, if_neg (by rw [List.length_append]; omega)]

theorem length_put {b b' : Bytes} {i : Nat} {s : Str} (h : put b i s = some b') :
    b'.length = b.length := by
  rw [put] at h
  by_cases hle : i + s.length ≤ b.length
  · rw [if_pos hle, Option.some.injEq] at h
    rw [← h]
    simp
    omega
  · rw [if_neg hle] at h
    cases h

/-- A string that ends in the buffer, at its start. -/
def Holds (b : Bytes) (s : Str) : Prop := nul ∉ s ∧ ∃ rest, b = s ++ nul :: rest

theorem Holds.text {b : Bytes} {s : Str} (h : Holds b s) : text b = s := by
  obtain ⟨hs, rest, rfl⟩ := h
  exact text_append hs rest

theorem Holds.length_lt {b : Bytes} {s : Str} (h : Holds b s) : s.length < b.length := by
  obtain ⟨-, rest, rfl⟩ := h
  rw [List.length_append, List.length_cons]
  omega

/-- The last character of the string, read in the buffer. -/
theorem Holds.getLast {b : Bytes} {s : Str} (h : Holds b s) (hne : s ≠ []) :
    b[s.length - 1]? = s.getLast? := by
  obtain ⟨-, rest, rfl⟩ := h
  obtain ⟨init, c, rfl⟩ := (List.eq_nil_or_concat' s).resolve_left hne
  rw [List.getLast?_concat, List.append_assoc, List.length_append, List.length_singleton,
    Nat.add_sub_cancel, List.getElem?_append_right (Nat.le_refl _), Nat.sub_self]
  rfl

/-- A string and its NUL, written behind the first bytes of a buffer. -/
theorem put_nul {a r : Bytes} {s : Str} (ha : nul ∉ a) (hs : nul ∉ s) (h : s.length < r.length) :
    ∃ b, put (a ++ r) a.length (s ++ [nul]) = some b ∧ Holds b (a ++ s) ∧
      b.length = (a ++ r).length := by
  have hlen : (s ++ [nul]).length ≤ r.length := by
    rw [List.length_append, List.length_singleton]
    omega
  refine ⟨_, put_append a r hlen, ⟨by simp [ha, hs], r.drop (s ++ [nul]).length, by simp⟩, ?_⟩
  exact length_put (put_append a r hlen)

/-- `strlcpy` to the start of a buffer of the given size. -/
theorem strlcpy_start {b : Bytes} {src : Str} (hsrc : nul ∉ src) (hb : b ≠ []) :
    ∃ b', strlcpy b 0 src b.length = some (b', src.length) ∧ b'.length = b.length ∧
      (src.length < b.length → Holds b' src) := by
  have hpos : 0 < b.length := List.length_pos_of_ne_nil hb
  have htake : nul ∉ src.take (b.length - 1) := fun h => hsrc (List.mem_of_mem_take h)
  obtain ⟨b', hput, hholds, hlen⟩ := put_nul (a := []) (r := b) (by simp) htake
    (by rw [List.length_take]; omega)
  refine ⟨b', ?_, hlen, ?_⟩
  · rw [strlcpy, if_neg (by omega)]
    simp only [List.nil_append, List.length_nil] at hput
    rw [hput]
    rfl
  · intro hlt
    rwa [List.nil_append, List.take_of_length_le (by omega)] at hholds

/-- `strlcat` at an offset of a buffer, where the size is what is left of it. -/
theorem strlcat_at {a s : Str} (rest : Bytes) {src : Str} (ha : nul ∉ a) (hs : nul ∉ s)
    (hsrc : nul ∉ src) :
    ∃ b', strlcat (a ++ (s ++ nul :: rest)) a.length src (s ++ nul :: rest).length =
        some (b', s.length + src.length) ∧
      b'.length = (a ++ (s ++ nul :: rest)).length ∧
      (s.length + src.length < (s ++ nul :: rest).length → Holds b' (a ++ (s ++ src))) := by
  have hn : text (((a ++ (s ++ nul :: rest)).drop a.length).take (s ++ nul :: rest).length) = s := by
    rw [List.drop_left, List.take_of_length_le (Nat.le_refl _), text_append hs]
  have hlen : (s ++ nul :: rest).length = s.length + 1 + rest.length := by
    rw [List.length_append, List.length_cons]
    omega
  have htake : nul ∉ src.take ((s ++ nul :: rest).length - s.length - 1) :=
    fun h => hsrc (List.mem_of_mem_take h)
  obtain ⟨b', hput, hholds, hb'⟩ := put_nul (a := a ++ s) (r := nul :: rest) (by simp [ha, hs]) htake
    (by rw [List.length_take, List.length_cons]; omega)
  rw [List.append_assoc] at hput hb' hholds
  rw [List.length_append] at hput
  refine ⟨b', ?_, hb', ?_⟩
  · rw [strlcat]
    simp only [hn]
    rw [if_neg (by omega), hput]
    rfl
  · intro hlt
    rwa [List.take_of_length_le (by omega)] at hholds

/-- `strlcat` to a string at the start of a buffer of the given size. -/
theorem strlcat_start {b : Bytes} {s src : Str} (h : Holds b s) (hsrc : nul ∉ src) :
    ∃ b', strlcat b 0 src b.length = some (b', (s ++ src).length) ∧ b'.length = b.length ∧
      ((s ++ src).length < b.length → Holds b' (s ++ src)) := by
  obtain ⟨hs, rest, rfl⟩ := h
  obtain ⟨b', hcat, hlen, hholds⟩ := strlcat_at (a := []) rest (by simp) hs hsrc
  simp only [List.nil_append, List.length_nil] at hcat hlen hholds
  refine ⟨b', by rw [hcat, List.length_append], hlen, ?_⟩
  rw [List.length_append]
  exact hholds

end Buf
