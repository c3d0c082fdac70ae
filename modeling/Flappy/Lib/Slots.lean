/-
Arrays of slots, of which the first ones are in use.

An array that grows is a block of slots.  The elements in use stand at its
start; what stands behind them is left over and never read.  A read of a slot
that holds nothing, and a write or a `memmove` outside the block, have no result.

* `Holds` — the block holds a list;
* `insert_holds`, `erase_holds`, `write_holds` — one `memmove` and one write are an
  insertion, one `memmove` is a removal, one write is a replacement.
-/
import Mathlib.Data.List.Basic

namespace Slots

variable {α : Type*}

/-- A block of slots; the bytes of a fresh one are zero. -/
abbrev Block (α : Type*) := List (Option α)

/-- The block of a fresh allocation. -/
def calloc (capacity : ℕ) : Block α := List.replicate capacity none

/-- A block copied to the start of a larger one. -/
def expand (b : Block α) (capacity : ℕ) : Block α := b ++ calloc (capacity - b.length)

/-- The element in a slot. -/
def read (b : Block α) (i : ℕ) : Option α := b[i]?.join

/-- An element put into a slot. -/
def write (b : Block α) (i : ℕ) (x : α) : Option (Block α) :=
  if i < b.length then some (b.set i (some x)) else none

/-- `memmove (b + dst, b + src, n)`. -/
def memmove (b : Block α) (dst src n : ℕ) : Option (Block α) :=
  if src + n ≤ b.length ∧ dst + n ≤ b.length then
    some (b.take dst ++ (b.drop src).take n ++ b.drop (dst + n))
  else none

/-- The block holds the list. -/
def Holds (b : Block α) (l : List α) : Prop :=
  ∀ (i : ℕ) (x : α), l[i]? = some x → b[i]? = some (some x)

variable {b b' : Block α} {l : List α}

theorem holds_nil (b : Block α) : Holds b [] := by
  intro i x h
  simp at h

theorem Holds.length_le (h : Holds b l) : l.length ≤ b.length := by
  by_contra hlt
  have hi : b.length < l.length := by omega
  have := h b.length l[b.length] (List.getElem?_eq_getElem hi)
  simp at this

theorem Holds.read (h : Holds b l) {i : ℕ} (hi : i < l.length) : read b i = some l[i] := by
  rw [Slots.read, h i l[i] (List.getElem?_eq_getElem hi)]
  rfl

theorem expand_holds (h : Holds b l) (capacity : ℕ) : Holds (expand b capacity) l := by
  intro i x hx
  have hb := h i x hx
  obtain ⟨hi, -⟩ := List.getElem?_eq_some_iff.mp hb
  rw [expand, List.getElem?_append_left hi, hb]

@[simp] theorem length_expand (b : Block α) (capacity : ℕ) :
    (expand b capacity).length = max b.length capacity := by
  rw [expand, calloc, List.length_append, List.length_replicate]
  omega

/-! ### Writes and moves -/

theorem write_eq {i : ℕ} (hi : i < b.length) (x : α) : write b i x = some (b.set i (some x)) :=
  if_pos hi

theorem exists_memmove (b : Block α) {dst src n : ℕ} (hsrc : src + n ≤ b.length)
    (hdst : dst + n ≤ b.length) : ∃ b', memmove b dst src n = some b' :=
  ⟨_, if_pos ⟨hsrc, hdst⟩⟩

theorem length_memmove {dst src n : ℕ} (h : memmove b dst src n = some b') :
    b'.length = b.length := by
  rw [memmove] at h
  split at h
  · obtain rfl := Option.some.inj h
    simp only [List.length_append, List.length_take, List.length_drop]
    omega
  · cases h

/-- A slot after a move. -/
theorem getElem?_memmove {dst src n : ℕ} (h : memmove b dst src n = some b') (i : ℕ) :
    b'[i]? = if dst ≤ i ∧ i < dst + n then b[i - dst + src]? else b[i]? := by
  rw [memmove] at h
  split at h
  · rename_i hbound
    obtain rfl := Option.some.inj h
    rw [List.append_assoc, List.getElem?_append, List.getElem?_append]
    simp only [List.length_take, List.length_drop, List.getElem?_take, List.getElem?_drop]
    by_cases hlow : i < dst
    · rw [if_pos (by omega), if_pos hlow, if_neg (by omega)]
    · rw [if_neg (by omega)]
      by_cases hmid : i < dst + n
      · rw [if_pos (by omega), if_pos (by omega), if_pos (by omega)]
        congr 1
        omega
      · rw [if_neg (by omega), if_neg (by omega)]
        congr 1
        omega
  · cases h

theorem write_holds (h : Holds b l) {i : ℕ} (hi : i < l.length) (x : α) :
    ∃ b', write b i x = some b' ∧ Holds b' (l.set i x) ∧ b'.length = b.length := by
  have hlen := h.length_le
  refine ⟨_, write_eq (by omega) x, ?_, List.length_set⟩
  intro j y hy
  rw [List.getElem?_set] at hy ⊢
  by_cases hij : i = j
  · rw [if_pos hij, if_pos (by omega)] at hy ⊢
    rw [Option.some.inj hy]
  · rw [if_neg hij] at hy ⊢
    exact h j y hy

theorem write_zero_holds (h : 0 < b.length) (x : α) :
    ∃ b', write b 0 x = some b' ∧ Holds b' [x] := by
  refine ⟨_, write_eq h x, ?_⟩
  intro i y hy
  obtain ⟨hi, -⟩ := List.getElem?_eq_some_iff.mp hy
  obtain rfl := Nat.lt_one_iff.mp hi
  obtain rfl := Option.some.inj hy
  exact List.getElem?_set_self h

/-- The slots from `i` on move one up, and `x` is put at `i`. -/
theorem insert_holds (h : Holds b l) (hroom : l.length < b.length) {i : ℕ} (hi : i ≤ l.length)
    (x : α) :
    ∃ b₁ b₂, memmove b (i + 1) i (l.length - i) = some b₁ ∧ write b₁ i x = some b₂ ∧
      Holds b₂ (l.insertIdx i x) ∧ b₂.length = b.length := by
  obtain ⟨b₁, hmove⟩ : ∃ b₁, memmove b (i + 1) i (l.length - i) = some b₁ :=
    exists_memmove b (by omega) (by omega)
  have hlen := length_memmove hmove
  refine ⟨b₁, _, hmove, write_eq (by omega) x, ?_, by rw [List.length_set, hlen]⟩
  intro j y hy
  rw [List.getElem?_insertIdx] at hy
  rw [List.getElem?_set, getElem?_memmove hmove]
  by_cases hlow : j < i
  · rw [if_pos hlow] at hy
    rw [if_neg (by omega), if_neg (by omega)]
    exact h j y hy
  · rw [if_neg hlow] at hy
    by_cases hij : j = i
    · rw [if_pos hij, if_pos (by omega)] at hy
      rw [if_pos hij.symm, if_pos (by omega)]
      rw [Option.some.inj hy]
    · rw [if_neg hij] at hy
      obtain ⟨hj, -⟩ := List.getElem?_eq_some_iff.mp hy
      rw [if_neg (Ne.symm hij), if_pos (by omega)]
      have hidx : j - (i + 1) + i = j - 1 := by omega
      rw [hidx]
      exact h (j - 1) y hy

/-- The slots behind `i` move one down. -/
theorem erase_holds (h : Holds b l) {i : ℕ} (hi : i < l.length) :
    ∃ b', memmove b i (i + 1) (l.length - (i + 1)) = some b' ∧ Holds b' (l.eraseIdx i) ∧
      b'.length = b.length := by
  have hlen := h.length_le
  obtain ⟨b₁, hmove⟩ : ∃ b₁, memmove b i (i + 1) (l.length - (i + 1)) = some b₁ :=
    exists_memmove b (by omega) (by omega)
  refine ⟨b₁, hmove, ?_, length_memmove hmove⟩
  intro j y hy
  rw [List.getElem?_eraseIdx] at hy
  rw [getElem?_memmove hmove]
  by_cases hlow : j < i
  · rw [if_pos hlow] at hy
    rw [if_neg (by omega)]
    exact h j y hy
  · rw [if_neg hlow] at hy
    obtain ⟨hj, -⟩ := List.getElem?_eq_some_iff.mp hy
    rw [if_pos (by omega)]
    have hidx : j - i + (i + 1) = j + 1 := by omega
    rw [hidx]
    exact h (j + 1) y hy

end Slots
