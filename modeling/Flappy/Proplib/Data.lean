/-
Base64 (`lib/portableproplib/prop_data.c`).

Three bytes are four characters.  The decoder keeps the bits of the byte it is at;
it skips white space, and stops at the next tag or at the padding.  It runs twice:
without a target to learn the size, and with one.

* `decode_encode` — what is encoded is decoded, in a target with one byte to spare;
* `length_decode` — the text that is left is shorter.
-/
import Flappy.Lib.CStr
import Mathlib.Algebra.GroupWithZero.Nat
import Mathlib.Data.List.TakeWhile

open CStr

namespace Flappy.Proplib

/-- `_PROP_ISSPACE`. -/
def isSpace (c : Char) : Bool := c = ' ' || c = '\t' || c = '\n' || c = '\r'

abbrev Byte := Fin 256

/-- `_prop_data_base64`. -/
def base64 : Str := "ABCDEFGHIJKLMNOPQRSTUVWXYZabcdefghijklmnopqrstuvwxyz0123456789+/".toList

/-- `_prop_data_base64[i]`. -/
def base64Char (i : Nat) : Char := base64.getD i '='

/-- `_prop_data_externalize`, between the tags. -/
def encode : List Byte → Str
  | a :: b :: c :: src =>
    base64Char (a / 4) :: base64Char (a % 4 * 16 + b / 16) :: base64Char (b % 16 * 4 + c / 64) ::
      base64Char (c % 64) :: encode src
  | [a, b] => [base64Char (a / 4), base64Char (a % 4 * 16 + b / 16), base64Char (b % 16 * 4), '=']
  | [a] => [base64Char (a / 4), base64Char (a % 4 * 16), '=', '=']
  | [] => []

/-- The decoder's `state`, with `target[tarindex]` where that is begun. -/
inductive DecodeState where
  | zero
  | one (bits : Byte)
  | two (bits : Byte)
  | three (bits : Byte)
deriving DecidableEq, Repr

/-- Whether a target has an index; without one nothing is written. -/
def room (targsize : Option Nat) (index : Nat) : Bool := targsize.all (index < ·)

/-- A value put into a byte. -/
def byte (n : Nat) : Byte := Fin.ofNat 256 n

/-- The `switch` in the loop, for a character that stands for `pos`. -/
def decodeStep (targsize : Option Nat) (target : List Byte) (pos : Nat) :
    DecodeState → Option (DecodeState × List Byte)
  | .zero => if room targsize target.length then some (.one (byte (pos * 4)), target) else none
  | .one b =>
    if room targsize (target.length + 1) then
      some (.two (byte (pos % 16 * 16)), target ++ [b ||| byte (pos / 16)])
    else none
  | .two b =>
    if room targsize (target.length + 1) then
      some (.three (byte (pos % 4 * 64)), target ++ [b ||| byte (pos / 4)])
    else none
  | .three b =>
    if room targsize target.length then some (.zero, target ++ [b ||| byte pos]) else none

/-- The loop of `_prop_data_internalize_decode`: it ends at a tag or at the padding. -/
def decodeChars (targsize : Option Nat) (state : DecodeState) (target : List Byte) :
    Str → Option (DecodeState × List Byte × Str)
  | [] => none
  | ch :: src =>
    if isSpace ch then decodeChars targsize state target src
    else if ch = '<' ∨ ch = '=' then some (state, target, ch :: src)
    else
      match base64.idxOf? ch with
      | none => none
      | some pos =>
        match decodeStep targsize target pos state with
        | none => none
        | some r => decodeChars targsize r.1 r.2 src

/-- Only white space up to the next tag. -/
def decodeTrailing (src : Str) : Option Str :=
  match src.dropWhile isSpace with
  | '<' :: src => some ('<' :: src)
  | _ => none

/-- The end of `_prop_data_internalize_decode`. -/
def decodeEnd (state : DecodeState) : Str → Option Str
  | '=' :: src =>
    match state with
    | .zero => none
    | .one _ => none
    | .two _ =>
      match src.dropWhile isSpace with
      | '=' :: src => decodeTrailing src
      | _ => none
    | .three _ => decodeTrailing src
  | src => if state = .zero then some src else none

/-- `_prop_data_internalize_decode`: the bytes, and the text from the next tag on. -/
def decode (targsize : Option Nat) (src : Str) : Option (List Byte × Str) :=
  (decodeChars targsize .zero [] src).bind fun r =>
    (decodeEnd r.1 r.2.2).map fun rest => (r.2.1, rest)

/-! ### Round trip -/

/-- A character of the alphabet is none of those that end the loop. -/
theorem base64Char_spec {i : Nat} (hi : i < 64) :
    isSpace (base64Char i) = false ∧ ¬ (base64Char i = '<' ∨ base64Char i = '=') ∧
      base64.idxOf? (base64Char i) = some i := by
  have h : ∀ i : Fin 64, isSpace (base64Char i) = false ∧
      ¬ (base64Char i = '<' ∨ base64Char i = '=') ∧
        base64.idxOf? (base64Char i) = some i.val := by
    decide +kernel
  exact h ⟨i, hi⟩

theorem or_quarter (a : Byte) : byte (a / 4 * 4) ||| byte (a % 4) = a := by
  revert a
  decide +kernel

theorem or_half (a : Byte) : byte (a / 16 * 16) ||| byte (a % 16) = a := by
  revert a
  decide +kernel

theorem or_last (a : Byte) : byte (a / 64 * 64) ||| byte (a % 64) = a := by
  revert a
  decide +kernel

section Chars

variable {targsize : Option Nat} {target : List Byte} {src : Str}

/-- The decoder at a character of the alphabet. -/
theorem decodeChars_char {i : Nat} (hi : i < 64) {state : DecodeState} {r : DecodeState × List Byte}
    (h : decodeStep targsize target i state = some r) :
    decodeChars targsize state target (base64Char i :: src) = decodeChars targsize r.1 r.2 src := by
  obtain ⟨hspace, hstop, hpos⟩ := base64Char_spec hi
  simp only [decodeChars, hspace, Bool.false_eq_true, if_false, if_neg hstop, hpos, h]

/-- The first character of a group. -/
theorem decodeChars_zero (a : Byte) (h : room targsize target.length = true) :
    decodeChars targsize .zero target (base64Char (a / 4) :: src) =
      decodeChars targsize (.one (byte (a / 4 * 4))) target src := by
  have hstep : decodeStep targsize target (a / 4) .zero = some (.one (byte (a / 4 * 4)), target) :=
    if_pos h
  exact decodeChars_char (by omega) hstep

/-- The second character ends the first byte and begins the second. -/
theorem decodeChars_one (a b : Byte) (h : room targsize (target.length + 1) = true) :
    decodeChars targsize (.one (byte (a / 4 * 4))) target
        (base64Char (a % 4 * 16 + b / 16) :: src) =
      decodeChars targsize (.two (byte (b / 16 * 16))) (target ++ [a]) src := by
  have hdiv : (a.val % 4 * 16 + b.val / 16) / 16 = a % 4 := by omega
  have hmod : (a.val % 4 * 16 + b.val / 16) % 16 = b / 16 := by omega
  have hstep : decodeStep targsize target (a % 4 * 16 + b / 16) (.one (byte (a / 4 * 4))) =
      some (.two (byte (b / 16 * 16)), target ++ [a]) := by
    rw [decodeStep, if_pos h, hdiv, hmod, or_quarter]
  exact decodeChars_char (by omega) hstep

theorem decodeChars_two (b c : Byte) (h : room targsize (target.length + 1) = true) :
    decodeChars targsize (.two (byte (b / 16 * 16))) target
        (base64Char (b % 16 * 4 + c / 64) :: src) =
      decodeChars targsize (.three (byte (c / 64 * 64))) (target ++ [b]) src := by
  have hdiv : (b.val % 16 * 4 + c.val / 64) / 4 = b % 16 := by omega
  have hmod : (b.val % 16 * 4 + c.val / 64) % 4 = c / 64 := by omega
  have hstep : decodeStep targsize target (b % 16 * 4 + c / 64) (.two (byte (b / 16 * 16))) =
      some (.three (byte (c / 64 * 64)), target ++ [b]) := by
    rw [decodeStep, if_pos h, hdiv, hmod, or_half]
  exact decodeChars_char (by omega) hstep

theorem decodeChars_three (c : Byte) (h : room targsize target.length = true) :
    decodeChars targsize (.three (byte (c / 64 * 64))) target (base64Char (c % 64) :: src) =
      decodeChars targsize .zero (target ++ [c]) src := by
  have hstep : decodeStep targsize target (c % 64) (.three (byte (c / 64 * 64))) =
      some (.zero, target ++ [c]) := by
    rw [decodeStep, if_pos h, or_last]
  exact decodeChars_char (by omega) hstep

theorem decodeChars_stop {ch : Char} (h : ch = '<' ∨ ch = '=') (state : DecodeState) :
    decodeChars targsize state target (ch :: src) = some (state, target, ch :: src) := by
  have hspace : isSpace ch = false := by rcases h with rfl | rfl <;> rfl
  rw [decodeChars, if_neg (by rw [hspace]; simp), if_pos h]

end Chars

theorem room_le {targsize : Option Nat} {i j : Nat} (h : room targsize j = true) (hij : i ≤ j) :
    room targsize i = true := by
  cases targsize with
  | none => rfl
  | some n =>
    simp only [room, Option.all_some, decide_eq_true_eq] at h ⊢
    omega

/-- The characters of some bytes, and the padding behind them, in a target that has room. -/
theorem decodeChars_encode (targsize : Option Nat) (bytes target : List Byte) (rest : Str)
    (h : room targsize (target.length + bytes.length) = true) :
    ∃ state src, decodeChars targsize .zero target (encode bytes ++ '<' :: rest) =
        some (state, target ++ bytes, src) ∧ decodeEnd state src = some ('<' :: rest) := by
  induction bytes using encode.induct generalizing target with
  | case1 a b c bytes ih =>
    simp only [List.length_cons] at h
    have hroom := fun {i} (hi : i ≤ _) => room_le (i := i) h hi
    have h₁ : (target ++ [a]).length = target.length + 1 := List.length_append
    have h₂ : ((target ++ [a]) ++ [b]).length = target.length + 2 := by
      rw [List.length_append, h₁]
      rfl
    rw [encode, List.cons_append, List.cons_append, List.cons_append, List.cons_append,
      decodeChars_zero a (hroom (by omega)), decodeChars_one a b (hroom (by omega)),
      decodeChars_two b c (hroom (by omega)), decodeChars_three c (hroom (by omega))]
    have happend : ((target ++ [a]) ++ [b]) ++ [c] = target ++ [a, b, c] := by simp
    rw [happend]
    have := ih (target ++ [a, b, c]) (hroom (by simp; omega))
    rw [List.append_assoc] at this
    exact this
  -- two bytes are left: three digits and a `=`
  | case2 a b =>
    simp only [List.length_cons, List.length_nil] at h
    have hroom := fun {i} (hi : i ≤ _) => room_le (i := i) h hi
    have hlast : decodeChars targsize _ (target ++ [a]) (_ :: (['='] ++ '<' :: rest)) = _ :=
      decodeChars_two b 0 (hroom (i := (target ++ [a]).length + 1) (by simp))
    refine ⟨.three (byte 0), '=' :: '<' :: rest, ?_, rfl⟩
    rw [encode, List.cons_append, List.cons_append,
      decodeChars_zero a (hroom (by omega)), decodeChars_one a b (hroom (by omega))]
    refine hlast.trans ?_
    rw [List.cons_append, decodeChars_stop (Or.inr rfl), List.append_assoc]
    rfl
  -- one byte is left: two digits and two `=`
  | case3 a =>
    simp only [List.length_cons, List.length_nil] at h
    have hroom := fun {i} (hi : i ≤ _) => room_le (i := i) h hi
    have hlast : decodeChars targsize _ target (_ :: (['=', '='] ++ '<' :: rest)) = _ :=
      decodeChars_one a 0 (hroom (i := target.length + 1) (by omega))
    refine ⟨.two (byte 0), '=' :: '=' :: '<' :: rest, ?_, rfl⟩
    rw [encode, List.cons_append, decodeChars_zero a (hroom (by omega))]
    refine hlast.trans ?_
    rw [List.cons_append, decodeChars_stop (Or.inr rfl)]
    rfl
  | case4 =>
    refine ⟨.zero, '<' :: rest, ?_, rfl⟩
    rw [encode, List.nil_append, decodeChars_stop (Or.inl rfl), List.append_nil]

/-- **What is encoded is decoded**, without a target and in one with a byte to spare. -/
theorem decode_encode (targsize : Option Nat) (bytes : List Byte) (rest : Str)
    (h : room targsize bytes.length = true) :
    decode targsize (encode bytes ++ '<' :: rest) = some (bytes, '<' :: rest) := by
  obtain ⟨state, src, hchars, hend⟩ :=
    decodeChars_encode targsize bytes [] rest (by rwa [List.length_nil, Nat.zero_add])
  simp only [decode, hchars, List.nil_append, Option.bind_some, hend, Option.map_some]

/-! ### The text that is left -/

theorem length_decodeChars {targsize : Option Nat} {state : DecodeState} {target : List Byte}
    {src : Str} {r : DecodeState × List Byte × Str}
    (h : decodeChars targsize state target src = some r) : r.2.2.length ≤ src.length := by
  induction src generalizing state target with
  | nil => cases h
  | cons ch src ih =>
    rw [decodeChars] at h
    split at h
    · exact Nat.le_succ_of_le (ih h)
    · split at h
      · obtain rfl := Option.some.inj h
        exact Nat.le_refl _
      · split at h
        · cases h
        · split at h
          · cases h
          · exact Nat.le_succ_of_le (ih h)

theorem length_decodeTrailing {src rest : Str} (h : decodeTrailing src = some rest) :
    rest.length ≤ src.length := by
  have hle := List.length_dropWhile_le isSpace src
  rw [decodeTrailing] at h
  split at h
  · rename_i heq
    rw [heq] at hle
    obtain rfl := Option.some.inj h
    exact hle
  · cases h

theorem length_decodeEnd {state : DecodeState} {src rest : Str}
    (h : decodeEnd state src = some rest) : rest.length ≤ src.length := by
  unfold decodeEnd at h
  split at h
  · rename_i src
    split at h
    · cases h
    · cases h
    · have hle := List.length_dropWhile_le isSpace src
      split at h
      · rename_i heq
        have htrail := length_decodeTrailing h
        rw [heq] at hle
        simp only [List.length_cons] at hle ⊢
        omega
      · cases h
    · exact Nat.le_succ_of_le (length_decodeTrailing h)
  · split at h
    · obtain rfl := Option.some.inj h
      exact Nat.le_refl _
    · cases h

theorem length_decode {targsize : Option Nat} {src : Str} {r : List Byte × Str}
    (h : decode targsize src = some r) : r.2.length ≤ src.length := by
  rw [decode, Option.bind_eq_some_iff] at h
  obtain ⟨r₁, hchars, hend⟩ := h
  obtain ⟨rest, hrest, rfl⟩ := Option.map_eq_some_iff.mp hend
  exact (length_decodeEnd hrest).trans (length_decodeChars hchars)

end Flappy.Proplib
