/-
`strtoll`, `strtoull` and `strtoul` with a base of zero, and the decimal texts that
`printf` writes.

White space, a sign and a prefix that gives the base stand before the digits.  A
number out of range becomes the nearest one in range, and `errno` says so.

* `scanNumber_decimal` — a decimal text is read back, whatever follows it;
* `length_scanNumber` — the text that is left is no longer than the one read.
-/
import Flappy.Lib.CStr
import Mathlib.Algebra.GroupWithZero.Nat
import Mathlib.Data.List.TakeWhile

namespace CStr

/-- `isspace`, in the C locale. -/
def isspace (c : Char) : Bool := decide (c ∈ [' ', '\t', '\n', '\x0b', '\x0c', '\r'])

/-- What a character is worth as a digit. -/
def digitValue (c : Char) : Option Nat :=
  if 48 ≤ c.toNat ∧ c.toNat ≤ 57 then some (c.toNat - 48)
  else if 97 ≤ c.toNat ∧ c.toNat ≤ 122 then some (c.toNat - 87)
  else if 65 ≤ c.toNat ∧ c.toNat ≤ 90 then some (c.toNat - 55)
  else none

/-- The digits of a base. -/
def isDigitOf (base : Nat) (c : Char) : Bool := (digitValue c).any (· < base)

/-- The value of digits, most significant first. -/
def digitsValue (base : Nat) (s : Str) : Nat :=
  s.foldl (fun n c => base * n + (digitValue c).getD 0) 0

/-- A sign and the text behind it. -/
def scanSign : Str → Bool × Str
  | '-' :: s => (true, s)
  | '+' :: s => (false, s)
  | s => (false, s)

/-- The base that the text asks for, and the text from the first digit on. -/
def scanBase : Str → Nat × Str
  | '0' :: x :: d :: s =>
    if (x = 'x' ∨ x = 'X') ∧ isDigitOf 16 d then (16, d :: s) else (8, '0' :: x :: d :: s)
  | '0' :: s => (8, '0' :: s)
  | s => (10, s)

/-- A number in a text. -/
structure Scanned where
  neg : Bool
  magnitude : Nat
  rest : Str
deriving DecidableEq, Repr

/-- The common part of the functions; without digits nothing is read. -/
def scanNumber (s : Str) : Scanned :=
  let signed := scanSign (s.dropWhile isspace)
  let based := scanBase signed.2
  if based.2.takeWhile (isDigitOf based.1) = [] then { neg := false, magnitude := 0, rest := s }
  else
    { neg := signed.1
      magnitude := digitsValue based.1 (based.2.takeWhile (isDigitOf based.1))
      rest := based.2.dropWhile (isDigitOf based.1) }

def llongMax : Nat := 9223372036854775807

def ullongMax : Nat := 18446744073709551615

/-- `strtoll`: the value, whether `errno` is `ERANGE`, and the end of the number. -/
def strtoll (s : Str) : Int × Bool × Str :=
  let r := scanNumber s
  if r.neg then
    if r.magnitude ≤ llongMax + 1 then (-r.magnitude, false, r.rest)
    else (-(llongMax + 1 : Nat), true, r.rest)
  else if r.magnitude ≤ llongMax then (r.magnitude, false, r.rest)
  else (llongMax, true, r.rest)

/-- `strtoull`, and `strtoul` where it is as wide; a minus sign negates modulo `2^64`. -/
def strtoull (s : Str) : Nat × Bool × Str :=
  let r := scanNumber s
  if r.magnitude ≤ ullongMax then
    (if r.neg then (ullongMax + 1 - r.magnitude) % (ullongMax + 1) else r.magnitude, false, r.rest)
  else (ullongMax, true, r.rest)

/-- A number as `printf` writes it in decimal. -/
def decimal (neg : Bool) (n : Nat) : Str := (if neg then ['-'] else []) ++ Nat.toDigits 10 n

/-! ### Decimal texts -/

theorem isDigitOf_of_isDigit {c : Char} (h : c.isDigit = true) {base : Nat} (hbase : 10 ≤ base) :
    isDigitOf base c = true := by
  simp only [Char.isDigit, Bool.and_eq_true, decide_eq_true_eq, ge_iff_le] at h
  have h48 : 48 ≤ c.toNat := h.1
  have h57 : c.toNat ≤ 57 := h.2
  rw [isDigitOf, digitValue, if_pos ⟨h48, h57⟩]
  simp only [Option.any_some, decide_eq_true_eq]
  omega

theorem digitValue_of_isDigit {c : Char} (h : c.isDigit = true) :
    digitValue c = some (c.toNat - 48) := by
  simp only [Char.isDigit, Bool.and_eq_true, decide_eq_true_eq, ge_iff_le] at h
  have h48 : 48 ≤ c.toNat := h.1
  have h57 : c.toNat ≤ 57 := h.2
  rw [digitValue, if_pos ⟨h48, h57⟩]

theorem digitsValue_eq {s : Str} (h : ∀ c ∈ s, c.isDigit = true) :
    digitsValue 10 s = Nat.ofDigitChars 10 s 0 := by
  have hgen : ∀ n, s.foldl (fun n c => 10 * n + (digitValue c).getD 0) n =
      Nat.ofDigitChars 10 s n := by
    induction s with
    | nil => intro n; rw [Nat.ofDigitChars_nil]; rfl
    | cons c s ih =>
      intro n
      rw [List.foldl_cons, Nat.ofDigitChars_cons,
        ih (fun c hc => h c (List.mem_cons_of_mem _ hc)),
        digitValue_of_isDigit (h c List.mem_cons_self)]
      rfl
  exact hgen 0

/-- A positive number is written without leading zeros. -/
theorem head_toDigits {n : Nat} (hn : 0 < n) : (Nat.toDigits 10 n).head? ≠ some '0' := by
  induction n using Nat.strongRecOn with
  | ind n ih =>
    rw [Nat.toDigits_eq_if (by omega)]
    split
    · rename_i hlt
      intro h
      have h0 : n.digitChar = '0' := Option.some.inj h
      have := Nat.toNat_digitChar_sub_48_of_lt_ten hlt
      rw [h0] at this
      have hz : ('0' : Char).toNat - 48 = 0 := rfl
      omega
    · rw [List.head?_append_of_ne_nil _ Nat.toDigits_ne_nil]
      exact ih (n / 10) (by omega) (by omega)

/-- What follows a number does not go on with a digit or a letter. -/
def Stops (rest : Str) : Prop := ∀ c ∈ rest.head?, digitValue c = none

theorem Stops.isDigitOf {rest : Str} (h : Stops rest) (base : Nat) :
    ∀ c ∈ rest.head?, CStr.isDigitOf base c = false := by
  intro c hc
  rw [CStr.isDigitOf, h c hc]
  rfl

theorem takeWhile_digits {ds rest : Str} {base : Nat} (hds : ∀ c ∈ ds, isDigitOf base c = true)
    (h : Stops rest) :
    (ds ++ rest).takeWhile (isDigitOf base) = ds ∧ (ds ++ rest).dropWhile (isDigitOf base) = rest := by
  rw [List.takeWhile_append_of_pos hds, List.dropWhile_append_of_pos hds]
  rcases rest with _ | ⟨c, rest⟩
  · exact ⟨List.append_nil _, rfl⟩
  · have hc := h.isDigitOf base c rfl
    rw [List.takeWhile_cons_of_neg (by simp [hc]), List.dropWhile_cons_of_neg (by simp [hc])]
    exact ⟨List.append_nil _, rfl⟩

theorem isDigit_ne {c d : Char} (h : c.isDigit = true) (hd : d.isDigit = false) : c ≠ d := by
  rintro rfl
  rw [h] at hd
  cases hd

/-- Digits give the base and are read in it. -/
theorem scanBase_toDigits (n : Nat) {rest : Str} (h : Stops rest) :
    ∃ base, scanBase (Nat.toDigits 10 n ++ rest) = (base, Nat.toDigits 10 n ++ rest) ∧
      (Nat.toDigits 10 n).all (isDigitOf base) = true ∧
      digitsValue base (Nat.toDigits 10 n) = n := by
  have hdigit : ∀ c ∈ Nat.toDigits 10 n, c.isDigit = true := fun c hc =>
    Nat.isDigit_of_mem_toDigits (by omega) (by omega) hc
  by_cases hn : n = 0
  · subst hn
    rw [Nat.toDigits_zero]
    refine ⟨8, ?_, rfl, rfl⟩
    rcases rest with _ | ⟨x, _ | ⟨d, rest⟩⟩
    · rfl
    · rfl
    · have hx := h x rfl
      have hne : ¬ (x = 'x' ∨ x = 'X') := by
        rintro (rfl | rfl) <;> cases hx
      show (if (x = 'x' ∨ x = 'X') ∧ _ then _ else _) = _
      rw [if_neg fun hboth => hne hboth.1]
      rfl
  · refine ⟨10, ?_, ?_, ?_⟩
    · have hhead := head_toDigits (Nat.pos_of_ne_zero hn)
      cases hds : Nat.toDigits 10 n with
      | nil => exact absurd hds Nat.toDigits_ne_nil
      | cons c ds =>
        rw [hds] at hhead
        have hc : c ≠ '0' := fun heq => hhead (by rw [heq]; rfl)
        rw [List.cons_append, scanBase]
        · intro x d s heq
          exact absurd (List.cons.inj heq).1 hc
        · intro s heq
          exact absurd (List.cons.inj heq).1 hc
    · rw [List.all_eq_true]
      exact fun c hc => isDigitOf_of_isDigit (hdigit c hc) le_rfl
    · rw [digitsValue_eq hdigit, Nat.ofDigitChars_ten_toDigits]

/-- **A decimal text is read back**, whatever follows it. -/
theorem scanNumber_decimal (neg : Bool) (n : Nat) {rest : Str} (h : Stops rest) :
    scanNumber (decimal neg n ++ rest) = { neg := neg, magnitude := n, rest := rest } := by
  obtain ⟨base, hbase, hall, hvalue⟩ := scanBase_toDigits n h
  rw [List.all_eq_true] at hall
  have hsign : scanSign ((decimal neg n ++ rest).dropWhile isspace) =
      (neg, Nat.toDigits 10 n ++ rest) := by
    cases neg with
    | true => rfl
    | false =>
      cases hds : Nat.toDigits 10 n with
      | nil => exact absurd hds Nat.toDigits_ne_nil
      | cons c ds =>
        have hc : c.isDigit = true :=
          Nat.isDigit_of_mem_toDigits (b := 10) (n := n) (by omega) (by omega)
            (hds ▸ List.mem_cons_self)
        have hspace : isspace c = false := by
          rw [isspace, decide_eq_false_iff_not]
          intro hmem
          simp only [List.mem_cons, List.not_mem_nil, or_false] at hmem
          rcases hmem with rfl | rfl | rfl | rfl | rfl | rfl <;> cases hc
        show scanSign ((Nat.toDigits 10 n ++ rest).dropWhile isspace) = _
        rw [hds, List.cons_append, List.dropWhile_cons_of_neg (by simp [hspace]), scanSign]
        · intro s heq
          exact absurd (List.cons.inj heq).1 (isDigit_ne hc rfl)
        · intro s heq
          exact absurd (List.cons.inj heq).1 (isDigit_ne hc rfl)
  obtain ⟨htake, hdrop⟩ := takeWhile_digits hall h
  simp only [scanNumber, hsign, hbase, htake, hdrop, hvalue, if_neg Nat.toDigits_ne_nil]

theorem strtoll_range (s : Str) :
    -(llongMax + 1 : Nat) ≤ (strtoll s).1 ∧ (strtoll s).1 ≤ llongMax := by
  simp only [strtoll]
  split
  · split
    · exact ⟨by omega, by omega⟩
    · exact ⟨Int.le_refl _, by omega⟩
  · split
    · exact ⟨by omega, by omega⟩
    · exact ⟨by omega, Int.le_refl _⟩

theorem strtoull_range (s : Str) : (strtoull s).1 ≤ ullongMax := by
  simp only [strtoull]
  split
  · split
    · exact Nat.le_of_lt_succ (Nat.mod_lt _ (Nat.succ_pos _))
    · assumption
  · exact le_rfl

/-! ### The text that is left -/

theorem strtoll_rest (s : Str) : (strtoll s).2.2 = (scanNumber s).rest := by
  simp only [strtoll]
  split
  · split <;> rfl
  · split <;> rfl

theorem strtoull_rest (s : Str) : (strtoull s).2.2 = (scanNumber s).rest := by
  simp only [strtoull]
  split <;> rfl

theorem length_scanSign (s : Str) : (scanSign s).2.length ≤ s.length := by
  unfold scanSign
  split <;> simp

theorem length_scanBase (s : Str) : (scanBase s).2.length ≤ s.length := by
  unfold scanBase
  split
  · split
    · simp
    · simp
  · simp
  · simp

theorem length_scanNumber (s : Str) : (scanNumber s).rest.length ≤ s.length := by
  simp only [scanNumber]
  split
  · exact le_rfl
  · have hdrop := List.length_dropWhile_le (isDigitOf (scanBase (scanSign (s.dropWhile isspace)).2).1)
      (scanBase (scanSign (s.dropWhile isspace)).2).2
    have hbase := length_scanBase (scanSign (s.dropWhile isspace)).2
    have hsign := length_scanSign (s.dropWhile isspace)
    have hspace := List.length_dropWhile_le isspace s
    exact hdrop.trans (hbase.trans (hsign.trans hspace))

end CStr
