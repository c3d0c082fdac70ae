/-
Passwords for servers and proxies (`http_basic_auth` and `http_authorize` in `lib/fetch/http.c`).

A user and a password are sent in base64.  The characters of the text are signed when three of
them are put into a word, so one that is not ASCII sets bits of the ones before it.

* `decode64` — what a code stands for;
* `decode64_httpBase64` — what a server reads;
* `httpBase64_iff` — when that is the text;
* `httpAuthorize_iff` — which values of `HTTP_AUTH` are taken, and what is sent.
-/
import Flappy.Lib.CStr
import Mathlib.Data.List.Basic

open CStr

namespace Flappy.Http

/-! ### The code -/

/-- The table of `http_base64`. -/
def base64 : Str := "ABCDEFGHIJKLMNOPQRSTUVWXYZabcdefghijklmnopqrstuvwxyz0123456789+/".toList

/-- A character of a text, as it is in memory. -/
def octet (c : Char) : BitVec 8 := BitVec.ofNat 8 c.toNat

/-- What a character becomes in an expression: `char` is signed. -/
def promote (c : Char) : BitVec 32 := (octet c).signExtend 32

/-- `base64[(t >> n) & 0x3f]`. -/
def sextet (t : BitVec 32) (n : Nat) : Char := base64.getD (t.sshiftRight n &&& 0x3f#32).toNat '='

/-- `http_base64`. -/
def httpBase64 : Str → Str
  | a :: b :: c :: src =>
    let t := promote a <<< 16 ||| promote b <<< 8 ||| promote c
    sextet t 18 :: sextet t 12 :: sextet t 6 :: sextet t 0 :: httpBase64 src
  | [a, b] =>
    let t := promote a <<< 16 ||| promote b <<< 8
    [sextet t 18, sextet t 12, sextet t 6, '=']
  | [a] =>
    let t := promote a <<< 16
    [sextet t 18, sextet t 12, '=', '=']
  | [] => []

/-- The six bits that a character of a code stands for. -/
def value64 (c : Char) : Option (BitVec 6) := (base64.idxOf? c).map (BitVec.ofNat 6)

/-- The bytes that a code stands for: three for each four characters, and one or two at the end if
the last characters are `=`. -/
def decode64 : Str → Option (List (BitVec 8))
  | [] => some []
  | [a, b, '=', '='] => do
    let x ← value64 a
    let y ← value64 b
    some [(x ++ y).extractLsb' 4 8]
  | [a, b, c, '='] => do
    let x ← value64 a
    let y ← value64 b
    let z ← value64 c
    some [(x ++ (y ++ z)).extractLsb' 10 8, (x ++ (y ++ z)).extractLsb' 2 8]
  | a :: b :: c :: d :: code => do
    let x ← value64 a
    let y ← value64 b
    let z ← value64 c
    let w ← value64 d
    let rest ← decode64 code
    some ((x ++ (y ++ (z ++ w))).extractLsb' 16 8 :: (x ++ (y ++ (z ++ w))).extractLsb' 8 8 ::
      (x ++ (y ++ (z ++ w))).extractLsb' 0 8 :: rest)
  | _ => none

theorem value64_base64 : ∀ x : BitVec 6, value64 (base64.getD x.toNat '=') = some x := by
  decide +kernel

theorem value64_sextet (t : BitVec 32) {n : Nat} (hn : n ≤ 18) :
    value64 (sextet t n) = some (t.extractLsb' n 6) := by
  have hindex : (t.sshiftRight n &&& 0x3f#32) = (t.extractLsb' n 6).setWidth 32 := by
    have hmask : (0x3f#32 : BitVec 32) = (BitVec.allOnes 6).setWidth 32 := by decide
    rw [hmask]
    refine BitVec.eq_of_getLsbD_eq fun i hi => ?_
    rw [BitVec.getLsbD_and, BitVec.getLsbD_setWidth, BitVec.getLsbD_setWidth,
      BitVec.getLsbD_extractLsb', BitVec.getLsbD_allOnes, BitVec.getLsbD_sshiftRight]
    by_cases h6 : i < 6
    · have hlow : n + i < 32 := by omega
      simp [h6, hi, hlow]
    · simp [h6]
  have hlt := (t.extractLsb' n 6).isLt
  rw [sextet, hindex, BitVec.toNat_setWidth, Nat.mod_eq_of_lt (by omega)]
  exact value64_base64 _

theorem sextet_ne (t : BitVec 32) {n : Nat} (hn : n ≤ 18) : sextet t n ≠ '=' := by
  intro heq
  have hvalue := value64_sextet t hn
  rw [heq, show value64 '=' = none by decide +kernel] at hvalue
  cases hvalue

/-! ### What a server reads -/

/-- The bits that a byte sets in front of it. -/
def sign (x : BitVec 8) : BitVec 8 := if x.msb then BitVec.allOnes 8 else 0

/-- The bytes of a text, with what they set in front of them in their group. -/
def spill : List (BitVec 8) → List (BitVec 8)
  | a :: b :: c :: src => (a ||| sign b ||| sign c) :: (b ||| sign c) :: c :: spill src
  | [a, b] => [a ||| sign b, b]
  | [a] => [a]
  | [] => []

theorem getLsbD_sign (x : BitVec 8) (i : Nat) : (sign x).getLsbD i = (decide (i < 8) && x.msb) := by
  rw [sign]
  cases x.msb with
  | true => rw [if_pos rfl, BitVec.getLsbD_allOnes, Bool.and_true]
  | false => simp

theorem getLsbD_promote (c : Char) (i : Nat) (hi : i < 32) :
    (promote c).getLsbD i = if i < 8 then (octet c).getLsbD i else (octet c).msb := by
  rw [promote, BitVec.getLsbD_signExtend]
  simp [hi]

/-- Pieces that lie side by side. -/
theorem extract_append (t : BitVec 32) (lo n m : Nat) :
    t.extractLsb' (lo + n) m ++ t.extractLsb' lo n = t.extractLsb' lo (m + n) :=
  BitVec.extractLsb'_append_extractLsb'_eq_extractLsb' rfl

theorem extract_extract (t : BitVec 32) (lo n k m : Nat) (h : k + m ≤ n) :
    (t.extractLsb' lo n).extractLsb' k m = t.extractLsb' (lo + k) m := by
  refine BitVec.eq_of_getLsbD_eq fun i hi => ?_
  simp only [BitVec.getLsbD_extractLsb', hi, decide_true, Bool.true_and]
  rw [decide_eq_true (by omega), Bool.true_and, Nat.add_assoc]

/-- A byte of a character that is shifted: none, the character itself, or its sign. -/
theorem extract_promote (c : Char) {n k : Nat} (hk : k ≤ 24) :
    (k + 8 ≤ n → (promote c <<< n).extractLsb' k 8 = 0#8) ∧
      (k = n → (promote c <<< n).extractLsb' k 8 = octet c) ∧
      (n + 8 ≤ k → (promote c <<< n).extractLsb' k 8 = sign (octet c)) := by
  have hbits : ∀ i < 8, ((promote c <<< n).extractLsb' k 8).getLsbD i =
      (decide (n ≤ k + i) && (promote c).getLsbD (k + i - n)) := by
    intro i hi
    rw [BitVec.getLsbD_extractLsb', BitVec.getLsbD_shiftLeft, decide_eq_true hi,
      decide_eq_true (by omega : k + i < 32), Bool.true_and, Bool.true_and]
    by_cases hn : k + i < n
    · rw [decide_eq_true hn, decide_eq_false (by omega : ¬ n ≤ k + i)]
      rfl
    · rw [decide_eq_false hn, decide_eq_true (by omega : n ≤ k + i)]
      rfl
  refine ⟨fun h => BitVec.eq_of_getLsbD_eq fun i hi => ?_,
    fun h => BitVec.eq_of_getLsbD_eq fun i hi => ?_,
    fun h => BitVec.eq_of_getLsbD_eq fun i hi => ?_⟩
  · rw [hbits i hi, decide_eq_false (by omega : ¬ n ≤ k + i), Bool.false_and]
    exact BitVec.getLsbD_zero.symm
  · rw [hbits i hi, decide_eq_true (by omega : n ≤ k + i), Bool.true_and,
      getLsbD_promote _ _ (by omega), if_pos (by omega)]
    congr 1
    omega
  · rw [hbits i hi, decide_eq_true (by omega : n ≤ k + i), Bool.true_and,
      getLsbD_promote _ _ (by omega), if_neg (by omega), getLsbD_sign, decide_eq_true hi,
      Bool.true_and]

/-- The bytes of a word that is put together out of three. -/
theorem octets_of_word (a b c : Char) {t : BitVec 32}
    (ht : t = promote a <<< 16 ||| promote b <<< 8 ||| promote c) :
    t.extractLsb' 16 8 = octet a ||| sign (octet b) ||| sign (octet c) ∧
      t.extractLsb' 8 8 = octet b ||| sign (octet c) ∧ t.extractLsb' 0 8 = octet c := by
  rw [← BitVec.shiftLeft_zero (promote c)] at ht
  subst ht
  simp only [BitVec.extractLsb'_or]
  refine ⟨?_, ?_, ?_⟩
  · rw [(extract_promote a (by omega)).2.1 rfl, (extract_promote b (by omega)).2.2 (by omega),
      (extract_promote c (by omega)).2.2 (by omega)]
  · rw [(extract_promote a (by omega)).1 (by omega), (extract_promote b (by omega)).2.1 rfl,
      (extract_promote c (by omega)).2.2 (by omega), BitVec.zero_or]
  · rw [(extract_promote a (by omega)).1 (by omega), (extract_promote b (by omega)).1 (by omega),
      (extract_promote c (by omega)).2.1 rfl, BitVec.zero_or, BitVec.zero_or]

/-- Two, three and four sextets of a word. -/
theorem word_of_sextets (t : BitVec 32) :
    t.extractLsb' 18 6 ++ t.extractLsb' 12 6 = t.extractLsb' 12 12 ∧
      t.extractLsb' 18 6 ++ (t.extractLsb' 12 6 ++ t.extractLsb' 6 6) = t.extractLsb' 6 18 ∧
      t.extractLsb' 18 6 ++ (t.extractLsb' 12 6 ++ (t.extractLsb' 6 6 ++ t.extractLsb' 0 6)) =
        t.extractLsb' 0 24 := by
  have hlast := congrArg (t.extractLsb' 12 6 ++ ·) (extract_append t 0 6 6)
  have hmiddle := congrArg (t.extractLsb' 18 6 ++ ·) (hlast.trans (extract_append t 0 12 6))
  have htwo := congrArg (t.extractLsb' 18 6 ++ ·) (extract_append t 6 6 6)
  exact ⟨extract_append t 12 6 6, htwo.trans (extract_append t 6 12 6),
    hmiddle.trans (extract_append t 0 18 6)⟩

/-- **What a server reads**: the bytes of the text, and a byte from 0x80 on has set all bits of the
ones before it in its group. -/
theorem decode64_httpBase64 (src : Str) :
    decode64 (httpBase64 src) = some (spill (src.map octet)) := by
  have hnul : promote '\x00' = 0#32 := by decide
  have hnone : sign (octet '\x00') = 0#8 := by decide
  fun_induction httpBase64 src with
  | case1 a b c src t ih =>
    obtain ⟨h₁, h₂, h₃⟩ := octets_of_word a b c (t := t) rfl
    obtain ⟨-, -, hword⟩ := word_of_sextets t
    rw [decode64, value64_sextet t (by omega), value64_sextet t (by omega),
      value64_sextet t (by omega), value64_sextet t (by omega), ih]
    · simp only [List.map_cons, spill, Option.bind_eq_bind, Option.bind_some, hword]
      simp (disch := omega) only [extract_extract, Nat.zero_add, h₁, h₂, h₃]
    -- a group of three has no padding
    · exact fun _ h => absurd h (sextet_ne t (by omega))
    · exact fun h => absurd h (sextet_ne t (by omega))
  | case2 a b t =>
    -- as if a NUL stood behind
    obtain ⟨h₁, h₂, -⟩ := octets_of_word a b '\x00' (t := t) (by rw [hnul, BitVec.or_zero])
    obtain ⟨-, hword, -⟩ := word_of_sextets t
    rw [hnone, BitVec.or_zero] at h₁ h₂
    rw [decode64, value64_sextet t (by omega), value64_sextet t (by omega),
      value64_sextet t (by omega)]
    · simp only [List.map_cons, List.map_nil, spill, Option.bind_eq_bind, Option.bind_some, hword]
      simp (disch := omega) only [extract_extract, Nat.reduceAdd, h₁, h₂]
    · exact fun h => absurd h (sextet_ne t (by omega))
  | case3 a t =>
    obtain ⟨h₁, -, -⟩ := octets_of_word a '\x00' '\x00' (t := t)
      (by rw [hnul, BitVec.zero_shiftLeft, BitVec.or_zero, BitVec.or_zero])
    obtain ⟨hword, -, -⟩ := word_of_sextets t
    rw [hnone, BitVec.or_zero, BitVec.or_zero] at h₁
    rw [decode64, value64_sextet t (by omega), value64_sextet t (by omega)]
    simp only [List.map_cons, List.map_nil, spill, Option.bind_eq_bind, Option.bind_some, hword]
    simp (disch := omega) only [extract_extract, Nat.reduceAdd, h₁]
  | case4 => rfl

/-- No byte from 0x80 on has one before it in its group with a bit that is not set. -/
def Intact : List (BitVec 8) → Prop
  | a :: b :: c :: src =>
    (b.msb = true → a = BitVec.allOnes 8) ∧
      (c.msb = true → a = BitVec.allOnes 8 ∧ b = BitVec.allOnes 8) ∧ Intact src
  | [a, b] => b.msb = true → a = BitVec.allOnes 8
  | [_] => True
  | [] => True

theorem or_sign_eq_iff (a b : BitVec 8) :
    a ||| sign b = a ↔ (b.msb = true → a = BitVec.allOnes 8) := by
  rw [sign]
  cases b.msb with
  | true =>
    rw [if_pos rfl, BitVec.or_allOnes]
    simp only [forall_const]
    exact eq_comm
  | false => simp

theorem spill_eq_iff (l : List (BitVec 8)) : spill l = l ↔ Intact l := by
  fun_induction spill l with
  | case1 a b c src ih =>
    rw [Intact, ← ih, List.cons.injEq, List.cons.injEq, List.cons.injEq]
    cases hc : c.msb with
    | true =>
      -- both bytes before it come back with all bits set
      have hsign : sign c = BitVec.allOnes 8 := by rw [sign, hc]; rfl
      rw [hsign, BitVec.or_allOnes, BitVec.or_allOnes]
      constructor
      · rintro ⟨ha, hb, -, hsrc⟩
        exact ⟨fun _ => ha.symm, fun _ => ⟨ha.symm, hb.symm⟩, hsrc⟩
      · rintro ⟨-, hbefore, hsrc⟩
        obtain ⟨rfl, rfl⟩ := hbefore rfl
        exact ⟨rfl, rfl, rfl, hsrc⟩
    | false =>
      have hsign : sign c = 0#8 := by rw [sign, hc]; rfl
      rw [hsign, BitVec.or_zero, BitVec.or_zero]
      simp [or_sign_eq_iff]
  | case2 a b => simp [Intact, or_sign_eq_iff]
  | case3 a => simp [Intact]
  | case4 => simp [Intact]

/-- **When a server reads the text**: in each group of three, only bytes with all bits set stand
before one from 0x80 on. -/
theorem httpBase64_iff (src : Str) :
    decode64 (httpBase64 src) = some (src.map octet) ↔ Intact (src.map octet) := by
  rw [decode64_httpBase64, Option.some_inj, spill_eq_iff]

example : decode64 (httpBase64 ['a', 'é']) = some [0xff#8, 0xe9#8] := by decide +kernel

/-! ### The header -/

/-- `http_basic_auth`: the line that is sent. -/
def httpBasicAuth (hdr usr pwd : Str) : Str :=
  hdr ++ ": Basic ".toList ++ httpBase64 (usr ++ ':' :: pwd) ++ ['\r', '\n']

/-- `http_authorize`, with the value of `HTTP_AUTH` or `HTTP_PROXY_AUTH`. -/
def httpAuthorize (hdr p : Str) : Option Str :=
  if hasPrefixNoCase ['b', 'a', 's', 'i', 'c', ':'] p = true then
    -- the realm is skipped
    (strchr ':' (p.drop 6)).bind fun r =>
      (strchr ':' r.2).map fun userPwd => httpBasicAuth hdr userPwd.1 userPwd.2
  else none

/-- A value is taken if it has a realm, a user and a password behind `basic:`, and only the
password may have colons. -/
theorem httpAuthorize_iff {hdr p line : Str} :
    httpAuthorize hdr p = some line ↔
      ∃ scheme realm user pwd, p = scheme ++ realm ++ ':' :: (user ++ ':' :: pwd) ∧
        scheme.map Char.toLower = ['b', 'a', 's', 'i', 'c', ':'] ∧ ':' ∉ realm ∧ ':' ∉ user ∧
        line = httpBasicAuth hdr user pwd := by
  rw [httpAuthorize]
  constructor
  · intro h
    split at h
    · rename_i hbasic
      obtain ⟨⟨realm, rest⟩, hrealm, h⟩ := Option.bind_eq_some_iff.mp h
      obtain ⟨⟨user, pwd⟩, huser, rfl⟩ := Option.map_eq_some_iff.mp h
      obtain ⟨hp, hno⟩ := strchr_eq_some.mp hrealm
      obtain ⟨hrest, hnone⟩ := strchr_eq_some.mp huser
      refine ⟨p.take 6, realm, user, pwd, ?_, ?_, hno, hnone, rfl⟩
      · rw [List.append_assoc, ← hrest, ← hp, List.take_append_drop]
      · rw [hasPrefixNoCase, List.isPrefixOf_iff_prefix] at hbasic
        rw [List.map_take]
        exact (List.prefix_iff_eq_take.mp hbasic).symm
    · cases h
  · rintro ⟨scheme, realm, user, pwd, rfl, hscheme, hno, hnone, rfl⟩
    have hlen : scheme.length = 6 := by
      rw [← List.length_map (f := Char.toLower), hscheme]
      rfl
    rw [if_pos, List.append_assoc, List.drop_left' hlen,
      strchr_eq_some.mpr ⟨rfl, hno⟩, Option.bind_some, strchr_eq_some.mpr ⟨rfl, hnone⟩]
    · rfl
    · rw [hasPrefixNoCase, List.isPrefixOf_iff_prefix, List.append_assoc, List.map_append, hscheme]
      exact List.prefix_append _ _

end Flappy.Http
