/-
The lines of a configuration file (`keys`, `cmpkey`, `parse_option` and the line
handling of `parse_file` in `lib/conf.c`).

The key of a line is looked up by binary search, and the comparator compares as
many characters as the line's key text has.  The value is cut off by a length
that `parse_file` hands over next to the line.

* `parseOption_exact_iff` — the lines on which keys are recognised exactly;
* `fileLine_value_iff` — the lines whose value is the text behind the `=`.
-/
import Flappy.Lib.Strncmp
import Mathlib.Data.List.DropRight
import Mathlib.Algebra.GroupWithZero.Nat

open CStr BSearch

namespace Flappy.Conf

/-- The codes of the configuration keys. -/
inductive Key where
  | architecture
  | bestmatching
  | cachedir
  | ignorepkg
  | include_
  | noextract
  | preserve
  | repository
  | rootdir
  | staging
  | syslog
  | virtualpkg
  | keepconf
deriving DecidableEq, Repr

/-- `struct key`; the length of the text is not read by anyone. -/
structure KeyEntry where
  str : Str
  key : Key
deriving DecidableEq, Repr

/-- `keys`. -/
def keys : List KeyEntry :=
  [⟨"architecture".toList, .architecture⟩,
   ⟨"bestmatching".toList, .bestmatching⟩,
   ⟨"cachedir".toList, .cachedir⟩,
   ⟨"ignorepkg".toList, .ignorepkg⟩,
   ⟨"include".toList, .include_⟩,
   ⟨"keepconf".toList, .keepconf⟩,
   ⟨"noextract".toList, .noextract⟩,
   ⟨"preserve".toList, .preserve⟩,
   ⟨"repository".toList, .repository⟩,
   ⟨"rootdir".toList, .rootdir⟩,
   ⟨"staging".toList, .staging⟩,
   ⟨"syslog".toList, .syslog⟩,
   ⟨"virtualpkg".toList, .virtualpkg⟩]

/-- `cmpkey`: the needle is the first `len` characters of the line. -/
def cmpkey (line : Str) (len : Nat) (e : KeyEntry) : Ordering := strncmp len line e.str

/-- The difference of two `size_t`. -/
def sizeSub (a b : Nat) : Nat := if b ≤ a then a - b else 2 ^ 64 + a - b

/-- The byte at an index of a line; `none` lies behind the NUL. -/
def byteAt (line : Str) (i : Nat) : Option Char := (line ++ ['\x00'])[i]?

/-- The loop that eats the trailing blanks of the value at `off`: the length
that remains. -/
def eatTrailing (line : Str) (off : Nat) : Nat → Option Nat
  | 0 => some 0
  | len + 1 =>
    match byteAt line (off + len) with
    | none => none
    | some c => if isblank c then eatTrailing line off len else some (len + 1)

/-- The C string at `*valp` and the length in `*vallen`.  The length is `none` if
it was counted, or the NUL was set, behind the line; the text then stays as it is. -/
def optionValue (line : Str) (off linelen : Nat) : Str × Option Nat :=
  match eatTrailing line off (sizeSub linelen off) with
  | none => (line.drop off, none)
  -- `p[len] = '\0'`
  | some len =>
    if off + len ≤ line.length then ((line.drop off).take len, some len) else (line.drop off, none)

/-- `parse_option`: the key, `*valp` and `*vallen`; `none` is `KEY_ERROR`. -/
def parseOption (probe : Probe) (line : Str) (linelen : Nat) : Option (Key × Str × Option Nat) :=
  match strpbrk [' ', '\t', '='] line with
  | none => none
  | some p =>
    let len := line.length - p.length
    match p.dropWhile isblank with
    | '=' :: p =>
      match bsearch (cmpkey line len) probe keys with
      | none => none
      | some result =>
        let off := line.length - (p.dropWhile isblank).length
        some (result.key, optionValue line off linelen)
    | _ => none

/-- The C string at the start of a buffer. -/
def cstring (buf : Str) : Str := buf.takeWhile (· ≠ '\x00')

/-- The line that `getline` read, less its newline. -/
def stripNewline (buf : Str) : Str := if buf.getLast? = some '\n' then buf.dropLast else buf

/-- The line and the length that `parse_file` hands to `parse_option`: the
indentation is skipped, and the length is that of what was read. -/
def fileLine (buf : Str) : Str × Nat :=
  ((cstring (stripNewline buf)).dropWhile isblank, (stripNewline buf).length)

/-! ### The form of a line -/

/-- The line is a key, blanks, `=` and a text. -/
def OptionForm (line key text : Str) : Prop :=
  ∃ blanks, line = key ++ blanks ++ '=' :: text ∧ (∀ c ∈ blanks, isblank c = true) ∧
    ∀ c ∈ key, c ∉ [' ', '\t', '=']

theorem isblank_mem {c : Char} (h : isblank c = true) : c ∈ [' ', '\t', '='] := by
  simp only [isblank, Bool.or_eq_true, decide_eq_true_eq] at h
  rcases h with rfl | rfl <;> simp

theorem dropWhile_blanks {blanks : Str} (h : ∀ c ∈ blanks, isblank c = true) (text : Str) :
    (blanks ++ '=' :: text).dropWhile isblank = '=' :: text := by
  rw [List.dropWhile_append_of_pos h]
  rfl

theorem strpbrk_blanks {blanks key : Str} (hkey : ∀ c ∈ key, c ∉ [' ', '\t', '='])
    (h : ∀ c ∈ blanks, isblank c = true) (text : Str) :
    strpbrk [' ', '\t', '='] (key ++ blanks ++ '=' :: text) = some (blanks ++ '=' :: text) := by
  rw [List.append_assoc, strpbrk_append hkey]
  rcases blanks with _ | ⟨b, blanks⟩
  · simp [strpbrk]
  · rw [List.cons_append, strpbrk, if_pos (isblank_mem (h b List.mem_cons_self))]

/-- On a line of the form, `parse_option` looks the key text up. -/
theorem parseOption_form {line key text : Str} (h : OptionForm line key text) (probe : Probe)
    (linelen : Nat) :
    parseOption probe line linelen =
      (bsearch (cmpkey line key.length) probe keys).map fun result =>
        (result.key, optionValue line (line.length - (text.dropWhile isblank).length) linelen) := by
  obtain ⟨blanks, rfl, hblank, hkey⟩ := h
  have hlen : (key ++ blanks ++ '=' :: text).length - (blanks ++ '=' :: text).length = key.length := by
    simp
  rw [parseOption]
  simp only [strpbrk_blanks hkey hblank, dropWhile_blanks hblank text, hlen]
  cases bsearch (cmpkey (key ++ blanks ++ '=' :: text) key.length) probe keys <;> rfl

/-- A line that `parse_option` accepts has the form. -/
theorem optionForm_of_parseOption {probe : Probe} {line : Str} {linelen : Nat}
    {r : Key × Str × Option Nat} (h : parseOption probe line linelen = some r) :
    ∃ key text, OptionForm line key text := by
  rw [parseOption] at h
  cases hp : strpbrk [' ', '\t', '='] line with
  | none => simp [hp] at h
  | some p =>
    obtain ⟨key, rfl, hkey, -⟩ := strpbrk_eq_some hp
    simp only [hp] at h
    split at h
    · rename_i text hdrop
      refine ⟨key, text, p.takeWhile isblank, ?_, ?_, hkey⟩
      · rw [List.append_assoc, ← hdrop, List.takeWhile_append_dropWhile]
      · exact fun c hc => List.mem_takeWhile_imp hc
    · simp at h

/-- The key text and the text behind the `=` are determined by the line. -/
theorem OptionForm.unique {line key text key' text' : Str} (h : OptionForm line key text)
    (h' : OptionForm line key' text') : key = key' ∧ text = text' := by
  obtain ⟨blanks, rfl, hblank, hkey⟩ := h
  obtain ⟨blanks', heq, hblank', hkey'⟩ := h'
  have hsuffix : blanks ++ '=' :: text = blanks' ++ '=' :: text' := by
    have hcut := strpbrk_blanks hkey hblank text
    rw [heq, strpbrk_blanks hkey' hblank' text'] at hcut
    exact (Option.some.inj hcut).symm
  have htext : '=' :: text = '=' :: text' := by
    rw [← dropWhile_blanks hblank text, hsuffix, dropWhile_blanks hblank' text']
  refine ⟨?_, (List.cons.inj htext).2⟩
  rw [List.append_assoc, List.append_assoc, hsuffix] at heq
  exact List.append_cancel_right heq

/-! ### Keys -/

theorem keys_sorted : keys.Pairwise fun a b => strcmp a.str b.str ≠ .gt := by
  decide +kernel

/-- No key begins with another one. -/
theorem keys_prefix_free : ∀ e ∈ keys, ∀ e' ∈ keys, e.str <+: e'.str → e = e' := by
  decide +kernel

/-- The comparator takes a key for the key text if it begins with it. -/
theorem cmpkey_eq {line key text : Str} (h : OptionForm line key text) (e : KeyEntry) :
    cmpkey line key.length e = .eq ↔ key <+: e.str := by
  obtain ⟨blanks, rfl, -, -⟩ := h
  rw [cmpkey, strncmp_eq, List.append_assoc, List.take_left, List.prefix_iff_eq_take]

theorem keys_divided (line : Str) (len : Nat) : Divides (cmpkey line len) keys := by
  have hsorted : (keys.map (·.str)).Pairwise fun a b => strcmp a b ≠ .gt :=
    List.pairwise_map.mpr keys_sorted
  exact List.pairwise_map.mp (strncmp_divides hsorted len line)

/-- A line of the form is accepted exactly if some key begins with its key text. -/
theorem parseOption_isSome {line key text : Str} (h : OptionForm line key text) (probe : Probe)
    (linelen : Nat) :
    (parseOption probe line linelen).isSome ↔ ∃ e ∈ keys, key <+: e.str := by
  rw [parseOption_form h, Option.isSome_map, bsearch_isSome (keys_divided line key.length)]
  simp only [cmpkey_eq h]

/-- The key of an accepted line is one that begins with the key text. -/
theorem parseOption_key {line key text : Str} (h : OptionForm line key text) {probe : Probe}
    {linelen : Nat} {k : Key} {v : Str × Option Nat}
    (hr : parseOption probe line linelen = some (k, v)) :
    ∃ e ∈ keys, key <+: e.str ∧ e.key = k := by
  rw [parseOption_form h, Option.map_eq_some_iff] at hr
  obtain ⟨e, he, hkv⟩ := hr
  obtain ⟨hmem, hcmp⟩ := bsearch_some he
  exact ⟨e, hmem, (cmpkey_eq h e).mp hcmp, (Prod.mk.inj hkv).1⟩

/-- Keys are recognised exactly: the line is accepted with a code if and only
if it has the form and its key text is the key with that code. -/
def ExactKey (probe : Probe) (line : Str) (linelen : Nat) : Prop :=
  ∀ k, (∃ v, parseOption probe line linelen = some (k, v)) ↔
    ∃ key text, OptionForm line key text ∧ ⟨key, k⟩ ∈ keys

/-- The key text of the line is a key less some characters at its end. -/
def AbbreviatedKey (line : Str) : Prop :=
  ∃ key text, OptionForm line key text ∧ ∃ e ∈ keys, key <+: e.str ∧ key ≠ e.str

/-- **Keys are recognised exactly on the lines whose key text does not
abbreviate a key**, whatever the probes of the search. -/
theorem parseOption_exact_iff (probe : Probe) (line : Str) (linelen : Nat) :
    ExactKey probe line linelen ↔ ¬ AbbreviatedKey line := by
  constructor
  · rintro hexact ⟨key, text, hform, e, he, hpre, hne⟩
    -- some key is found for the abbreviation, and it is not the key text
    have hsome := (parseOption_isSome hform probe linelen).mpr ⟨e, he, hpre⟩
    obtain ⟨⟨k, v⟩, hr⟩ := Option.isSome_iff_exists.mp hsome
    obtain ⟨key', text', hform', hmem⟩ := (hexact k).mp ⟨v, hr⟩
    obtain ⟨rfl, -⟩ := hform.unique hform'
    have heq : (⟨key, k⟩ : KeyEntry) = e := keys_prefix_free _ hmem e he hpre
    exact hne (by rw [← heq])
  · intro habbr k
    constructor
    · rintro ⟨v, hr⟩
      obtain ⟨key, text, hform⟩ := optionForm_of_parseOption hr
      obtain ⟨e, he, hpre, rfl⟩ := parseOption_key hform hr
      have hkey : key = e.str := by
        by_contra hne
        exact habbr ⟨key, text, hform, e, he, hpre, hne⟩
      exact ⟨key, text, hform, by rw [hkey]; exact he⟩
    · rintro ⟨key, text, hform, hmem⟩
      have hsome := (parseOption_isSome hform probe linelen).mpr ⟨_, hmem, List.prefix_rfl⟩
      obtain ⟨⟨k', v⟩, hr⟩ := Option.isSome_iff_exists.mp hsome
      obtain ⟨e, he, hpre, rfl⟩ := parseOption_key hform hr
      have heq : (⟨key, k⟩ : KeyEntry) = e := keys_prefix_free _ hmem e he hpre
      refine ⟨v, ?_⟩
      rw [hr, ← heq]

/-- A line `=x` is accepted: the empty key text is a key to the search. -/
theorem empty_key_accepted : ¬ ExactKey Probe.middle "=x".toList 2 := by
  intro hexact
  have hr : parseOption Probe.middle "=x".toList 2 = some (.noextract, ['x'], some 1) := by
    decide +kernel
  obtain ⟨key, text, hform, hmem⟩ := (hexact .noextract).mp ⟨_, hr⟩
  have hform' : OptionForm "=x".toList [] ['x'] := ⟨[], rfl, by simp, by simp⟩
  obtain ⟨rfl, -⟩ := hform.unique hform'
  simp [keys] at hmem

/-! ### Values -/

/-- The text with the blanks at both ends removed. -/
def trim (text : Str) : Str := (text.dropWhile isblank).rdropWhile isblank

/-- The line is indented. -/
def Indented (buf : Str) : Prop := ∃ c s, buf = c :: s ∧ isblank c = true

theorem byteAt_lt {s : Str} {i : Nat} (h : i < s.length) : byteAt s i = some s[i] := by
  rw [byteAt, List.getElem?_append_left h, List.getElem?_eq_getElem h]

theorem byteAt_length (line : Str) : byteAt line line.length = some '\x00' := by
  rw [byteAt, List.getElem?_append_right le_rfl, Nat.sub_self]
  rfl

theorem byteAt_gt {line : Str} {i : Nat} (h : line.length < i) : byteAt line i = none := by
  rw [byteAt, List.getElem?_eq_none]
  simp
  omega

/-- Inside the line, the loop finds the end of the text without its trailing blanks. -/
theorem eatTrailing_eq {s : Str} {off n : Nat} (h : off + n ≤ s.length) :
    eatTrailing s off n = some (((s.drop off).take n).rdropWhile isblank).length := by
  induction n with
  | zero => simp [eatTrailing]
  | succ n ih =>
    have hlt : off + n < s.length := by omega
    obtain ⟨c, hc⟩ : ∃ c, c = s[off + n] := ⟨_, rfl⟩
    have htake : (s.drop off).take (n + 1) = (s.drop off).take n ++ [c] := by
      rw [List.take_succ_eq_append_getElem (by rw [List.length_drop]; omega), List.getElem_drop, hc]
    rw [eatTrailing, byteAt_lt hlt, htake, ← hc]
    by_cases hb : isblank c = true
    · rw [List.rdropWhile_concat_pos _ _ _ hb]
      simp only [hb, if_true]
      exact ih (by omega)
    · rw [List.rdropWhile_concat_neg _ _ _ hb]
      simp only [hb]
      simp
      omega

/-- With the length of the line, the value ends where its trailing blanks begin. -/
theorem optionValue_exact {line : Str} {off : Nat} (h : off ≤ line.length) :
    optionValue line off line.length =
      ((line.drop off).rdropWhile isblank, some ((line.drop off).rdropWhile isblank).length) := by
  have hsub : sizeSub line.length off = line.length - off := if_pos h
  have hall : (line.drop off).take (line.length - off) = line.drop off :=
    List.take_of_length_le (by rw [List.length_drop])
  have hpre : (line.drop off).rdropWhile isblank <+: line.drop off := List.rdropWhile_prefix _ _
  have hle : ((line.drop off).rdropWhile isblank).length ≤ line.length - off := by
    have hlen := hpre.length_le
    rwa [List.length_drop] at hlen
  rw [optionValue, hsub, eatTrailing_eq (by omega), hall]
  simp only
  rw [if_pos (by omega), ← List.prefix_iff_eq_take.mp hpre]

/-- With a greater length, the code leaves the line: it reads behind the NUL,
or it reads the NUL and ends the value behind it. -/
theorem optionValue_long {line : Str} {off linelen : Nat} (h : off ≤ line.length)
    (hlong : line.length < linelen) : optionValue line off linelen = (line.drop off, none) := by
  obtain ⟨n, hn⟩ : ∃ n, linelen - off = n + 1 := ⟨linelen - off - 1, by omega⟩
  have hsub : sizeSub linelen off = n + 1 := by rw [sizeSub, if_pos (by omega), hn]
  rw [optionValue, hsub, eatTrailing]
  rcases Nat.lt_or_ge line.length (off + n) with hgt | hle
  · rw [byteAt_gt hgt]
  · have heq : off + n = line.length := by omega
    rw [heq, byteAt_length]
    have hnul : isblank '\x00' = false := rfl
    simp only [hnul]
    rw [if_neg (by simp)]
    simp only
    rw [if_neg (by omega)]

theorem fileLine_length_le (buf : Str) : (fileLine buf).1.length ≤ (fileLine buf).2 := by
  have hdrop := (List.dropWhile_sublist (l := cstring (stripNewline buf)) isblank).length_le
  have htake := (List.takeWhile_sublist (l := stripNewline buf) (· ≠ '\x00')).length_le
  exact hdrop.trans htake

/-- The line has the length it is handed on with exactly if there was nothing to skip. -/
theorem fileLine_length_eq (buf : Str) :
    (fileLine buf).1.length = (fileLine buf).2 ↔
      ¬ Indented (stripNewline buf) ∧ '\x00' ∉ stripNewline buf := by
  have hdrop := List.dropWhile_sublist (l := cstring (stripNewline buf)) isblank
  have htake := List.takeWhile_sublist (l := stripNewline buf) (· ≠ '\x00')
  constructor
  · intro heq
    have hc : cstring (stripNewline buf) = stripNewline buf :=
      htake.eq_of_length_le (le_trans (le_of_eq heq.symm) hdrop.length_le)
    have hd : (cstring (stripNewline buf)).dropWhile isblank = cstring (stripNewline buf) :=
      hdrop.eq_of_length_le (le_trans htake.length_le (le_of_eq heq.symm))
    constructor
    · rintro ⟨c, s, hcs, hb⟩
      rw [hc, hcs, List.dropWhile_cons_of_pos hb] at hd
      have hlen := (List.dropWhile_sublist (l := s) isblank).length_le
      rw [hd, List.length_cons] at hlen
      omega
    · intro hmem
      rw [← hc] at hmem
      have hne := List.mem_takeWhile_imp hmem
      simp at hne
  · rintro ⟨hind, hnul⟩
    have hc : cstring (stripNewline buf) = stripNewline buf := by
      rw [cstring, List.takeWhile_eq_self_iff]
      intro c hc
      simp only [ne_eq, decide_not, Bool.not_eq_eq_eq_not, Bool.not_true, decide_eq_false_iff_not]
      rintro rfl
      exact hnul hc
    have hd : (stripNewline buf).dropWhile isblank = stripNewline buf := by
      rcases hs : stripNewline buf with _ | ⟨c, s⟩
      · rfl
      · rw [List.dropWhile_cons_of_neg]
        exact fun hb => hind ⟨c, s, hs, hb⟩
    rw [fileLine, hc, hd]

/-- The value of an accepted line: looked for from the first character of the
text that is not blank. -/
theorem parseOption_value {line key text : Str} (h : OptionForm line key text) {probe : Probe}
    {linelen : Nat} {k : Key} {v : Str × Option Nat}
    (hr : parseOption probe line linelen = some (k, v)) :
    v = optionValue line (line.length - (text.dropWhile isblank).length) linelen := by
  rw [parseOption_form h, Option.map_eq_some_iff] at hr
  obtain ⟨e, -, hkv⟩ := hr
  exact (Prod.mk.inj hkv).2.symm

/-- The value is the trimmed text behind the `=`, with its length, and the line was not left. -/
def TrimmedValue (line : Str) (v : Str × Option Nat) : Prop :=
  ∃ key text, OptionForm line key text ∧ v = (trim text, some (trim text).length)

/-- **The value of a line is its trimmed text exactly if the line is not
indented** (and holds no NUL): otherwise the code leaves the line. -/
theorem fileLine_value_iff {probe : Probe} {buf : Str} {k : Key} {v : Str × Option Nat}
    (h : parseOption probe (fileLine buf).1 (fileLine buf).2 = some (k, v)) :
    TrimmedValue (fileLine buf).1 v ↔
      ¬ Indented (stripNewline buf) ∧ '\x00' ∉ stripNewline buf := by
  rw [← fileLine_length_eq]
  obtain ⟨key, text, hform⟩ := optionForm_of_parseOption h
  have hv := parseOption_value hform h
  set line := (fileLine buf).1 with hline
  have hsuffix : text.dropWhile isblank <:+ line := by
    obtain ⟨blanks, hl, -, -⟩ := hform
    rw [hl]
    exact (List.dropWhile_suffix _).trans ⟨key ++ blanks ++ ['='], by simp⟩
  have hoff : line.length - (text.dropWhile isblank).length ≤ line.length := by omega
  constructor
  · rintro ⟨key', text', -, hsome⟩
    have hle : line.length ≤ (fileLine buf).2 := fileLine_length_le buf
    by_contra hne
    rw [hsome, optionValue_long hoff (by omega)] at hv
    exact absurd (Prod.mk.inj hv).2 (by simp)
  · intro heq
    refine ⟨key, text, hform, ?_⟩
    rw [hv, ← heq, optionValue_exact hoff, ← List.suffix_iff_eq_drop.mp hsuffix]
    rfl

theorem fileLine_value_iff_plain :
    parseOption Probe.middle (fileLine "repository = 3 \n".toList).1
        (fileLine "repository = 3 \n".toList).2 = some (.repository, ['3'], some 1) ∧
      (TrimmedValue (fileLine "repository = 3 \n".toList).1 (['3'], some 1) ↔
        ¬ Indented (stripNewline "repository = 3 \n".toList) ∧
          '\x00' ∉ stripNewline "repository = 3 \n".toList) := by
  have hr : parseOption Probe.middle (fileLine "repository = 3 \n".toList).1
      (fileLine "repository = 3 \n".toList).2 = some (.repository, ['3'], some 1) := by
    decide +kernel
  exact ⟨hr, fileLine_value_iff hr⟩

/-- The indented line of the test's configuration: its value is ended behind the line. -/
theorem indented_value_lost :
    parseOption Probe.middle (fileLine "   repository=3".toList).1
        (fileLine "   repository=3".toList).2 = some (.repository, ['3'], none) ∧
      ¬ TrimmedValue (fileLine "   repository=3".toList).1 (['3'], none) := by
  constructor
  · decide +kernel
  · rintro ⟨key, text, -, h⟩
    exact absurd (Prod.mk.inj h).2 (by simp)

end Flappy.Conf
