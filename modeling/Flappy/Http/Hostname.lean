/-
Names of hosts: the one in a certificate (`fetch_ssl_hname_match` in `lib/fetch/common.c`), and
those in `NO_PROXY` (`fetch_no_proxy_match`).

A name in a certificate is the name of the host, or has one star, which stands for some
characters of the first label of the host.

* `hnameMatch_iff` — the names that a pattern matches;
* `noProxyMatch_iff` — the hosts that are asked without a proxy.
-/
import Flappy.Lib.Strto

open CStr

namespace Flappy.Http

/-- `strnstr`, for a text of one character, in a field that may hold a NUL: what is before and
behind the character. -/
def strnchr (c : Char) : Str → Option (Str × Str)
  | [] => none
  | x :: xs =>
    if x = c then some ([], xs)
    else if x = '\x00' then none
    else (strnchr c xs).map fun (a, b) => (x :: a, b)

/-- `fetch_ssl_tolower`. -/
def sslTolower (c : Char) : Char :=
  if 65 ≤ c.toNat ∧ c.toNat ≤ 90 then Char.ofNat (c.toNat + 32) else c

/-- `fetch_ssl_isalpha`. -/
def sslIsalpha (c : Char) : Bool :=
  (65 ≤ c.toNat && c.toNat ≤ 90) || (97 ≤ c.toNat && c.toNat ≤ 122)

/-- `fetch_ssl_hname_equal`. -/
def hnameEqual (a b : Str) : Bool := decide (a.map sslTolower = b.map sslTolower)

/-- The loop of `fetch_ssl_is_trad_domain_label`, behind a character. -/
def tradChars (wcok : Bool) (prev : Char) : Str → Bool
  | [] => true
  | c :: l =>
    if (!c.isDigit && !sslIsalpha c && !(c = '*' && wcok) && !(c = '-' && prev ≠ '-')) = true then
      false
    else tradChars wcok c l

/-- `fetch_ssl_is_trad_domain_label`; in front of the first character, which is no hyphen, stands
nothing. -/
def isTradDomainLabel (l : Str) (wcok : Bool) : Bool :=
  if l = [] ∨ l.head? = some '-' ∨ l.getLast? = some '-' then false
  else tradChars wcok '\x00' l

/-- `fetch_ssl_hname_is_only_numbers`. -/
def isOnlyNumbers (h : Str) : Bool := h.all fun c => c.isDigit || c = '.'

/-- `fetch_ssl_hname_match`. -/
def hnameMatch (h m : Str) : Bool :=
  if h = [] ∨ m = [] ∨ m.head? = some '\x00' then false
  else
    match strnchr '*' m with
    | none => hnameEqual h m
    | some (left, m1) =>
      if isOnlyNumbers h = true then false
      else if (strnchr '*' m1).isSome = true then false
      else
        match strnchr '.' m with
        | none => false
        | some (mlabel, domain) =>
          if mlabel.length < left.length ∨ domain.length + 1 < 4 then false
          else
            match strnchr '.' domain with
            | none => false
            | some (_, top) =>
              if top.length + 1 < 2 then false
              else
                match strnchr '.' h with
                | none => false
                | some (hlabel, hdomain) =>
                  let delta := mlabel.length - left.length - 1
                  if hlabel = [] then false
                  else if hlabel.length < mlabel.length then false
                  else if isTradDomainLabel hlabel false = false ∨
                      isTradDomainLabel mlabel true = false then false
                  else if hnameEqual ('.' :: hdomain) ('.' :: domain) = false then false
                  else if hnameEqual (h.take left.length) (m.take left.length) = false then false
                  else
                    hnameEqual ((h.drop (hlabel.length - delta)).take delta)
                      ((m.drop (mlabel.length - delta)).take delta)

/-! ### The parts of a pattern -/

theorem strnchr_eq_some {c : Char} (hc : c ≠ '\x00') {s a b : Str} :
    strnchr c s = some (a, b) ↔ s = a ++ c :: b ∧ c ∉ a ∧ '\x00' ∉ a := by
  induction s generalizing a with
  | nil => simp [strnchr]
  | cons x s ih =>
    rw [strnchr]
    by_cases hx : x = c
    · rw [if_pos hx]
      rcases a with _ | ⟨y, a⟩
      · simp [hx]
      · simp only [Option.some.injEq, Prod.mk.injEq, reduceCtorEq, false_and, List.cons_append,
          List.cons.injEq, List.mem_cons, not_or, false_iff, not_and]
        rintro ⟨rfl, -⟩ hne
        exact absurd hx.symm hne.1
    · rw [if_neg hx]
      rcases a with _ | ⟨y, a⟩
      · by_cases hnul : x = '\x00'
        · simp [hnul, hc.symm]
        · simp [hnul, hx]
      · by_cases hnul : x = '\x00'
        · rw [if_pos hnul]
          simp only [reduceCtorEq, List.cons_append, List.cons.injEq, List.mem_cons, not_or,
            false_iff, not_and]
          rintro ⟨rfl, -⟩ - hne
          exact absurd hnul.symm hne
        · rw [if_neg hnul]
          simp only [Option.map_eq_some_iff, Prod.exists, Prod.mk.injEq, List.cons.injEq,
            List.cons_append, List.mem_cons, not_or]
          constructor
          · rintro ⟨a', b', h, ⟨rfl, rfl⟩, rfl⟩
            obtain ⟨rfl, ha, hzero⟩ := ih.mp h
            exact ⟨⟨rfl, rfl⟩, ⟨Ne.symm hx, ha⟩, Ne.symm hnul, hzero⟩
          · rintro ⟨⟨rfl, rfl⟩, ⟨-, ha⟩, -, hzero⟩
            exact ⟨a, b, ih.mpr ⟨rfl, ha, hzero⟩, ⟨rfl, rfl⟩, rfl⟩

theorem strnchr_eq_none {c : Char} {s : Str} (hnul : '\x00' ∉ s) : strnchr c s = none ↔ c ∉ s := by
  induction s with
  | nil => simp [strnchr]
  | cons x s ih =>
    rw [List.mem_cons, not_or] at hnul
    rw [strnchr]
    by_cases hx : x = c
    · simp [hx]
    · rw [if_neg hx, if_neg (Ne.symm hnul.1), Option.map_eq_none_iff, ih hnul.2]
      simp [Ne.symm hx]

theorem sslTolower_ne_nul {c : Char} (h : c ≠ '\x00') : sslTolower c ≠ '\x00' := by
  have hall : ∀ n < 26, Char.ofNat (n + 97) ≠ '\x00' := by decide
  rw [sslTolower]
  split
  · have hc := hall (c.toNat - 65) (by omega)
    rwa [show c.toNat - 65 + 97 = c.toNat + 32 by omega] at hc
  · exact h

/-- A name without a NUL is equal to no name with one. -/
theorem not_mem_of_hnameEqual {a b : Str} (h : hnameEqual a b = true) (ha : '\x00' ∉ a) :
    '\x00' ∉ b := by
  rw [hnameEqual, decide_eq_true_eq] at h
  intro hb
  have hmem : '\x00' ∈ a.map sslTolower := by
    rw [h]
    exact List.mem_map.mpr ⟨'\x00', hb, by decide⟩
  obtain ⟨c, hc, hlower⟩ := List.mem_map.mp hmem
  exact sslTolower_ne_nul (fun he => ha (he ▸ hc)) hlower

theorem mem_tradChars {wcok : Bool} {prev : Char} {l : Str} (h : tradChars wcok prev l = true) :
    '.' ∉ l ∧ '\x00' ∉ l := by
  induction l generalizing prev with
  | nil => simp
  | cons c l ih =>
    rw [tradChars] at h
    split at h
    · cases h
    · rename_i hc
      obtain ⟨hdot, hnul⟩ := ih h
      rw [List.mem_cons, List.mem_cons, not_or, not_or]
      refine ⟨⟨?_, hdot⟩, ?_, hnul⟩
      · rintro rfl
        exact hc (by simp [sslIsalpha])
      · rintro rfl
        exact hc (by simp [sslIsalpha])

theorem mem_label {l : Str} {wcok : Bool} (h : isTradDomainLabel l wcok = true) :
    '.' ∉ l ∧ '\x00' ∉ l := by
  rw [isTradDomainLabel] at h
  split at h
  · cases h
  · exact mem_tradChars h

theorem length_hnameEqual {a b : Str} (h : hnameEqual a b = true) : a.length = b.length := by
  rw [hnameEqual, decide_eq_true_eq] at h
  simpa using congrArg List.length h

/-- The host `h` is `a`, `x`, `b` and `d`, where the pattern `m` has `left`, a star, `right` and
`domain`. -/
structure Starred (h m left right domain a x b d : Str) : Prop where
  pattern : m = left ++ '*' :: (right ++ '.' :: domain)
  name : h = a ++ (x ++ (b ++ '.' :: d))
  equal_left : hnameEqual a left = true
  equal_right : hnameEqual b right = true
  equal_domain : hnameEqual d domain = true
  star : x ≠ []
  single : '*' ∉ left ∧ '*' ∉ right ∧ '*' ∉ domain
  label : isTradDomainLabel (left ++ '*' :: right) true = true
  host_label : isTradDomainLabel (a ++ (x ++ b)) false = true
  labels : 3 ≤ domain.length ∧ ∃ second top, domain = second ++ '.' :: top ∧ '.' ∉ second ∧ top ≠ []
  no_address : isOnlyNumbers h = false

/-- A pattern of this form matches. -/
theorem hnameMatch_of_starred {h m left right domain a x b d : Str} (hnul : '\x00' ∉ h)
    (hs : Starred h m left right domain a x b d) : hnameMatch h m = true := by
  obtain ⟨hm, hh, hleft, hright, hdomain, hx, ⟨hstar, hstar', hstar''⟩, hlabel, hhost, ⟨hthree,
    second, top, htop, hsecond, hne⟩, haddr⟩ := hs
  have hparts : '\x00' ∉ a ∧ '\x00' ∉ x ∧ '\x00' ∉ b ∧ '\x00' ∉ d := by
    rw [hh] at hnul
    simpa [not_or] using hnul
  have hzero := not_mem_of_hnameEqual hleft hparts.1
  have hzero' := not_mem_of_hnameEqual hright hparts.2.2.1
  have hzero'' := not_mem_of_hnameEqual hdomain hparts.2.2.2
  -- where the characters are that the function looks for
  have hstarAt : strnchr '*' m = some (left, right ++ '.' :: domain) :=
    (strnchr_eq_some (by decide)).mpr ⟨hm, hstar, hzero⟩
  have hnoStar : strnchr '*' (right ++ '.' :: domain) = none :=
    (strnchr_eq_none (by simp [hzero', hzero''])).mpr (by simp [hstar', hstar''])
  have hdotAt : strnchr '.' m = some (left ++ '*' :: right, domain) :=
    (strnchr_eq_some (by decide)).mpr ⟨by rw [hm]; simp, mem_label hlabel⟩
  have hdotAt' : strnchr '.' domain = some (second, top) :=
    (strnchr_eq_some (by decide)).mpr ⟨htop, hsecond, fun hmem => hzero'' (by rw [htop]; simp [hmem])⟩
  have hdotAt'' : strnchr '.' h = some (a ++ (x ++ b), d) :=
    (strnchr_eq_some (by decide)).mpr ⟨by rw [hh]; simp, mem_label hhost⟩
  have hxpos := List.length_pos_iff.mpr hx
  have htoppos := List.length_pos_iff.mpr hne
  have hal := length_hnameEqual hleft
  have hbr := length_hnameEqual hright
  have hdelta : (left ++ '*' :: right).length - left.length - 1 = b.length := by
    rw [List.length_append, List.length_cons, hbr]
    omega
  have htakeLeft : h.take left.length = a ∧ m.take left.length = left := by
    rw [hh, hm, ← hal]
    exact ⟨List.take_left, by rw [hal]; exact List.take_left⟩
  -- the parts that it compares around the star
  have hright' : (h.drop ((a ++ (x ++ b)).length - b.length)).take b.length = b := by
    have hdrop : (a ++ (x ++ b)).length - b.length = (a ++ x).length := by
      simp only [List.length_append]
      omega
    have hassoc : h = (a ++ x) ++ (b ++ '.' :: d) := by rw [hh, List.append_assoc]
    rw [hdrop, hassoc, List.drop_left, List.take_left]
  have hright'' : (m.drop ((left ++ '*' :: right).length - b.length)).take b.length = right := by
    have hdrop : (left ++ '*' :: right).length - b.length = (left ++ ['*']).length := by
      simp only [List.length_append, List.length_cons, List.length_nil]
      omega
    have hassoc : m = (left ++ ['*']) ++ (right ++ '.' :: domain) := by rw [hm]; simp
    rw [hdrop, hassoc, List.drop_left, hbr, List.take_left]
  have hempty : ¬ (h = [] ∨ m = [] ∨ m.head? = some '\x00') := by
    rintro (rfl | rfl | hhead)
    · simp at hh
    · simp at hm
    · obtain ⟨m, rfl⟩ := List.head?_eq_some_iff.mp hhead
      rcases left with _ | ⟨c, left⟩
      · exact absurd (List.cons.inj hm).1 (by decide)
      · exact hzero ((List.cons.inj hm).1 ▸ List.mem_cons_self)
  rw [hnameMatch, if_neg hempty, hstarAt]
  simp only
  rw [if_neg (by simp [haddr]), if_neg (by simp [hnoStar]), hdotAt]
  simp only
  rw [if_neg (by simp only [List.length_append]; omega), hdotAt']
  simp only
  rw [if_neg (by omega), hdotAt'']
  simp only
  rw [hdelta, if_neg (by simp [hx]),
    if_neg (by simp only [List.length_append, List.length_cons]; omega),
    if_neg (by simp [hlabel, hhost]), htakeLeft.1, htakeLeft.2,
    if_neg (by simpa [hnameEqual] using hdomain), if_neg (by simp [hleft]), hright', hright'']
  exact hright

/-- The star of a pattern stands in its first label, if that is not shorter than what stands
before the star. -/
theorem star_in_label {left m1 mlabel domain : Str} (hlen : left.length ≤ mlabel.length)
    (h : left ++ '*' :: m1 = mlabel ++ '.' :: domain) :
    ∃ right, mlabel = left ++ '*' :: right ∧ m1 = right ++ '.' :: domain := by
  rcases List.append_eq_append_iff.mp h with ⟨e, rfl, he⟩ | ⟨e, rfl, he⟩
  · rcases e with _ | ⟨c, e⟩
    · exact absurd (List.cons.inj he).1 (by decide)
    · obtain ⟨rfl, rfl⟩ := List.cons.inj he
      exact ⟨e, rfl, rfl⟩
  · rcases e with _ | ⟨c, e⟩
    · exact absurd (List.cons.inj he).1 (by decide)
    · rw [List.length_append, List.length_cons] at hlen
      omega

/-- A label with room for two ends of given lengths and something between them. -/
theorem exists_ends {l : Str} {p q : Nat} (h : p + 1 + q ≤ l.length) :
    ∃ a x b, l = a ++ (x ++ b) ∧ a.length = p ∧ b.length = q ∧ x ≠ [] := by
  refine ⟨l.take p, (l.drop p).take (l.length - p - q), (l.drop p).drop (l.length - p - q),
    ?_, ?_, ?_, ?_⟩
  · rw [List.take_append_drop, List.take_append_drop]
  · rw [List.length_take]
    omega
  · rw [List.length_drop, List.length_drop]
    omega
  · rw [← List.length_pos_iff, List.length_take, List.length_drop]
    omega

/-- A pattern with a star that matches has this form. -/
theorem starred_of_hnameMatch {h m left m1 : Str} (hnul : '\x00' ∉ h)
    (hstar : strnchr '*' m = some (left, m1)) (hmatch : hnameMatch h m = true) :
    ∃ right domain a x b d, Starred h m left right domain a x b d := by
  rw [hnameMatch] at hmatch
  split at hmatch
  · cases hmatch
  rw [hstar] at hmatch
  simp only at hmatch
  split at hmatch
  · cases hmatch
  rename_i haddr
  split at hmatch
  · cases hmatch
  rename_i hsingle
  rcases hdot : strnchr '.' m with _ | ⟨mlabel, domain⟩
  · rw [hdot] at hmatch
    cases hmatch
  rw [hdot] at hmatch
  simp only at hmatch
  split at hmatch
  · cases hmatch
  rename_i hlengths
  rcases hdot' : strnchr '.' domain with _ | ⟨second, top⟩
  · rw [hdot'] at hmatch
    cases hmatch
  rw [hdot'] at hmatch
  simp only at hmatch
  split at hmatch
  · cases hmatch
  rename_i htop
  rcases hdot'' : strnchr '.' h with _ | ⟨hlabel, hdomain⟩
  · rw [hdot''] at hmatch
    cases hmatch
  rw [hdot''] at hmatch
  simp only at hmatch
  split_ifs at hmatch with hne hshort htrad hequal hequal'
  obtain ⟨rfl, hleft, -⟩ := (strnchr_eq_some (by decide)).mp hstar
  obtain ⟨hm, hmdot, -⟩ := (strnchr_eq_some (by decide)).mp hdot
  obtain ⟨rfl, hsecond, -⟩ := (strnchr_eq_some (by decide)).mp hdot'
  obtain ⟨rfl, hhdot, -⟩ := (strnchr_eq_some (by decide)).mp hdot''
  rw [not_or, Nat.not_lt, Nat.not_lt] at hlengths
  rw [not_or, Bool.not_eq_false, Bool.not_eq_false] at htrad
  rw [Bool.not_eq_false] at hequal hequal'
  rw [Bool.not_eq_true] at haddr
  -- both first labels in parts, around the star and what stands for it
  obtain ⟨right, rfl, rfl⟩ := star_in_label hlengths.1 hm
  have hlen : left.length + 1 + right.length ≤ hlabel.length := by
    rw [List.length_append, List.length_cons] at hshort
    omega
  obtain ⟨a, x, b, rfl, ha, hb, hx⟩ := exists_ends hlen
  have hdelta : (left ++ '*' :: right).length - left.length - 1 = b.length := by
    rw [List.length_append, List.length_cons, hb]
    omega
  have hdrop : (a ++ (x ++ b)).length - b.length = (a ++ x).length := by
    simp only [List.length_append]
    omega
  have hdrop' : (left ++ '*' :: right).length - b.length = (left ++ ['*']).length := by
    simp only [List.length_append, List.length_cons, List.length_nil]
    omega
  have hname : a ++ (x ++ b) ++ '.' :: hdomain = (a ++ x) ++ (b ++ '.' :: hdomain) := by simp
  have hpattern : left ++ '*' :: (right ++ '.' :: (second ++ '.' :: top)) =
      (left ++ ['*']) ++ (right ++ '.' :: (second ++ '.' :: top)) := by simp
  rw [hdelta, hdrop, hdrop', hname, hpattern, List.drop_left, List.drop_left, List.take_left, hb,
    List.take_left] at hmatch
  rw [List.take_left, ← ha, List.append_assoc, List.take_left] at hequal'
  have hdomainEqual : hnameEqual hdomain (second ++ '.' :: top) = true := by
    simpa [hnameEqual] using hequal
  have hparts : '\x00' ∉ b ∧ '\x00' ∉ hdomain := by
    simp only [List.mem_append, List.mem_cons, not_or] at hnul
    exact ⟨hnul.1.2.2, hnul.2.2⟩
  have hzero := not_mem_of_hnameEqual hmatch hparts.1
  have hzero' := not_mem_of_hnameEqual hdomainEqual hparts.2
  -- a second star is looked for only up to a zero byte, and there is none
  have hno : '*' ∉ right ++ '.' :: (second ++ '.' :: top) := by
    refine (strnchr_eq_none ?_).mp (Option.not_isSome_iff_eq_none.mp hsingle)
    rw [List.mem_append, List.mem_cons, not_or, not_or]
    exact ⟨hzero, by decide, hzero'⟩
  rw [List.mem_append, List.mem_cons, not_or, not_or] at hno
  refine ⟨right, _, a, x, b, hdomain, rfl, by simp, hequal', hmatch, hdomainEqual, hx,
    ⟨hleft, hno.1, hno.2.2⟩, htrad.2, htrad.1, ⟨?_, second, top, rfl, hsecond, ?_⟩, haddr⟩
  · omega
  · rintro rfl
    exact htop (by decide)

/-- **The host names that a pattern matches**: without a star, the name itself; with one, the
names that have some characters of their first label in its place, and the same domain. -/
theorem hnameMatch_iff {h m : Str} (hnul : '\x00' ∉ h) :
    hnameMatch h m = true ↔ (h ≠ [] ∧ '*' ∉ m ∧ hnameEqual h m = true) ∨
      ∃ left right domain a x b d, Starred h m left right domain a x b d := by
  constructor
  · intro hmatch
    rcases hstar : strnchr '*' m with _ | ⟨left, m1⟩
    · rw [hnameMatch] at hmatch
      split at hmatch
      · cases hmatch
      · rename_i hempty
        rw [not_or] at hempty
        rw [hstar] at hmatch
        have hzero := not_mem_of_hnameEqual hmatch hnul
        exact .inl ⟨hempty.1, (strnchr_eq_none hzero).mp hstar, hmatch⟩
    · obtain ⟨right, domain, a, x, b, d, hs⟩ := starred_of_hnameMatch hnul hstar hmatch
      exact .inr ⟨left, right, domain, a, x, b, d, hs⟩
  · rintro (⟨hne, hstar, hequal⟩ | ⟨left, right, domain, a, x, b, d, hs⟩)
    · have hzero := not_mem_of_hnameEqual hequal hnul
      have hlen := length_hnameEqual hequal
      have hempty : ¬ (h = [] ∨ m = [] ∨ m.head? = some '\x00') := by
        rintro (hnil | rfl | hhead)
        · exact hne hnil
        · exact hne (List.eq_nil_of_length_eq_zero hlen)
        · exact hzero (List.mem_of_mem_head? hhead)
      rw [hnameMatch, if_neg hempty, (strnchr_eq_none hzero).mpr hstar]
      exact hequal
    · exact hnameMatch_of_starred hnul hs

theorem hnameMatch_iff_mirror :
    hnameMatch ['d', 'e', '.', 'r', '.', 'o', 'g'] ['*', '.', 'R', '.', 'o', 'g'] = true ∧
      hnameMatch ['a', '.', 'd', 'e', '.', 'r', '.', 'o', 'g'] ['*', '.', 'R', '.', 'o', 'g'] =
        false := by
  constructor
  · refine (hnameMatch_iff (by decide)).mpr (.inr ⟨[], [], ['R', '.', 'o', 'g'], [], ['d', 'e'], [],
      ['r', '.', 'o', 'g'], rfl, rfl, rfl, rfl, by decide, by decide, by decide, by decide, by decide,
      ⟨by decide, ['R'], ['o', 'g'], rfl, by decide, by decide⟩, by decide⟩)
  · decide

/-! ### Hosts without a proxy -/

/-- What stands between the domains in `NO_PROXY`. -/
def separates (c : Char) : Bool := c = ',' || isspace c

/-- The host is in the domain: there is something before it, whether or not that ends with a
dot. -/
def inDomain (host domain : Str) : Bool :=
  decide (0 < domain.length ∧ domain.length < host.length) &&
    decide ((host.drop (host.length - domain.length)).map Char.toLower = domain.map Char.toLower)

theorem length_behind_domain {p : Str}
    (h : (p.dropWhile separates).dropWhile (fun c => !separates c) ≠ []) :
    ((p.dropWhile separates).dropWhile fun c => !separates c).tail.length < p.length := by
  have hlt := List.length_pos_iff.mpr h
  have hspace := (List.dropWhile_sublist (l := p) separates).length_le
  have hdomain :=
    (List.dropWhile_sublist (l := p.dropWhile separates) fun c => !separates c).length_le
  rw [List.length_tail]
  omega

/-- The loop of `fetch_no_proxy_match`, from `p` on. -/
def noProxyLoop (host p : Str) : Bool :=
  if inDomain host ((p.dropWhile separates).takeWhile fun c => !separates c) = true then true
  else if _h : (p.dropWhile separates).dropWhile (fun c => !separates c) = [] then false
  else noProxyLoop host ((p.dropWhile separates).dropWhile fun c => !separates c).tail
termination_by p.length
decreasing_by exact length_behind_domain _h

/-- `fetch_no_proxy_match`. -/
def noProxyMatch (getenv : Str → Option Str) (host : Str) : Bool :=
  match (getenv "NO_PROXY".toList).or (getenv "no_proxy".toList) with
  | none => false
  | some noProxy => if noProxy = ['*'] then true else noProxyLoop host noProxy

theorem inDomain_iff {host domain : Str} :
    inDomain host domain = true ↔ domain ≠ [] ∧ ∃ label rest, host = label ++ rest ∧ label ≠ [] ∧
      rest.map Char.toLower = domain.map Char.toLower := by
  rw [inDomain, Bool.and_eq_true, decide_eq_true_eq, decide_eq_true_eq, ← List.length_pos_iff]
  constructor
  · rintro ⟨⟨hpos, hlt⟩, heq⟩
    refine ⟨hpos, host.take (host.length - domain.length), _, (List.take_append_drop _ _).symm, ?_,
      heq⟩
    rw [← List.length_pos_iff, List.length_take]
    omega
  · rintro ⟨hpos, label, rest, rfl, hne, heq⟩
    have hlen : rest.length = domain.length := by simpa using congrArg List.length heq
    have hlabel := List.length_pos_iff.mpr hne
    rw [List.length_append, hlen, Nat.add_sub_cancel, List.drop_left]
    exact ⟨⟨hpos, by omega⟩, heq⟩

theorem splitOnP_dropWhile (host p : Str) :
    (∃ d ∈ p.splitOnP separates, inDomain host d = true) ↔
      ∃ d ∈ (p.dropWhile separates).splitOnP separates, inDomain host d = true := by
  induction p with
  | nil => rfl
  | cons c p ih =>
    by_cases hc : separates c = true
    · -- what is in front of a separator is an empty domain, and no host is in that
      have hsplit : (c :: p).splitOnP separates = [] :: p.splitOnP separates := by
        simpa using List.splitOnP_append_cons [] p hc
      have hnil : inDomain host [] = false := rfl
      rw [List.dropWhile_cons_of_pos hc, ← ih, hsplit]
      simp [hnil]
    · rw [List.dropWhile_cons_of_neg hc]

/-- The domain that comes first, and the ones behind it. -/
theorem splitOnP_domain (q : Str) :
    q.splitOnP separates = (q.takeWhile fun c => !separates c) ::
      if (q.dropWhile fun c => !separates c) = [] then []
      else (q.dropWhile fun c => !separates c).tail.splitOnP separates := by
  have hall : ∀ c ∈ q.takeWhile (fun c => !separates c), separates c = false := by
    intro c hc
    simpa using List.mem_takeWhile_imp hc
  have hq := List.takeWhile_append_dropWhile (p := fun c => !separates c) (l := q)
  by_cases hend : (q.dropWhile fun c => !separates c) = []
  · rw [if_pos hend]
    rw [hend, List.append_nil] at hq
    conv_lhs => rw [← hq]
    exact List.splitOnP_eq_singleton hall
  · rw [if_neg hend]
    have hsep : separates ((q.dropWhile fun c => !separates c).head hend) = true := by
      simpa using List.head_dropWhile_not (fun c => !separates c) hend
    rw [← List.cons_head_tail hend] at hq
    conv_lhs => rw [← hq, List.splitOnP_append_cons _ _ hsep, List.splitOnP_eq_singleton hall]
    rfl

/-- The loop looks at every domain. -/
theorem noProxyLoop_iff {host p : Str} :
    noProxyLoop host p = true ↔ ∃ d ∈ p.splitOnP separates, inDomain host d = true := by
  rw [splitOnP_dropWhile, splitOnP_domain]
  fun_induction noProxyLoop host p with
  | case1 p h => exact iff_of_true rfl ⟨_, List.mem_cons_self, h⟩
  | case2 p h hend =>
    rw [if_pos hend]
    simp [h]
  | case3 p h hend ih =>
    rw [if_neg hend, ih, ← splitOnP_domain, ← splitOnP_dropWhile]
    simp [h]

/-- **Which hosts are asked without a proxy**: any host if `NO_PROXY` is a star, and otherwise those
that end with one of its domains, up to the case of letters, and are longer. -/
theorem noProxyMatch_iff {getenv : Str → Option Str} {host : Str} :
    noProxyMatch getenv host = true ↔
      ∃ noProxy, (getenv "NO_PROXY".toList).or (getenv "no_proxy".toList) = some noProxy ∧
        (noProxy = ['*'] ∨ ∃ domain ∈ noProxy.splitOnP separates, domain ≠ [] ∧
          ∃ label rest, host = label ++ rest ∧ label ≠ [] ∧
            rest.map Char.toLower = domain.map Char.toLower) := by
  rw [noProxyMatch]
  cases (getenv "NO_PROXY".toList).or (getenv "no_proxy".toList) with
  | none => simp
  | some noProxy =>
    simp only [Option.some.injEq, exists_eq_left', ← inDomain_iff, ← noProxyLoop_iff]
    by_cases hstar : noProxy = ['*']
    · simp [hstar]
    · simp [hstar]

end Flappy.Http
