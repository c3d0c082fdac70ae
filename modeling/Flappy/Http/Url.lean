/-
Locations (`lib/fetch/fetch.c`).

A location is read from a text that begins with a scheme, or from a path.  The document of
a path is quoted, so that unquoting it gives the path again.

* `parse` — `fetchParseURL`;
* `unquotePath_parse` — a path that is read and unquoted again;
* `wellFormed_parse`, `requestLine_words` — what is read can be asked for;
* `parse_stringify` — what is read, written and read again.
-/
import Flappy.Lib.Strncmp
import Flappy.Lib.Strto

open CStr

namespace Flappy.Http

/-- `struct url`. -/
structure Url where
  scheme : Str
  user : Str := []
  pwd : Str := []
  host : Str := []
  port : Nat := 0
  doc : Str
deriving DecidableEq

/-- `SCHEME_FILE`, and so on. -/
def schemeFile : Str := ['f', 'i', 'l', 'e']

def schemeHttp : Str := ['h', 't', 't', 'p']

def schemeHttps : Str := ['h', 't', 't', 'p', 's']

def schemeFtp : Str := ['f', 't', 'p']

def schemeSocks5 : Str := ['s', 'o', 'c', 'k', 's', '5']

/-- `URL_HOSTLEN`, `URL_USERLEN` and `URL_PWDLEN`. -/
def urlHostlen : Nat := 255

def urlUserlen : Nat := 256

def urlPwdlen : Nat := 256

/-- The character that an escape at the front stands for, and what is behind the escape. -/
def escape : Str → Option (Nat × Str)
  | '%' :: a :: b :: s =>
    if isDigitOf 16 a = true ∧ isDigitOf 16 b = true then
      some ((digitValue a).getD 0 * 16 + (digitValue b).getD 0, s)
    else none
  | _ => none

/-- `fetch_pctdecode`: what has been decoded, and the rest. -/
def pctdecode : Nat → Str → Option (Str × Str)
  | _, [] => some ([], [])
  | dlen, c :: s =>
    if c = '@' ∨ c = ':' then some ([], c :: s)
    else
      match dlen with
      | 0 => none
      | dlen + 1 =>
        match escape (c :: s) with
        | some (n + 1, rest) =>
          (pctdecode dlen rest).map fun (out, rest) => (Char.ofNat (n + 1) :: out, rest)
        | _ => (pctdecode dlen s).map fun (out, rest) => (c :: out, rest)

/-- `fetch_urlpath_safe`. -/
def urlpathSafe (c : Char) : Bool :=
  c.isAlphanum || c ∈ ['$', '-', '_', '.', '+', '!', '*', '\'', '(', ')', ',', '?', ':', '@', '&',
    '=', '/', ';', '~', '%']

/-- A character of the document, as `fetchParseURL` writes it. -/
def quoteChar (preQuoted : Bool) (c : Char) : Str :=
  if (preQuoted = false ∧ c = '%') ∨ urlpathSafe c = false then
    ['%',
      if c.toNat < 160 then Char.ofNat (48 + c.toNat / 16) else Char.ofNat (87 + c.toNat / 16),
      if c.toNat % 16 < 10 then Char.ofNat (48 + c.toNat % 16)
      else Char.ofNat (87 + c.toNat % 16)]
  else [c]

def quoteDoc (preQuoted : Bool) (p : Str) : Str := p.flatMap (quoteChar preQuoted)

/-- A host in brackets, and what is behind it. -/
def bracketed : Str → Option (Str × Str)
  | '[' :: p =>
    match strchr ']' p with
    | some (host, q) =>
      if q = [] ∨ q.head? = some '/' ∨ q.head? = some ':' then some (host, q) else none
    | none => none
  | _ => none

def isHostChar (c : Char) : Bool := c ≠ '/' && c ≠ ':'

def splitHost (p : Str) : Str × Str :=
  match bracketed p with
  | some (host, q) => (host.take urlHostlen, q)
  | none => ((p.takeWhile isHostChar).take urlHostlen, p.dropWhile isHostChar)

def isPortChar (c : Char) : Bool := c ≠ '/'

def parsePort : Str → Option (Nat × Str)
  | ':' :: q =>
    if (q.takeWhile isPortChar).all Char.isDigit = true then
      some (atoi (q.takeWhile isPortChar), q.dropWhile isPortChar)
    else none
  | p => some (0, p)

/-- From the host on. -/
def parseHost (scheme user pwd p : Str) : Option Url :=
  let (host, p) := splitHost p
  (parsePort p).map fun (port, p) =>
    { scheme, user, pwd, host, port, doc := quoteDoc true (if p = [] then ['/'] else p) }

/-- `find_user`. -/
def findUser (scheme URL : Str) : Option Url :=
  match strpbrk ['/', '@'] URL with
  | some ('@' :: p) =>
    match pctdecode urlUserlen URL with
    | none => none
    | some (user, ':' :: q) =>
      match pctdecode urlPwdlen q with
      | none => none
      | some (pwd, _) => parseHost scheme user pwd p
    | some (user, _) => parseHost scheme user [] p
  | _ => parseHost scheme [] [] URL

def authority (scheme : Str) : Str → Option Url
  | '/' :: '/' :: URL => findUser scheme URL
  | _ => none

/-- Whether the text begins with the scheme and a colon. -/
def hasScheme (scheme URL : Str) : Bool :=
  strncmp (scheme.length + 1) URL (scheme ++ [':']) = .eq

/-- `fetchParseURL`. -/
def parse (URL : Str) : Option Url :=
  if URL.head? = some '/' then some { scheme := schemeFile, doc := quoteDoc false URL }
  else if hasScheme schemeFile URL = true then
    match URL.drop 5 with
    | '/' :: '/' :: '/' :: p => some { scheme := schemeFile, doc := quoteDoc true ('/' :: p) }
    | _ => none
  else if hasScheme schemeHttp URL = true then authority schemeHttp (URL.drop 5)
  else if hasScheme schemeHttps URL = true then authority schemeHttps (URL.drop 6)
  else if hasScheme schemeFtp URL = true then authority schemeFtp (URL.drop 4)
  else if hasScheme schemeSocks5 URL = true then authority schemeSocks5 (URL.drop 7)
  else none

/-- `fetchUnquotePath`. -/
def unquotePath : Str → Str
  | c :: a :: b :: s =>
    if c = '#' ∨ c = '?' then []
    else if c = '%' ∧ isDigitOf 16 a = true ∧ isDigitOf 16 b = true then
      Char.ofNat ((digitValue a).getD 0 * 16 + (digitValue b).getD 0) :: unquotePath s
    else c :: unquotePath (a :: b :: s)
  | [c, a] =>
    if c = '#' ∨ c = '?' then [] else c :: unquotePath [a]
  | [c] => if c = '#' ∨ c = '?' then [] else [c]
  | [] => []

/-- `fetchUnquoteFilename`. -/
def unquoteFilename (url : Url) : Str :=
  match strrchr '/' (unquotePath url.doc) with
  | some (_, filename) => filename
  | none => unquotePath url.doc

/-- `fetchStringifyURL`.  The block has room for a port of five digits. -/
def stringify (url : Url) : Str :=
  (url.scheme ++ (if url.scheme ≠ [] then [':', '/', '/'] else []) ++ url.user ++
    (if url.pwd ≠ [] then [':'] else []) ++ url.pwd ++
    (if url.user ≠ [] ∨ url.pwd ≠ [] then ['@'] else []) ++ url.host ++
    (if url.port ≠ 0 then ':' :: Nat.toDigits 10 url.port else []) ++ url.doc).take
    (url.scheme.length + 3 + url.user.length + 1 + url.pwd.length + 1 + url.host.length + 6 +
      url.doc.length)

/-- The host as `http_request` writes it: an address with colons in brackets, and the port, if it is
not the one of the scheme, as far as there is room. -/
def hostText (defaultPort : Nat) (url : Url) : Str :=
  let host := if ':' ∈ url.host then '[' :: (url.host ++ [']']) else url.host
  if url.port = 0 ∨ url.port = defaultPort then host
  else (host ++ ':' :: Nat.toDigits 10 url.port).take (urlHostlen + 6)

/-- Whether a proxy is asked for the location by its whole name: for `https` it only passes the
bytes on. -/
def asksProxy (proxied : Bool) (url : Url) : Bool :=
  proxied && url.scheme.map Char.toLower ≠ schemeHttps

/-- What `http_request` asks a server for, or a proxy. -/
def requestTarget (defaultPort : Nat) (proxied : Bool) (url : Url) : Str :=
  if asksProxy proxied url = true then
    url.scheme ++ ':' :: '/' :: '/' :: (hostText defaultPort url ++ url.doc)
  else url.doc

/-- The first line that `http_request` sends. -/
def requestLine (op : Str) (defaultPort : Nat) (proxied : Bool) (url : Url) : Str :=
  op ++ ' ' :: (requestTarget defaultPort proxied url ++
    ' ' :: ['H', 'T', 'T', 'P', '/', '1', '.', '1', '\r', '\n'])

/-! ### Paths -/

/-- A digit as `fetchParseURL` writes it. -/
def hexDigit (n : Nat) : Char := if n < 10 then Char.ofNat (48 + n) else Char.ofNat (87 + n)

theorem hexDigit_spec : ∀ {n : Nat}, n < 16 → isDigitOf 16 (hexDigit n) = true ∧
    digitValue (hexDigit n) = some n ∧ urlpathSafe (hexDigit n) = true := by
  decide

theorem quoteChar_eq (preQuoted : Bool) (c : Char) :
    quoteChar preQuoted c = if (preQuoted = false ∧ c = '%') ∨ urlpathSafe c = false then
      ['%', hexDigit (c.toNat / 16), hexDigit (c.toNat % 16)] else [c] := by
  have hhigh : (if c.toNat < 160 then Char.ofNat (48 + c.toNat / 16)
      else Char.ofNat (87 + c.toNat / 16)) = hexDigit (c.toNat / 16) :=
    if_congr (by omega) rfl rfl
  rw [quoteChar, hhigh]
  rfl

theorem unquotePath_plain {c : Char} (hquery : c ≠ '?') (hfragment : c ≠ '#') (hc : c ≠ '%')
    (s : Str) : unquotePath (c :: s) = c :: unquotePath s := by
  have hstop : ¬ (c = '#' ∨ c = '?') := fun h => h.elim hfragment hquery
  rcases s with _ | ⟨a, _ | ⟨b, s⟩⟩
  · rw [unquotePath, if_neg hstop, unquotePath]
  · rw [unquotePath, if_neg hstop]
  · rw [unquotePath, if_neg hstop, if_neg fun h => hc h.1]

theorem unquotePath_escape {a b : Char} (ha : isDigitOf 16 a = true) (hb : isDigitOf 16 b = true)
    (s : Str) : unquotePath ('%' :: a :: b :: s) =
      Char.ofNat ((digitValue a).getD 0 * 16 + (digitValue b).getD 0) :: unquotePath s := by
  rw [unquotePath, if_neg (by decide), if_pos ⟨rfl, ha, hb⟩]

theorem unquotePath_query (s : Str) : unquotePath ('?' :: s) = [] := by
  rcases s with _ | ⟨a, _ | ⟨b, s⟩⟩ <;> rw [unquotePath, if_pos (Or.inr rfl)]

/-- The quoted text, unquoted again, up to the first character that begins a query. -/
theorem unquotePath_quoteDoc {p : Str} (hp : ∀ c ∈ p, c.toNat < 256) :
    unquotePath (quoteDoc false p) = p.takeWhile fun c => decide (c ≠ '?') := by
  induction p with
  | nil => rfl
  | cons c p ih =>
    have ih := ih fun c hc => hp c (List.mem_cons_of_mem _ hc)
    have hc := hp c List.mem_cons_self
    rw [quoteDoc, List.flatMap_cons, ← quoteDoc, quoteChar_eq, List.takeWhile_cons]
    by_cases hquery : c = '?'
    · subst hquery
      rw [if_neg (by decide), if_neg (by decide)]
      exact unquotePath_query _
    · rw [if_pos (decide_eq_true hquery)]
      split
      · obtain ⟨hhigh, hvalue, -⟩ := hexDigit_spec (n := c.toNat / 16) (by omega)
        obtain ⟨hlow, hvalue', -⟩ := hexDigit_spec (n := c.toNat % 16) (by omega)
        show unquotePath ('%' :: _ :: _ :: quoteDoc false p) = _
        rw [unquotePath_escape hhigh hlow, hvalue, hvalue', ih, Option.getD_some, Option.getD_some,
          Nat.div_add_mod', Char.ofNat_toNat]
      · rename_i hsafe
        rw [not_or] at hsafe
        have hfragment : c ≠ '#' := by
          rintro rfl
          exact hsafe.2 (by decide)
        have hpercent : c ≠ '%' := fun h => hsafe.1 ⟨rfl, h⟩
        show unquotePath (c :: quoteDoc false p) = _
        rw [unquotePath_plain hquery hfragment hpercent, ih]

/-- **A path** that is read and unquoted again is the path up to its first question mark. -/
theorem unquotePath_parse {p : Str} (habs : p.head? = some '/') (hp : ∀ c ∈ p, c.toNat < 256) :
    ∃ url, parse p = some url ∧ url.scheme = schemeFile ∧
      unquotePath url.doc = p.takeWhile (fun c => decide (c ≠ '?')) ∧
      (unquotePath url.doc = p ↔ '?' ∉ p) := by
  refine ⟨_, by rw [parse, if_pos habs], rfl, unquotePath_quoteDoc hp, ?_⟩
  show unquotePath (quoteDoc false p) = p ↔ _
  rw [unquotePath_quoteDoc hp, List.takeWhile_eq_self_iff]
  constructor
  · intro h hmem
    exact absurd (h _ hmem) (by decide)
  · intro h c hc
    rw [decide_eq_true_eq]
    rintro rfl
    exact h hc

theorem unquotePath_parse_sign :
    ∃ url, parse ['/', 'a', '%', '#'] = some url ∧ url.doc = ['/', 'a', '%', '2', '5', '%', '2', '3'] ∧
      unquotePath url.doc = ['/', 'a', '%', '#'] := by
  obtain ⟨url, hread, -, -, hself⟩ := unquotePath_parse (p := ['/', 'a', '%', '#']) rfl (by simp)
  refine ⟨url, hread, ?_, hself.mpr (by simp)⟩
  obtain rfl := Option.some.inj hread
  rfl

/-! ### What is read -/

theorem quoteDoc_safe {preQuoted : Bool} {p : Str} (hp : ∀ c ∈ p, c.toNat < 256) :
    ∀ c ∈ quoteDoc preQuoted p, urlpathSafe c = true := by
  intro c hc
  obtain ⟨d, hd, hc⟩ := List.mem_flatMap.mp hc
  have hbyte := hp d hd
  rw [quoteChar_eq] at hc
  split at hc
  · simp only [List.mem_cons, List.not_mem_nil, or_false] at hc
    rcases hc with rfl | rfl | rfl
    · decide
    · exact (hexDigit_spec (by omega)).2.2
    · exact (hexDigit_spec (by omega)).2.2
  · rename_i hsafe
    rw [not_or, Bool.not_eq_false] at hsafe
    rw [List.mem_singleton.mp hc]
    exact hsafe.2

theorem quoteDoc_of_safe {p : Str} (hp : ∀ c ∈ p, urlpathSafe c = true) :
    quoteDoc true p = p := by
  induction p with
  | nil => rfl
  | cons c p ih =>
    have hc : ¬ ((true = false ∧ c = '%') ∨ urlpathSafe c = false) := by
      rw [hp c List.mem_cons_self]
      simp
    rw [quoteDoc, List.flatMap_cons, quoteChar_eq, if_neg hc, ← quoteDoc,
      ih fun c hc => hp c (List.mem_cons_of_mem _ hc)]
    rfl

theorem length_pctdecode {dlen : Nat} {s out rest : Str} (h : pctdecode dlen s = some (out, rest)) :
    out.length ≤ dlen := by
  induction dlen generalizing s out rest with
  | zero =>
    rcases s with _ | ⟨c, s⟩
    · obtain ⟨rfl, -⟩ := Prod.mk.inj (Option.some.inj h)
      exact Nat.le_refl _
    · rw [pctdecode] at h
      split at h
      · obtain ⟨rfl, -⟩ := Prod.mk.inj (Option.some.inj h)
        exact Nat.le_refl _
      · cases h
  | succ dlen ih =>
    rcases s with _ | ⟨c, s⟩
    · obtain ⟨rfl, -⟩ := Prod.mk.inj (Option.some.inj h)
      exact Nat.zero_le _
    · rw [pctdecode] at h
      split at h
      · obtain ⟨rfl, -⟩ := Prod.mk.inj (Option.some.inj h)
        exact Nat.zero_le _
      · simp only at h
        split at h
        · obtain ⟨⟨out', rest'⟩, hdec, hout⟩ := Option.map_eq_some_iff.mp h
          obtain ⟨rfl, -⟩ := Prod.mk.inj hout
          exact Nat.succ_le_succ (ih hdec)
        · obtain ⟨⟨out', rest'⟩, hdec, hout⟩ := Option.map_eq_some_iff.mp h
          obtain ⟨rfl, -⟩ := Prod.mk.inj hout
          exact Nat.succ_le_succ (ih hdec)

theorem head_dropWhile {f : Char → Bool} {s : Str} : s.dropWhile f = [] ∨
    ∃ c q, s.dropWhile f = c :: q ∧ f c = false := by
  rcases h : s.dropWhile f with _ | ⟨c, q⟩
  · exact .inl rfl
  · have hne : s.dropWhile f ≠ [] := by
      rw [h]
      simp
    have hc := List.head_dropWhile_not f hne
    simp only [h, List.head_cons] at hc
    exact .inr ⟨c, q, rfl, hc⟩

theorem splitHost_spec (p : Str) : (splitHost p).1.length ≤ urlHostlen ∧ (splitHost p).2 <:+ p ∧
    ((splitHost p).2 = [] ∨ (splitHost p).2.head? = some '/' ∨
      (splitHost p).2.head? = some ':') := by
  rw [splitHost]
  split
  · rename_i host q hsplit
    rw [bracketed.eq_def] at hsplit
    split at hsplit
    · rename_i p
      split at hsplit
      · rename_i host' q' hbracket
        split at hsplit
        · rename_i hq
          obtain ⟨rfl, rfl⟩ := Prod.mk.inj (Option.some.inj hsplit)
          refine ⟨List.length_take_le _ _, ?_, hq⟩
          rw [(strchr_eq_some.mp hbracket).1]
          exact ⟨'[' :: host' ++ [']'], by simp⟩
        · cases hsplit
      · cases hsplit
    · cases hsplit
  · refine ⟨List.length_take_le _ _, List.dropWhile_suffix _, ?_⟩
    rcases head_dropWhile (f := isHostChar) (s := p) with h | ⟨c, q, h, hc⟩
    · exact .inl h
    · right
      simp only [h, List.head?_cons, Option.some.injEq]
      simp only [isHostChar, Bool.and_eq_false_iff, decide_eq_false_iff_not, Decidable.not_not] at hc
      exact hc

theorem parsePort_spec {p q : Str} {port : Nat} (h : parsePort p = some (port, q))
    (hp : p = [] ∨ p.head? = some '/' ∨ p.head? = some ':') :
    q <:+ p ∧ (q = [] ∨ q.head? = some '/') := by
  rw [parsePort.eq_def] at h
  split at h
  · rename_i p
    split at h
    · obtain ⟨-, rfl⟩ := Prod.mk.inj (Option.some.inj h)
      refine ⟨(List.dropWhile_suffix _).trans (List.suffix_cons _ _), ?_⟩
      rcases head_dropWhile (f := isPortChar) (s := p) with h | ⟨c, q, h, hc⟩
      · exact .inl h
      · right
        simp only [h, List.head?_cons, Option.some.injEq]
        simpa only [isPortChar, decide_eq_false_iff_not, Decidable.not_not] using hc
    · cases h
  · rename_i hcolon
    obtain ⟨-, rfl⟩ := Prod.mk.inj (Option.some.inj h)
    refine ⟨List.suffix_rfl, ?_⟩
    rcases hp with hp | hp | hp
    · exact .inl hp
    · exact .inr hp
    · obtain ⟨q, rfl⟩ := List.head?_eq_some_iff.mp hp
      exact absurd rfl (hcolon q)

/-- What fits in the fields of `struct url` and can be sent to a server. -/
structure WellFormed (url : Url) : Prop where
  scheme : url.scheme ∈ [schemeFile, schemeHttp, schemeHttps, schemeFtp, schemeSocks5]
  user : url.user.length ≤ urlUserlen
  pwd : url.pwd.length ≤ urlPwdlen
  host : url.host.length ≤ urlHostlen
  doc : url.doc.head? = some '/'
  safe : ∀ c ∈ url.doc, urlpathSafe c = true
  file : url.scheme = schemeFile → url = { scheme := schemeFile, doc := url.doc }

theorem head_quoteDoc {preQuoted : Bool} {p : Str} (h : p.head? = some '/') :
    (quoteDoc preQuoted p).head? = some '/' := by
  obtain ⟨p, rfl⟩ := List.head?_eq_some_iff.mp h
  have hslash : quoteChar preQuoted '/' = ['/'] := by
    cases preQuoted <;> rfl
  rw [quoteDoc, List.flatMap_cons, hslash]
  rfl

theorem wellFormed_parseHost {scheme user pwd p : Str} {url : Url}
    (h : parseHost scheme user pwd p = some url)
    (hscheme : scheme ∈ [schemeHttp, schemeHttps, schemeFtp, schemeSocks5])
    (huser : user.length ≤ urlUserlen) (hpwd : pwd.length ≤ urlPwdlen)
    (hp : ∀ c ∈ p, c.toNat < 256) : WellFormed url := by
  rw [parseHost] at h
  obtain ⟨hhost, hsuffix, hstop⟩ := splitHost_spec p
  obtain ⟨⟨port, q⟩, hport, rfl⟩ := Option.map_eq_some_iff.mp h
  obtain ⟨hsuffix', hq⟩ := parsePort_spec hport hstop
  have hdoc : (if q = [] then ['/'] else q).head? = some '/' := by
    split
    · rfl
    · rename_i hne
      exact hq.resolve_left hne
  have hbytes : ∀ c ∈ (if q = [] then ['/'] else q), c.toNat < 256 := by
    intro c hc
    split at hc
    · rw [List.mem_singleton.mp hc]
      decide
    · exact hp c ((hsuffix'.trans hsuffix).subset hc)
  refine ⟨List.mem_cons_of_mem _ hscheme, huser, hpwd, hhost, head_quoteDoc hdoc,
    quoteDoc_safe hbytes, ?_⟩
  rintro rfl
  exact absurd hscheme (by decide)

theorem wellFormed_authority {scheme s : Str} {url : Url} (h : authority scheme s = some url)
    (hscheme : scheme ∈ [schemeHttp, schemeHttps, schemeFtp, schemeSocks5])
    (hs : ∀ c ∈ s, c.toNat < 256) : WellFormed url := by
  rw [authority.eq_def] at h
  split at h
  · rename_i s
    have hs : ∀ c ∈ s, c.toNat < 256 := fun c hc => hs c (by simp [hc])
    rw [findUser] at h
    split at h
    · rename_i p hat
      obtain ⟨a, rfl, -, -⟩ := strpbrk_eq_some hat
      have hp : ∀ c ∈ p, c.toNat < 256 := fun c hc => hs c (by simp [hc])
      split at h
      · cases h
      · rename_i user q huser
        split at h
        · cases h
        · rename_i pwd rest hpwd
          exact wellFormed_parseHost h hscheme (length_pctdecode huser) (length_pctdecode hpwd) hp
      · rename_i user rest _ huser
        exact wellFormed_parseHost h hscheme (length_pctdecode huser) (Nat.zero_le _) hp
    · exact wellFormed_parseHost h hscheme (Nat.zero_le _) (Nat.zero_le _) hs
  · cases h

/-- Every location that is read fits in the fields, names a known scheme, and has a quoted
document. -/
theorem wellFormed_parse {s : Str} (hs : ∀ c ∈ s, c.toNat < 256) {url : Url}
    (h : parse s = some url) : WellFormed url := by
  have hdrop : ∀ n, ∀ c ∈ s.drop n, c.toNat < 256 := fun n c hc => hs c (List.mem_of_mem_drop hc)
  rw [parse] at h
  split_ifs at h with habs hfile hhttp hhttps hftp hsocks5
  · obtain rfl := Option.some.inj h
    exact ⟨by simp, Nat.zero_le _, Nat.zero_le _, Nat.zero_le _, head_quoteDoc habs,
      quoteDoc_safe hs, fun _ => rfl⟩
  · split at h
    · rename_i p hp
      obtain rfl := Option.some.inj h
      refine ⟨by simp, Nat.zero_le _, Nat.zero_le _, Nat.zero_le _, head_quoteDoc rfl,
        quoteDoc_safe fun c hc => hdrop 5 c ?_, fun _ => rfl⟩
      rw [hp]
      exact List.mem_cons_of_mem _ (List.mem_cons_of_mem _ hc)
    · cases h
  · exact wellFormed_authority h (by simp) (hdrop 5)
  · exact wellFormed_authority h (by simp) (hdrop 6)
  · exact wellFormed_authority h (by simp) (hdrop 4)
  · exact wellFormed_authority h (by simp) (hdrop 7)

/-- A character of the host is not cut off. -/
theorem mem_hostText {url : Url} (hurl : url.host.length ≤ urlHostlen) (defaultPort : Nat) {c : Char}
    (hc : c = ' ' ∨ c = '\n') : c ∈ hostText defaultPort url ↔ c ∈ url.host := by
  have hbracket : c ≠ '[' ∧ c ≠ ']' ∧ c ≠ ':' := by rcases hc with rfl | rfl <;> decide
  have hdigit : c ∉ Nat.toDigits 10 url.port := by
    intro hmem
    have hisDigit := Nat.isDigit_of_mem_toDigits (by decide) (by decide) hmem
    rcases hc with rfl | rfl <;> revert hisDigit <;> decide
  have hhost : ∀ {host : Str}, host.length ≤ urlHostlen + 2 → (c ∈ host ↔ c ∈ url.host) →
      ((c ∈ if url.port = 0 ∨ url.port = defaultPort then host
        else (host ++ ':' :: Nat.toDigits 10 url.port).take (urlHostlen + 6)) ↔ c ∈ url.host) := by
    intro host hlen hiff
    split
    · exact hiff
    · refine Iff.trans ⟨fun hmem => ?_, fun hmem => ?_⟩ hiff
      · rcases List.mem_append.mp (List.mem_of_mem_take hmem) with hmem | hmem
        · exact hmem
        · rcases List.mem_cons.mp hmem with rfl | hmem
          · exact absurd rfl hbracket.2.2
          · exact absurd hmem hdigit
      · rw [List.take_append, List.take_of_length_le (by omega)]
        exact List.mem_append_left _ hmem
  by_cases hcolon : ':' ∈ url.host
  · rw [hostText, if_pos hcolon]
    refine hhost (by simpa using hurl) ?_
    simp [hbracket.1, hbracket.2.1]
  · rw [hostText, if_neg hcolon]
    exact hhost (by omega) Iff.rfl

theorem mem_requestTarget {url : Url} (hurl : WellFormed url) (defaultPort : Nat) (proxied : Bool)
    {c : Char} (hc : c = ' ' ∨ c = '\n') : c ∈ requestTarget defaultPort proxied url ↔
      asksProxy proxied url = true ∧ c ∈ url.host := by
  have hdoc : c ∉ url.doc := fun hmem => by
    have hsafe := hurl.safe c hmem
    rcases hc with rfl | rfl <;> revert hsafe <;> decide
  rw [requestTarget]
  split
  · next hproxy =>
    have hscheme : c ∉ url.scheme := by
      have hall : ∀ scheme ∈ [schemeFile, schemeHttp, schemeHttps, schemeFtp, schemeSocks5],
          ' ' ∉ scheme ∧ '\n' ∉ scheme := by decide
      have hno := hall _ hurl.scheme
      rcases hc with rfl | rfl
      · exact hno.1
      · exact hno.2
    have hsign : c ≠ ':' ∧ c ≠ '/' := by rcases hc with rfl | rfl <;> decide
    simp [hproxy, hscheme, hsign.1, hsign.2, hdoc, mem_hostText hurl.host defaultPort hc]
  · next hproxy => simp [hproxy, hdoc]

/-- **The request for a location that has been read** is one line of three words, except that a
proxy is given the host as it has been read: then the line is as it should be just if there is
neither a blank nor a line end in the host. -/
theorem requestLine_words {s : Str} (hs : ∀ c ∈ s, c.toNat < 256) {url : Url}
    (h : parse s = some url) {op : Str} (hop : ' ' ∉ op ∧ '\n' ∉ op) (defaultPort : Nat)
    (proxied : Bool) :
    ((requestLine op defaultPort proxied url).splitOn ' ' =
        [op, requestTarget defaultPort proxied url,
          ['H', 'T', 'T', 'P', '/', '1', '.', '1', '\r', '\n']] ∧
      ∃ line, strchr '\n' (requestLine op defaultPort proxied url) = some (line, [])) ↔
    (asksProxy proxied url = true → ' ' ∉ url.host ∧ '\n' ∉ url.host) := by
  have hurl := wellFormed_parse hs h
  have hblank := mem_requestTarget hurl defaultPort proxied (Or.inl rfl)
  have hnewline := mem_requestTarget hurl defaultPort proxied (Or.inr rfl)
  have htarget : (asksProxy proxied url = true → ' ' ∉ url.host ∧ '\n' ∉ url.host) ↔
      ' ' ∉ requestTarget defaultPort proxied url ∧
        '\n' ∉ requestTarget defaultPort proxied url := by
    rw [hblank, hnewline]
    tauto
  rw [htarget, requestLine]
  generalize requestTarget defaultPort proxied url = target
  constructor
  · rintro ⟨hwords, line, hline⟩
    constructor
    · intro hmem
      -- the second word ends at the first blank of the target
      obtain ⟨a, b, rfl, ha⟩ := List.eq_append_cons_of_mem hmem
      rw [List.append_assoc, List.cons_append, List.splitOn_append_cons_self,
        List.splitOn_append_cons_self, List.splitOn_eq_singleton hop.1,
        List.splitOn_eq_singleton ha] at hwords
      have hfirst := (List.cons.inj (List.cons.inj hwords).2).1
      simp at hfirst
    · rw [strchr_eq_some] at hline
      have hfront : op ++ ' ' :: (target ++ ' ' :: ['H', 'T', 'T', 'P', '/', '1', '.', '1', '\r']) =
          line := by
        refine List.append_cancel_right (?_ : _ ++ ['\n'] = line ++ ['\n'])
        rw [← hline.1]
        simp
      rw [← hfront] at hline
      simp only [List.mem_append, List.mem_cons, not_or] at hline
      exact hline.2.2.2.1
  · rintro ⟨hblank, hnewline⟩
    constructor
    · rw [List.splitOn_append_cons_self, List.splitOn_append_cons_self,
        List.splitOn_eq_singleton hop.1, List.splitOn_eq_singleton hblank]
      rfl
    · refine ⟨op ++ ' ' :: (target ++ ' ' :: ['H', 'T', 'T', 'P', '/', '1', '.', '1', '\r']), ?_⟩
      rw [strchr_eq_some]
      refine ⟨by simp, ?_⟩
      simp [hop.2, hnewline]

theorem requestLine_words_blank :
    ∃ url, parse ['h', 't', 't', 'p', ':', '/', '/', 'h', '/', 'a', ' ', 'b', '\n', 'c'] = some url ∧
      (requestLine ['G', 'E', 'T'] 80 true url).splitOn ' ' = [['G', 'E', 'T'],
        ['h', 't', 't', 'p', ':', '/', '/', 'h', '/', 'a', '%', '2', '0', 'b', '%', '0', 'a', 'c'],
        ['H', 'T', 'T', 'P', '/', '1', '.', '1', '\r', '\n']] := by
  have hread : parse ['h', 't', 't', 'p', ':', '/', '/', 'h', '/', 'a', ' ', 'b', '\n', 'c'] =
      some ⟨schemeHttp, [], [], ['h'], 0, ['/', 'a', '%', '2', '0', 'b', '%', '0', 'a', 'c']⟩ := rfl
  exact ⟨_, hread, ((requestLine_words (by simp) hread (by simp) 80 true).mpr (by simp)).1⟩

/-! ### What is written -/

/-- A text that stands for itself between `//` and `@`. -/
def Bare (s : Str) : Prop := ∀ c ∈ s, c ≠ '/' ∧ c ≠ '@' ∧ c ≠ ':' ∧ c ≠ '%'

theorem pctdecode_bare {s rest : Str} {d : Char} (hs : Bare s) (hd : d = '@' ∨ d = ':')
    {dlen : Nat} (hlen : s.length ≤ dlen) :
    pctdecode dlen (s ++ d :: rest) = some (s, d :: rest) := by
  induction s generalizing dlen with
  | nil =>
    rw [List.nil_append, pctdecode.eq_def]
    simp only
    rw [if_pos hd]
  | cons c s ih =>
    obtain ⟨-, hat, hcolon, hpercent⟩ := hs c List.mem_cons_self
    obtain ⟨dlen, rfl⟩ : ∃ n, dlen = n + 1 := ⟨dlen - 1, by rw [List.length_cons] at hlen; omega⟩
    have hesc : escape (c :: (s ++ d :: rest)) = none := by
      rw [escape]
      rintro a b t h
      exact hpercent (List.cons.inj h).1
    rw [List.cons_append, pctdecode, if_neg (by simp [hat, hcolon])]
    simp only [hesc]
    rw [ih (fun c hc => hs c (List.mem_cons_of_mem _ hc)) (Nat.le_of_succ_le_succ hlen),
      Option.map_some]

theorem atoi_toDigits (n : Nat) : atoi (Nat.toDigits 10 n) = n := by
  have hfold : Nat.ofDigitChars 10 (Nat.toDigits 10 n) 0 = _ := Nat.ofDigitChars_eq_foldl
  rw [Nat.ofDigitChars_toDigits (by omega) (by omega)] at hfold
  rw [atoi]
  simpa only [Nat.mul_comm] using hfold.symm

/-- The text of a port and a document is read back. -/
theorem parsePort_append {port : Nat} {doc : Str} (hdoc : doc.head? = some '/') :
    parsePort ((if port ≠ 0 then ':' :: Nat.toDigits 10 port else []) ++ doc) = some (port, doc) := by
  obtain ⟨doc, rfl⟩ := List.head?_eq_some_iff.mp hdoc
  split
  · have hdigits : ∀ c ∈ Nat.toDigits 10 port, c.isDigit = true := fun c hc =>
      Nat.isDigit_of_mem_toDigits (by omega) (by omega) hc
    have hports : ∀ c ∈ Nat.toDigits 10 port, isPortChar c = true := by
      intro c hc
      rw [isPortChar, decide_eq_true_eq]
      rintro rfl
      exact absurd (hdigits _ hc) (by decide)
    have hslash : isPortChar '/' = false := rfl
    rw [List.cons_append, parsePort, List.takeWhile_append_of_pos hports,
      List.dropWhile_append_of_pos hports, List.takeWhile_cons, hslash, if_neg Bool.false_ne_true,
      List.append_nil, if_pos (List.all_eq_true.mpr hdigits), atoi_toDigits, List.dropWhile_cons,
      hslash, if_neg Bool.false_ne_true]
  · rename_i hzero
    rw [Decidable.not_not] at hzero
    rw [hzero]
    rfl

/-- A host that is read as it stands. -/
structure PlainHost (host : Str) : Prop where
  chars : ∀ c ∈ host, isHostChar c = true
  open_bracket : host.head? ≠ some '['
  length : host.length ≤ urlHostlen

theorem splitHost_append {host rest : Str} (h : PlainHost host)
    (hrest : rest.head? = some '/' ∨ rest.head? = some ':') :
    splitHost (host ++ rest) = (host, rest) := by
  obtain ⟨c, rest, rfl, hc, hne⟩ : ∃ c q, rest = c :: q ∧ isHostChar c = false ∧ c ≠ '[' := by
    rcases hrest with hrest | hrest
    all_goals
      obtain ⟨q, rfl⟩ := List.head?_eq_some_iff.mp hrest
      exact ⟨_, q, rfl, rfl, by decide⟩
  have hbracket : bracketed (host ++ c :: rest) = none := by
    rcases host with _ | ⟨d, host⟩
    · rw [List.nil_append, bracketed]
      rintro p hp
      exact hne (List.cons.inj hp).1
    · rw [List.cons_append, bracketed]
      rintro p hp
      exact h.open_bracket (congrArg some (List.cons.inj hp).1)
  rw [splitHost, hbracket]
  simp only
  rw [List.takeWhile_append_of_pos h.chars, List.dropWhile_append_of_pos h.chars,
    List.takeWhile_cons, List.dropWhile_cons, hc, if_neg Bool.false_ne_true,
    if_neg Bool.false_ne_true, List.append_nil, List.take_of_length_le h.length]

/-- From the host on, the text of a location is read back. -/
theorem parseHost_append {url : Url} (h : WellFormed url) (hhost : PlainHost url.host) :
    parseHost url.scheme url.user url.pwd (url.host ++
      ((if url.port ≠ 0 then ':' :: Nat.toDigits 10 url.port else []) ++ url.doc)) = some url := by
  have hrest : ((if url.port ≠ 0 then ':' :: Nat.toDigits 10 url.port else []) ++ url.doc).head? =
      some '/' ∨
      ((if url.port ≠ 0 then ':' :: Nat.toDigits 10 url.port else []) ++ url.doc).head? =
      some ':' := by
    split
    · exact .inr rfl
    · exact .inl h.doc
  have hne : url.doc ≠ [] := by
    intro hnil
    have hdoc := h.doc
    rw [hnil] at hdoc
    cases hdoc
  rw [parseHost, splitHost_append hhost hrest]
  simp only
  rw [parsePort_append h.doc, Option.map_some]
  simp only
  rw [if_neg hne, quoteDoc_of_safe h.safe]

/-- The part of a location that `find_user` reads. -/
theorem findUser_append {url : Url} (h : WellFormed url) (huser : Bare url.user)
    (hpwd : Bare url.pwd) (hhost : PlainHost url.host)
    (hat : url.user = [] → url.pwd = [] → '@' ∉ url.host) :
    findUser url.scheme (url.user ++ (if url.pwd ≠ [] then [':'] else []) ++ url.pwd ++
      (if url.user ≠ [] ∨ url.pwd ≠ [] then ['@'] else []) ++ url.host ++
      (if url.port ≠ 0 then ':' :: Nat.toDigits 10 url.port else []) ++ url.doc) = some url := by
  have hparse := parseHost_append h hhost
  have hbare : ∀ {s : Str}, Bare s → ∀ c ∈ s, c ∉ ['/', '@'] := fun hs c hc => by
    obtain ⟨hslash, hat, -, -⟩ := hs c hc
    simp [hslash, hat]
  rw [List.append_assoc, List.append_assoc _ url.host]
  by_cases hnone : url.user = [] ∧ url.pwd = []
  · -- the first slash is the one that begins the document
    obtain ⟨hu, hp⟩ := hnone
    obtain ⟨doc, hdoc⟩ := List.head?_eq_some_iff.mp h.doc
    have hfront : ∀ c ∈ url.host ++ (if url.port ≠ 0 then ':' :: Nat.toDigits 10 url.port else []),
        c ∉ ['/', '@'] := by
      intro c hc
      rcases List.mem_append.mp hc with hc | hc
      · have hchar := hhost.chars c hc
        simp only [isHostChar, Bool.and_eq_true, decide_eq_true_eq] at hchar
        have hne : c ≠ '@' := by
          rintro rfl
          exact hat hu hp hc
        simp [hchar.1, hne]
      · split at hc
        · rcases List.mem_cons.mp hc with rfl | hc
          · simp
          · have hdigit := Nat.isDigit_of_mem_toDigits (by omega) (by omega) hc
            rw [List.mem_cons, List.mem_singleton]
            rintro (rfl | rfl)
            · exact absurd hdigit (by decide)
            · exact absurd hdigit (by decide)
        · cases hc
    have hslash : strpbrk ['/', '@'] (url.host ++
        ((if url.port ≠ 0 then ':' :: Nat.toDigits 10 url.port else []) ++ url.doc)) =
          some ('/' :: doc) := by
      rw [← List.append_assoc, strpbrk_append hfront, hdoc, strpbrk, if_pos (by simp)]
    rw [hu, hp] at hparse ⊢
    simp only [ne_eq, not_true_eq_false, or_self, if_false, List.nil_append]
    rw [findUser, hslash]
    exact hparse
  · generalize url.host ++ ((if url.port ≠ 0 then ':' :: Nat.toDigits 10 url.port else []) ++
      url.doc) = tail at hparse ⊢
    have hsome : url.user ≠ [] ∨ url.pwd ≠ [] := by
      rwa [← not_and_or]
    rw [if_pos hsome, List.append_assoc, List.append_assoc, List.append_assoc]
    by_cases hp : url.pwd = []
    · rw [hp] at hparse ⊢
      rw [if_neg (by simp), List.nil_append, List.nil_append, List.singleton_append, findUser,
        strpbrk_append (hbare huser), strpbrk, if_pos (by simp)]
      simp only
      rw [pctdecode_bare huser (.inl rfl) h.user]
      exact hparse
    · have hfront : ∀ c ∈ url.user ++ ([':'] ++ url.pwd), c ∉ ['/', '@'] := by
        intro c hc
        rcases List.mem_append.mp hc with hc | hc
        · exact hbare huser c hc
        · rcases List.mem_append.mp hc with hc | hc
          · rw [List.mem_singleton.mp hc]
            decide
          · exact hbare hpwd c hc
      have hsign : strpbrk ['/', '@'] (url.user ++ ([':'] ++ (url.pwd ++ (['@'] ++ tail)))) =
          some ('@' :: tail) := by
        have hassoc : url.user ++ ([':'] ++ (url.pwd ++ (['@'] ++ tail))) =
            url.user ++ ([':'] ++ url.pwd) ++ ('@' :: tail) := by simp
        rw [hassoc, strpbrk_append hfront, strpbrk, if_pos (by simp)]
      rw [if_pos hp, findUser, hsign]
      simp only [List.singleton_append]
      rw [pctdecode_bare huser (.inr rfl) h.user]
      simp only
      rw [pctdecode_bare hpwd (.inl rfl) h.pwd]
      exact hparse

/-- A location with a port of five digits at most is written whole. -/
theorem stringify_eq {url : Url} (hport : url.port < 100000) :
    stringify url = url.scheme ++ ((if url.scheme ≠ [] then [':', '/', '/'] else []) ++
      (url.user ++ (if url.pwd ≠ [] then [':'] else []) ++ url.pwd ++
        (if url.user ≠ [] ∨ url.pwd ≠ [] then ['@'] else []) ++ url.host ++
        (if url.port ≠ 0 then ':' :: Nat.toDigits 10 url.port else []) ++ url.doc)) := by
  have hdigits : (Nat.toDigits 10 url.port).length ≤ 5 :=
    (Nat.length_toDigits_le_iff (by omega) (by omega)).mpr hport
  rw [stringify, List.take_of_length_le]
  · simp only [List.append_assoc]
  · simp only [List.length_append, ne_eq]
    split_ifs <;> simp only [List.length_cons, List.length_nil] <;> omega

/-- **A location that has been read**, written and read again, is the same, if its user and
password stand for themselves and its host is not one in brackets. -/
theorem parse_stringify {s : Str} (hs : ∀ c ∈ s, c.toNat < 256) {url : Url}
    (h : parse s = some url) (huser : Bare url.user) (hpwd : Bare url.pwd)
    (hhost : PlainHost url.host) (hat : url.user = [] → url.pwd = [] → '@' ∉ url.host)
    (hport : url.port < 100000) : parse (stringify url) = some url := by
  have hwf := wellFormed_parse hs h
  rcases List.mem_cons.mp hwf.scheme with hfile | hscheme
  · obtain ⟨doc, hdoc⟩ := List.head?_eq_some_iff.mp hwf.doc
    have hurl := hwf.file hfile
    have hsafe := hwf.safe
    rw [hdoc] at hurl hsafe
    rw [stringify_eq hport, hurl]
    show some (⟨schemeFile, [], [], [], 0, quoteDoc true ('/' :: doc)⟩ : Url) = _
    rw [quoteDoc_of_safe hsafe]
  · have hfind := findUser_append hwf huser hpwd hhost hat
    rw [stringify_eq hport]
    generalize url.user ++ (if url.pwd ≠ [] then [':'] else []) ++ url.pwd ++
      (if url.user ≠ [] ∨ url.pwd ≠ [] then ['@'] else []) ++ url.host ++
      (if url.port ≠ 0 then ':' :: Nat.toDigits 10 url.port else []) ++ url.doc = body at hfind ⊢
    simp only [List.mem_cons, List.not_mem_nil, or_false] at hscheme
    rcases hscheme with hscheme | hscheme | hscheme | hscheme
    all_goals
      rw [hscheme] at hfind ⊢
      exact hfind

theorem parse_stringify_mirror :
    let url : Url := ⟨schemeHttp, ['u'], ['p', 'w'], ['h', '.', 'o'], 8080, ['/', 'a', '%', '2', '0']⟩
    parse ['h', 't', 't', 'p', ':', '/', '/', 'u', ':', 'p', 'w', '@', 'h', '.', 'o', ':', '8', '0',
      '8', '0', '/', 'a', ' '] = some url ∧ parse (stringify url) = some url := by
  have hread : parse ['h', 't', 't', 'p', ':', '/', '/', 'u', ':', 'p', 'w', '@', 'h', '.', 'o', ':',
      '8', '0', '8', '0', '/', 'a', ' '] =
      some ⟨schemeHttp, ['u'], ['p', 'w'], ['h', '.', 'o'], 8080, ['/', 'a', '%', '2', '0']⟩ := rfl
  refine ⟨hread, parse_stringify ?_ hread ?_ ?_ ⟨?_, ?_, ?_⟩ ?_ ?_⟩
  all_goals simp [Bare, isHostChar, urlHostlen]

end Flappy.Http
