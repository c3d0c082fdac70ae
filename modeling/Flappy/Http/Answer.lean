/-
The head of an answer (`http_get_reply`, `http_next_header` and the loop over the headers in
`lib/fetch/http.c`).

The head is a line with the status, one line for each header, and an empty one.  Behind it
stands the body.

* `statusLine`, `hdrType`, `parseLength`, `parseRange` — what a line says;
* `headers_spec` — the headers, however they are cut into reads;
* `parseLength_decimal`, `parseRange_decimal` — numbers that are written are read back.
-/
import Flappy.Http.Url
import Flappy.Http.Chunked
import Mathlib.Data.List.DropRight

open CStr

namespace Flappy.Http

/-! ### The status -/

/-- `HTTP_PROTOCOL_ERROR`. -/
def protocolError : Nat := 999

/-- The version, if there is one: whether connections are persistent by default, and the text
behind it. -/
def version : Str → Option (Bool × Str)
  | '/' :: '1' :: '.' :: m :: p => if m = '0' ∨ m = '1' then some (decide (m = '1'), p) else none
  | '/' :: _ => none
  | p => some (false, p)

/-- The reply code behind the version. -/
def replyCode : Str → Option Nat
  | ' ' :: a :: b :: c :: _ =>
    if a.isDigit && b.isDigit && c.isDigit then
      some ((a.toNat - 48) * 100 + (b.toNat - 48) * 10 + (c.toNat - 48))
    else none
  | _ => none

/-- A status line: whether `keep_alive` is set, and the return value of `http_get_reply`. -/
def statusLine : Str → Bool × Nat
  | 'H' :: 'T' :: 'T' :: 'P' :: p =>
    match version p with
    | none => (false, protocolError)
    | some (persistent, p) => (persistent, (replyCode p).getD protocolError)
  | _ => (false, protocolError)

/-- `http_get_reply`; `none` is -1. -/
def getReply (sock : Socket) (conn : Conn) (keepAlive : Bool) : Option Nat × Bool × Conn :=
  match getln sock conn with
  | (none, conn) => (none, keepAlive, conn)
  | (some line, conn) =>
    (some (statusLine line).2, keepAlive || (statusLine line).1, conn)

/-- `HTTP_REDIRECT`. -/
def isRedirect (err : Nat) : Bool := decide (err ∈ [301, 302, 307, 308, 305, 303])

/-- `HTTP_ERROR`. -/
def isError (err : Nat) : Bool := decide (400 < err ∧ err < 599)

/-! ### Headers -/

/-- `hdr_t`, but for the two kinds of errors. -/
inductive Hdr where
  | last
  | unknown
  | connection
  | contentLength
  | contentRange
  | lastModified
  | location
  | transferEncoding
  | wwwAuthenticate
deriving DecidableEq

/-- `hdr_names`. -/
def hdrNames : List (Hdr × Str) :=
  [(.connection, ['C', 'o', 'n', 'n', 'e', 'c', 't', 'i', 'o', 'n']),
    (.contentLength, ['C', 'o', 'n', 't', 'e', 'n', 't', '-', 'L', 'e', 'n', 'g', 't', 'h']),
    (.contentRange, ['C', 'o', 'n', 't', 'e', 'n', 't', '-', 'R', 'a', 'n', 'g', 'e']),
    (.lastModified, ['L', 'a', 's', 't', '-', 'M', 'o', 'd', 'i', 'f', 'i', 'e', 'd']),
    (.location, ['L', 'o', 'c', 'a', 't', 'i', 'o', 'n']),
    (.transferEncoding, ['T', 'r', 'a', 'n', 's', 'f', 'e', 'r', '-', 'E', 'n', 'c', 'o', 'd', 'i',
      'n', 'g']),
    (.wwwAuthenticate, ['W', 'W', 'W', '-', 'A', 'u', 't', 'h', 'e', 'n', 't', 'i', 'c', 'a', 't',
      'e'])]

/-- The loop of `http_match`, which goes behind the first characters that differ, too: the last
character of a name is never compared. -/
def matchLoop : Str → Str → Str × Str
  | a :: str, b :: hdr => if a.toLower = b.toLower then matchLoop str hdr else (str, hdr)
  | str, hdr => (str, hdr)

/-- `http_match`. -/
def httpMatch (str hdr : Str) : Option Str :=
  match matchLoop str hdr with
  | ([], ':' :: p) => some (p.dropWhile isspace)
  | _ => none

/-- `http_next_header`, on a line. -/
def hdrType (line : Str) : Hdr × Str :=
  let line := line.rdropWhile isspace
  if line = [] then (.last, [])
  else
    (hdrNames.findSome? fun name =>
      (httpMatch name.2 (line.takeWhile fun c => decide (c ≠ '\x00'))).map fun p =>
        (name.1, p)).getD (.unknown, [])

/-- An `off_t`, if a result out of range wraps around. -/
def offT (n : Int) : Int := n.bmod 18446744073709551616

/-- A loop over decimal digits: the value, and the text behind them. -/
def scanOff (n : Int) : Str → Int × Str
  | [] => (n, [])
  | c :: p => if c.isDigit then scanOff (offT (n * 10 + (c.toNat - 48 : Nat))) p else (n, c :: p)

/-- `http_parse_length`. -/
def parseLength (p : Str) : Option Int :=
  match scanOff 0 p with
  | (len, []) => some len
  | _ => none

/-- The first and the last position of a `Content-Range`, or -1 twice. -/
def rangeBounds : Str → Option (Int × Int × Str)
  | '*' :: p => some (-1, -1, p)
  | p =>
    match scanOff 0 p with
    | (first, '-' :: p) => some (first, scanOff 0 p)
    | _ => none

/-- What `http_parse_range` sets. -/
structure Range where
  offset : Int
  length : Int
  size : Int
deriving DecidableEq

/-- `http_parse_range`. -/
def parseRange (p : Str) : Option Range :=
  if hasPrefixNoCase ['b', 'y', 't', 'e', 's', ' '] p = false then none
  else
    match rangeBounds (p.drop 6) with
    | none => none
    | some (first, last, p) =>
      match p with
      | '/' :: p =>
        match scanOff 0 p with
        | (len, []) =>
          if last < first ∨ len < offT (last - first + 1) then none
          else some ⟨first, if first = -1 then 0 else offT (last - first + 1), len⟩
        | _ => none
      | _ => none

/-- `fetchMakeURL`, for parts that come from other URLs. -/
def makeURL (scheme host : Str) (port : Nat) (doc user pwd : Str) : Option Url :=
  if 65535 < port then none else some ⟨scheme, user, pwd, host, port, doc⟩

/-- The URL that a `Location` leads to. -/
def redirected (url : Url) (p : Str) : Option Url :=
  let new :=
    if p.head? = some '/' then makeURL url.scheme url.host url.port p url.user url.pwd
    else parse p
  new.map fun new =>
    if new.user = [] ∧ new.pwd = [] then { new with user := url.user, pwd := url.pwd } else new

/-- What `http_request` keeps of the headers. -/
structure Fields where
  keepAlive : Bool := false
  clength : Int := -1
  offset : Int := 0
  length : Int := -1
  size : Int := -1
  mtime : Int := 0
  new : Option Url := none
  chunked : Bool := false

/-- What a call of `http_request` depends on besides its arguments and the connections. -/
structure Env where
  /-- `strptime` and `timegm`, in `http_parse_mtime`. -/
  parseMtime : Str → Option Int
  /-- What `fetch_syserr` makes of `errno`. -/
  syserr : Nat
  /-- `HTTP_AUTH` is set and not empty. -/
  httpAuth : Bool
  getservbyname : Str → Nat

/-- `FETCH_URL`. -/
def fetchUrl : Nat := 18

/-- The `switch` over the headers; an error is the one that is set before `ouch`. -/
def onHeader (env : Env) (url : Url) (err : Nat) (f : Fields) : Hdr × Str → Except Nat Fields
  | (.connection, p) =>
    .ok { f with
      keepAlive := p.map Char.toLower = ['k', 'e', 'e', 'p', '-', 'a', 'l', 'i', 'v', 'e'] }
  | (.contentLength, p) => .ok { f with clength := (parseLength p).getD f.clength }
  | (.contentRange, p) =>
    match parseRange p with
    | some r => .ok { f with offset := r.offset, length := r.length, size := r.size }
    | none => .ok f
  | (.lastModified, p) => .ok { f with mtime := (env.parseMtime p).getD f.mtime }
  | (.location, p) =>
    if isRedirect err = false then .ok f
    else
      match redirected url p with
      | some new => .ok { f with new := some new }
      | none => .error fetchUrl
  | (.transferEncoding, p) =>
    .ok { f with chunked := p.map Char.toLower = ['c', 'h', 'u', 'n', 'k', 'e', 'd'] }
  | _ => .ok f

/-- A turn of the loop over the headers. -/
def headersTurn (env : Env) (sock : Socket) (url : Url) (err : Nat) (s : Fields × Conn) :
    (Fields × Conn) ⊕ (Except Nat Fields × Conn) :=
  match getln sock s.2 with
  | (none, conn) => .inr (.error env.syserr, conn)
  | (some line, conn) =>
    if (hdrType line).1 = .last then .inr (.ok s.1, conn)
    else
      match onHeader env url err s.1 (hdrType line) with
      | .error e => .inr (.error e, conn)
      | .ok f => .inl (f, conn)

theorem hdrType_eq_last {line : Str} :
    (hdrType line).1 = .last ↔ line.rdropWhile isspace = [] := by
  rw [hdrType]
  split
  · rename_i hnil
    exact ⟨fun _ => hnil, fun _ => rfl⟩
  · rename_i hne
    refine ⟨fun h => ?_, fun h => absurd h hne⟩
    generalize hfound : (hdrNames.findSome? _) = found at h
    rcases found with _ | ⟨num, p⟩
    · cases h
    · obtain ⟨name, hmem, hname⟩ := List.exists_of_findSome?_eq_some hfound
      obtain ⟨p', -, hp⟩ := Option.map_eq_some_iff.mp hname
      have hnum : name.1 = .last := (Prod.mk.inj hp).1.trans h
      have hnames : ∀ name ∈ hdrNames, name.1 ≠ .last := by decide
      exact absurd hnum (hnames name hmem)

def headersMeasure (env : Env) (sock : Socket) (url : Url) (err : Nat) :
    Loop.Measure (headersTurn env sock url err) where
  size s := s.2.stream.length
  lt := by
    intro s s' h
    rw [headersTurn] at h
    split at h
    · cases h
    · rename_i line conn hread
      split_ifs at h with hlast
      split at h
      · cases h
      · obtain rfl := Sum.inl.inj h
        have hlen := length_getln hread
        have hline : line ≠ [] := by
          rintro rfl
          exact hlast (hdrType_eq_last.mpr rfl)
        have hpos := List.length_pos_iff.mpr hline
        show conn.stream.length < s.2.stream.length
        omega

/-- The loop over the headers. -/
def headers (env : Env) (sock : Socket) (url : Url) (err : Nat) (f : Fields) (conn : Conn) :
    Except Nat Fields × Conn :=
  Loop.run (headersMeasure env sock url err) (f, conn)

/-! ### The head of an answer -/

/-- The lines in front of a body. -/
structure Head where
  status : Str
  lines : List Str
  blank : Str
  line_status : '\n' ∉ status
  line_lines : ∀ l ∈ lines, '\n' ∉ l ∧ l.rdropWhile isspace ≠ []
  line_blank : '\n' ∉ blank ∧ blank.rdropWhile isspace = []

/-- Lines, and an empty one behind them. -/
def writeLines (lines : List Str) (blank : Str) : Str :=
  lines.flatMap (fun l => l ++ ['\n']) ++ (blank ++ ['\n'])

def Head.write (head : Head) : Str := head.status ++ '\n' :: writeLines head.lines head.blank

/-- What the lines of the headers say, one after the other. -/
def readLines (env : Env) (url : Url) (err : Nat) (f : Fields) (lines : List Str) :
    Except Nat Fields :=
  lines.foldlM (fun f l => onHeader env url err f (hdrType l)) f

theorem getReply_spec {sock : Socket} (hsock : ∀ i, (sock i).isSome = true) {conn : Conn}
    (hkept : conn.Kept) {status rest : Str} (hstatus : '\n' ∉ status)
    (h : conn.stream = status ++ '\n' :: rest) (keepAlive : Bool) :
    ∃ conn', getReply sock conn keepAlive =
        (some (statusLine status).2, keepAlive || (statusLine status).1, conn') ∧
      conn'.stream = rest ∧ conn'.Kept := by
  obtain ⟨conn', hread, hstream, hkept'⟩ := getln_spec hsock hkept hstatus h
  refine ⟨conn', ?_, hstream, hkept'⟩
  rw [getReply, hread]

/-- **The headers** are read line by line, and the stream goes on behind the empty line. -/
theorem headers_spec (env : Env) {sock : Socket} (hsock : ∀ i, (sock i).isSome = true) (url : Url)
    (err : Nat) {lines : List Str} (hlines : ∀ l ∈ lines, '\n' ∉ l ∧ l.rdropWhile isspace ≠ [])
    {blank : Str} (hblank : '\n' ∉ blank ∧ blank.rdropWhile isspace = []) {rest : Str}
    {conn : Conn} (hkept : conn.Kept) (h : conn.stream = writeLines lines blank ++ rest)
    (f : Fields) :
    ∃ conn', headers env sock url err f conn = (readLines env url err f lines, conn') ∧
      ((readLines env url err f lines).isOk = true → conn'.stream = rest ∧ conn'.Kept) := by
  induction lines generalizing f conn with
  | nil =>
    have hlast : conn.stream = blank ++ '\n' :: rest := by
      rw [h, writeLines]
      simp
    obtain ⟨conn', hread, hstream, hkept'⟩ := getln_spec hsock hkept hblank.1 hlast
    have hturn : headersTurn env sock url err (f, conn) = .inr (.ok f, conn') := by
      rw [headersTurn]
      simp only [hread]
      rw [if_pos (hdrType_eq_last.mpr hblank.2)]
    exact ⟨conn', Loop.run_inr hturn, fun _ => ⟨hstream, hkept'⟩⟩
  | cons l lines ih =>
    obtain ⟨hline, hword⟩ := hlines l List.mem_cons_self
    have hnext : conn.stream = l ++ '\n' :: (writeLines lines blank ++ rest) := by
      rw [h, writeLines, writeLines]
      simp
    obtain ⟨conn', hread, hstream, hkept'⟩ := getln_spec hsock hkept hline hnext
    have hnot : ¬ (hdrType l).1 = .last := fun hlast => hword (hdrType_eq_last.mp hlast)
    rw [headers, readLines, List.foldlM_cons]
    cases hf : onHeader env url err f (hdrType l) with
    | error e =>
      -- the header ends the request, wherever the connection stands
      have hturn : headersTurn env sock url err (f, conn) = .inr (.error e, conn') := by
        rw [headersTurn]
        simp only [hread]
        rw [if_neg hnot, hf]
      exact ⟨conn', Loop.run_inr hturn, fun hok => Bool.noConfusion hok⟩
    | ok f' =>
      have hturn : headersTurn env sock url err (f, conn) = .inl (f', conn') := by
        rw [headersTurn]
        simp only [hread]
        rw [if_neg hnot, hf]
      rw [Loop.run_inl hturn]
      exact ih (fun l hl => hlines l (List.mem_cons_of_mem _ hl)) hkept' hstream f'

/-! ### Numbers -/

theorem offT_of_lt {n : Nat} (h : n < 9223372036854775808) : offT (n : Int) = n := by
  rw [offT]
  exact Int.bmod_eq_of_le (by omega) (by omega)

theorem le_ofDigitChars (ds : Str) (n : Nat) : n ≤ Nat.ofDigitChars 10 ds n := by
  induction ds generalizing n with
  | nil => exact Nat.le_refl _
  | cons c ds ih =>
    rw [Nat.ofDigitChars_cons]
    have := ih (10 * n + (c.toNat - '0'.toNat))
    omega

/-- Digits are read up to the first other character. -/
theorem scanOff_digits {ds rest : Str} (hds : ∀ c ∈ ds, c.isDigit = true)
    (hrest : ∀ c ∈ rest.head?, c.isDigit = false) {n : Nat}
    (h : Nat.ofDigitChars 10 ds n < 9223372036854775808) :
    scanOff n (ds ++ rest) = (((Nat.ofDigitChars 10 ds n : Nat) : Int), rest) := by
  induction ds generalizing n with
  | nil =>
    rcases rest with _ | ⟨c, rest⟩
    · rfl
    · rw [List.nil_append, scanOff, hrest c rfl, Nat.ofDigitChars_nil]
      rfl
  | cons c ds ih =>
    rw [Nat.ofDigitChars_cons] at h ⊢
    have hle := le_ofDigitChars ds (10 * n + (c.toNat - '0'.toNat))
    have hval : offT ((n : Int) * 10 + (c.toNat - 48 : Nat)) =
        ((10 * n + (c.toNat - '0'.toNat) : Nat) : Int) := by
      have hzero : ('0' : Char).toNat = 48 := rfl
      rw [hzero] at hle ⊢
      have hcast : (n : Int) * 10 + (c.toNat - 48 : Nat) = ((10 * n + (c.toNat - 48) : Nat) : Int) := by
        omega
      rw [hcast]
      exact offT_of_lt (by rw [hzero] at h; omega)
    rw [List.cons_append, scanOff, hds c List.mem_cons_self, if_pos rfl, hval]
    exact ih (fun c hc => hds c (List.mem_cons_of_mem _ hc)) h

/-- A decimal number and what is behind it. -/
theorem scanOff_decimal {n : Nat} (h : n < 9223372036854775808) (rest : Str)
    (hrest : ∀ c ∈ rest.head?, c.isDigit = false) :
    scanOff 0 (Nat.toDigits 10 n ++ rest) = ((n : Int), rest) := by
  have hval : Nat.ofDigitChars 10 (Nat.toDigits 10 n) 0 = n := by simp
  have hlt : Nat.ofDigitChars 10 (Nat.toDigits 10 n) 0 < 9223372036854775808 := by
    rw [hval]
    exact h
  have hscan := scanOff_digits
    (fun c hc => Nat.isDigit_of_mem_toDigits (by omega) (by omega) hc) hrest hlt
  rw [hval] at hscan
  exact hscan

/-- **A length** that is written is read. -/
theorem parseLength_decimal {n : Nat} (h : n < 9223372036854775808) :
    parseLength (Nat.toDigits 10 n) = some (n : Int) := by
  have hscan := scanOff_decimal h [] (fun c hc => by cases hc)
  rw [List.append_nil] at hscan
  rw [parseLength, hscan]

/-- **A range** that is written is read. -/
theorem parseRange_decimal {first length size : Nat} (hlength : 0 < length)
    (hle : first + length ≤ size) (hsize : size < 9223372036854775808) :
    parseRange (['b', 'y', 't', 'e', 's', ' '] ++ (Nat.toDigits 10 first ++
        '-' :: (Nat.toDigits 10 (first + length - 1) ++ '/' :: Nat.toDigits 10 size))) =
      some ⟨first, length, size⟩ := by
  have hfirst := scanOff_decimal (n := first) (by omega)
    ('-' :: (Nat.toDigits 10 (first + length - 1) ++ '/' :: Nat.toDigits 10 size))
    (fun c hc => by obtain rfl := Option.some.inj hc; rfl)
  have hlast := scanOff_decimal (n := first + length - 1) (by omega)
    ('/' :: Nat.toDigits 10 size) (fun c hc => by obtain rfl := Option.some.inj hc; rfl)
  have hwhole := scanOff_decimal hsize [] (fun c hc => by cases hc)
  rw [List.append_nil] at hwhole
  have hbounds : rangeBounds (Nat.toDigits 10 first ++
      '-' :: (Nat.toDigits 10 (first + length - 1) ++ '/' :: Nat.toDigits 10 size)) =
      some ((first : Int), ((first + length - 1 : Nat) : Int), '/' :: Nat.toDigits 10 size) := by
    rw [rangeBounds]
    · rw [hfirst]
      show some ((first : Int), scanOff 0 _) = _
      rw [hlast]
    · -- a number does not begin with the star of an unsatisfied range
      intro p hp
      have hne : Nat.toDigits 10 first ≠ [] := Nat.toDigits_ne_nil
      obtain ⟨c, ds, hc⟩ := List.exists_cons_of_ne_nil hne
      have hdigit := Nat.isDigit_of_mem_toDigits (b := 10) (by omega) (by omega)
        (hc ▸ List.mem_cons_self : c ∈ Nat.toDigits 10 first)
      rw [hc, List.cons_append] at hp
      obtain ⟨rfl, -⟩ := List.cons.inj hp
      cases hdigit
  have hcount : offT (((first + length - 1 : Nat) : Int) - first + 1) = (length : Int) := by
    have hcast : ((first + length - 1 : Nat) : Int) - first + 1 = (length : Int) := by omega
    rw [hcast]
    exact offT_of_lt (by omega)
  rw [parseRange, if_neg (by simp [hasPrefixNoCase])]
  have hdrop : ∀ p : Str, (['b', 'y', 't', 'e', 's', ' '] ++ p).drop 6 = p := fun _ => rfl
  rw [hdrop, hbounds]
  simp only
  rw [hwhole]
  simp only
  rw [hcount, if_neg (by omega), if_neg (by omega)]

end Flappy.Http
