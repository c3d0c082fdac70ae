/-
A request (`http_request` in `lib/fetch/http.c`).

A turn of the loop connects, asks and reads the head of the answer.  It may lead to another
location, to the same one with a password, or, if a cached connection turns out to be closed,
to the same one again.  Then the sizes that the headers speak of are compared.

* `turn_counts` — what a turn does to the count of turns;
* `requestLoop_isSome` — the loop ends after so many connections that are not from the cache.
-/
import Flappy.Http.Answer
import Flappy.Download

open CStr

namespace Flappy.Http

open Download (fetchProto)

/-! ### The request -/

/-- `http_errlist`, which is made from `http.errors`. -/
def httpErrlist : List (Nat × Nat) :=
  [(100, 10), (101, 10), (200, 10), (201, 10), (202, 10), (203, 6), (204, 10), (205, 10), (206, 10),
    (300, 8), (301, 8), (302, 8), (303, 8), (304, 20), (305, 6), (307, 8), (308, 8), (400, 11),
    (401, 2), (402, 2), (403, 2), (404, 16), (405, 11), (406, 11), (407, 2), (408, 15), (409, 4),
    (410, 16), (411, 11), (412, 13), (413, 11), (414, 11), (415, 11), (416, 16), (417, 13),
    (500, 13), (501, 11), (502, 13), (503, 14), (504, 15), (505, 11), (999, 11)]

/-- `fetchLastErrCode`, as `http_seterr` sets it; `FETCH_UNKNOWN` behind the end of the list. -/
def errCategory (err : Nat) : Nat := (httpErrlist.lookup err).getD 17

/-- `fetch_default_port`. -/
def defaultPort (env : Env) (scheme : Str) : Nat :=
  if scheme.map Char.toLower = schemeFtp then 21
  else if scheme.map Char.toLower = schemeHttp then 80
  else if scheme.map Char.toLower = schemeHttps then 443
  else if scheme.map Char.toLower = schemeSocks5 then 1080
  else env.getservbyname scheme

/-- The arguments of `http_request`; `proxied` is that there is a proxy to ask. -/
structure Args where
  url : Url
  op : Str := ['G', 'E', 'T']
  offset : Nat := 0
  length : Nat := 0
  proxied : Bool := false
  /-- The flags `A` and `v`. -/
  noredirect : Bool := false
  verbose : Bool := false

/-- `MAX_REDIRECT`, or one without redirects. -/
def Args.tries (args : Args) : Nat := if args.noredirect then 1 else 5

/-- What a call of `http_connect` gives. -/
inductive Connect where
  | failed (lastErrCode : Nat)
  | conn (sock : Socket) (conn : Conn) (cached : Bool)

/-- What the loop keeps from one turn to the next. -/
structure St where
  i : Nat := 0
  url : Url
  needAuth : Bool := false
  keepAlive : Bool := false
  e : Nat := protocolError

/-- The answer that ends the loop. -/
structure Hit where
  err : Nat
  fields : Fields
  sock : Socket
  conn : Conn

/-- What a turn of the loop comes to: the same again, another turn, an answer, or `ouch`. -/
inductive Turn where
  | retry (st : St)
  | next (st : St)
  | hit (hit : Hit)
  | ouch (lastErrCode : Nat)

/-- The replies after which the headers are not read. -/
def refused (needAuth verbose : Bool) (err : Nat) : Bool :=
  if err = 401 then needAuth
  else if err = 407 then true
  else decide (err ∉ [200, 206, 304, 301, 302, 303, 305, 307, 416]) && !verbose

/-- A turn of the loop, behind the headers. -/
def afterHeaders (args : Args) (st : St) (err : Nat) (f : Fields) (sock : Socket) (conn : Conn) :
    Turn :=
  if err = 401 then .next { st with keepAlive := f.keepAlive, e := err, needAuth := true }
  else if err = 416 then
    if (args.offset : Int) = f.size ∧ args.length = 0 then
      .hit ⟨200, { f with offset := args.offset }, sock, conn⟩
    else .ouch (errCategory err)
  else if err = 200 ∨ err = 206 ∨ err = 304 ∨ isError err = true then .hit ⟨err, f, sock, conn⟩
  else
    match f.new with
    | none => .ouch (errCategory err)
    | some new =>
      .next { st with keepAlive := f.keepAlive, e := err, needAuth := false, url := new }

/-- A turn of the loop. -/
def turn (env : Env) (args : Args) (st : St) : Connect → Turn
  | .failed lastErrCode => .ouch lastErrCode
  | .conn sock conn cached =>
    if st.needAuth = true ∧ st.url.user = [] ∧ st.url.pwd = [] ∧ env.httpAuth = false then
      .ouch (errCategory 401)
    else
      match getReply sock conn st.keepAlive with
      | (none, keepAlive, _) =>
        if cached then .retry { st with keepAlive } else .ouch env.syserr
      | (some err, keepAlive, conn) =>
        if err = protocolError then
          if cached then .retry { st with keepAlive } else .ouch env.syserr
        else if refused st.needAuth args.verbose err = true then .ouch (errCategory err)
        else
          match headers env sock st.url err { keepAlive } conn with
          | (.error e, _) => .ouch e
          | (.ok f, conn) => afterHeaders args st err f sock conn

/-- The port that is asked. -/
def withPort (env : Env) (url : Url) : Url :=
  if url.port = 0 then { url with port := defaultPort env url.scheme } else url

/-- A location for `ftp_request`. -/
def isFtp (args : Args) (url : Url) : Bool :=
  !args.proxied && decide (url.scheme = schemeFtp) &&
    decide (args.op = ['G', 'E', 'T'] ∨ args.op = ['H', 'E', 'A', 'D'])

/-- What the loop ends with. -/
inductive Found where
  | hit (hit : Hit)
  | ftp (url : Url)
  | ouch (lastErrCode : Nat)

/-- The loop of `http_request`, over what the calls of `http_connect` give; `none` if these are
too few. -/
def requestLoop (env : Env) (args : Args) : St → List Connect → Option Found
  | st, [] => if isFtp args st.url = true then some (.ftp (withPort env st.url)) else none
  | st, c :: cs =>
    if isFtp args st.url = true then some (.ftp (withPort env st.url))
    else
      match turn env args { st with url := withPort env st.url } c with
      | .retry st => requestLoop env args st cs
      | .next st =>
        if st.i + 1 < args.tries then requestLoop env args { st with i := st.i + 1 } cs
        else some (.ouch (errCategory st.e))
      | .hit hit => some (.hit hit)
      | .ouch lastErrCode => some (.ouch lastErrCode)

/-- A stream, and what is reported with it. -/
structure Answered where
  size : Int
  mtime : Int
  offset : Int
  clength : Int
  keepAlive : Bool
  sock : Socket
  io : Httpio

/-- What `http_request` comes to; `size` is that of `struct url_stat`, which `fetchXGet` sets to
-1 before. -/
inductive Outcome where
  | failed (lastErrCode : Nat) (size : Int)
  | ftp (url : Url)
  | stream (a : Answered)

/-- The stream, if a request comes to one. -/
def Outcome.answered : Outcome → Option Answered
  | .stream a => some a
  | _ => none

/-- The end of `http_request`. -/
def finish (args : Args) (hit : Hit) : Outcome :=
  let f := hit.fields
  let us := if f.size ≠ 0 then f.size else -1
  if f.clength ≠ -1 ∧ f.length ≠ -1 ∧ f.clength ≠ f.length then .failed fetchProto us
  else
    let clength := if f.clength = -1 then f.length else f.clength
    let length := if clength ≠ -1 then offT (f.offset + clength) else f.length
    if length ≠ -1 ∧ f.size ≠ -1 ∧ length ≠ f.size then .failed fetchProto us
    else
      let size := if f.size = -1 then length else f.size
      if 0 < args.offset ∧ (args.offset : Int) < f.offset then .failed fetchProto size
      else if hit.err = 304 ∨ isError hit.err = true then .failed (errCategory hit.err) size
      else
        .stream
          { size
            mtime := f.mtime
            offset := f.offset
            clength
            keepAlive := if clength = -1 ∧ f.chunked = false then false else f.keepAlive
            sock := hit.sock
            io := funopen hit.conn f.chunked clength }

/-- `http_request`. -/
def httpRequest (env : Env) (args : Args) (cs : List Connect) : Option Outcome :=
  (requestLoop env args { url := args.url } cs).map fun
    | .hit hit => finish args hit
    | .ftp url => .ftp url
    | .ouch lastErrCode => .failed lastErrCode (-1)

/-! ### The loop -/

/-- A connection that is not from the cache, or none. -/
def Connect.fresh : Connect → Bool
  | .conn _ _ cached => !cached
  | .failed _ => true

/-- What a turn does to the count of turns: nothing.  Only one with a connection from the cache is
made again. -/
def Turn.Counts (st : St) (fresh : Bool) : Turn → Prop
  | .retry st' => st'.i = st.i ∧ fresh = false
  | .next st' => st'.i = st.i
  | .hit _ => True
  | .ouch _ => True

theorem afterHeaders_counts (args : Args) (st : St) (err : Nat) (f : Fields) (sock : Socket)
    (conn : Conn) (fresh : Bool) : (afterHeaders args st err f sock conn).Counts st fresh := by
  rw [afterHeaders]
  split_ifs
  · exact rfl
  · trivial
  · trivial
  · trivial
  · split
    · trivial
    · exact rfl

theorem turn_counts (env : Env) (args : Args) (st : St) (c : Connect) :
    (turn env args st c).Counts st c.fresh := by
  cases c with
  | failed code => trivial
  | conn sock conn cached =>
    -- a connection from the cache that was closed is made again
    have hclosed : ∀ keepAlive, (if cached = true then Turn.retry { st with keepAlive }
        else .ouch env.syserr).Counts st (Connect.conn sock conn cached).fresh := by
      intro keepAlive
      cases cached with
      | true => exact ⟨rfl, rfl⟩
      | false => trivial
    rw [turn]
    split
    · trivial
    · split
      · exact hclosed _
      · split
        · exact hclosed _
        · split
          · trivial
          · split
            · trivial
            · exact afterHeaders_counts ..

/-- **The loop ends**: of the connections that are not from the cache, it needs no more than it
has tries. -/
theorem requestLoop_isSome {env : Env} {args : Args} {cs : List Connect} {st : St}
    (hi : st.i < args.tries) (h : args.tries ≤ st.i + cs.countP Connect.fresh) :
    (requestLoop env args st cs).isSome = true := by
  induction cs generalizing st with
  | nil =>
    rw [List.countP_nil] at h
    omega
  | cons c cs ih =>
    rw [requestLoop]
    split
    · rfl
    · have hcounts := turn_counts env args { st with url := withPort env st.url } c
      split
      · rename_i st' hturn
        rw [hturn] at hcounts
        obtain ⟨hsame, hcached⟩ : st'.i = st.i ∧ c.fresh = false := hcounts
        rw [List.countP_cons_of_neg (by rw [hcached]; exact Bool.false_ne_true)] at h
        exact ih (by omega) (by omega)
      · rename_i st' hturn
        rw [hturn] at hcounts
        have hsame : st'.i = st.i := hcounts
        -- whatever the connection is, it takes one of the tries
        have hone := List.countP_le_length (p := Connect.fresh) (l := [c])
        have hsplit : (c :: cs).countP Connect.fresh =
            [c].countP Connect.fresh + cs.countP Connect.fresh := by
          rw [← List.countP_append]
          rfl
        rw [List.length_singleton] at hone
        split
        · exact ih (by simp only; omega) (by simp only; omega)
        · rfl
      · rfl
      · rfl

end Flappy.Http
