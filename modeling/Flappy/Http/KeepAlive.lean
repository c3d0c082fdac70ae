/-
Requests over one connection (`http_closefn` in `lib/fetch/http.c`).

A connection that stays open is put back when the stream is closed, and the next request asks
over it.  If the body has been read until nothing more came, the connection stands behind it.

* `readAll_plain_after`, `readAll_chunked_after` — where a body leaves the connection;
* `requests_spec` — each of the requests gets its own answer.
-/
import Flappy.Http.Truthful

open CStr

namespace Flappy.Http

variable {sock : Socket}

/-! ### Behind a body -/

theorem fillbuf_kept (hsock : ∀ i, (sock i).isSome = true) {io : Httpio}
    (hchunked : io.chunked = false) (herror : io.error = false) (heof : io.eof = false)
    (hkept : io.conn.Kept) (len : Nat) : (fillbuf sock io len).2.conn.Kept := by
  rw [fillbuf, if_neg (by simp [herror]), if_neg (by simp [heof])]
  simp only
  generalize (if io.contentlength ≥ 0 ∧ (len : Int) > io.contentlength then
    io.contentlength.toNat else len) = n
  obtain ⟨buf, conn, hread⟩ := exists_fetchRead hsock io.conn n
  rw [if_pos hchunked, fillPlain, hread]
  exact (fetchRead_spec hread).kept hkept

theorem Plain.fills_kept (hsock : ∀ i, (sock i).isSome = true) (after : Str) :
    Fills sock (fun io a => Plain after io a ∧ io.conn.Kept) fun _ => True := by
  refine ⟨fun io a len h herror heof hpos hlen => ?_,
    fun h => ⟨(Plain.fills hsock after).bufpos h.1, h.2⟩, fun _ _ => trivial⟩
  have hkept := fillbuf_kept hsock h.1.chunked herror heof h.2 len
  rcases (Plain.fills hsock after).fill io a len h.1 herror heof hpos hlen with
    ⟨buf, a', io', hfill, hne, ha, hbuf, hbufpos, he, hf, h'⟩ |
    ⟨r, io', hfill, hr, ha, hbufpos, he, h', hend⟩
  · rw [hfill] at hkept
    exact .inl ⟨buf, a', io', hfill, hne, ha, hbuf, hbufpos, he, hf, h', hkept⟩
  · rw [hfill] at hkept
    exact .inr ⟨r, io', hfill, hr, ha, hbufpos, he, ⟨h', hkept⟩, hend⟩

/-- A body whose length is known, read to its end. -/
theorem readAll_plain_after (hsock : ∀ i, (sock i).isSome = true) {conn : Conn}
    (hkept : conn.Kept) {body after : Str} (hstream : conn.stream = body ++ after)
    {lens : List Nat} (hall : body.length ≤ lens.sum) :
    ∃ io, readAll sock (funopen conn false body.length) lens =
        some ((slices lens body).map some, io) ∧ io.conn.stream = after ∧ io.conn.Kept := by
  have hplain : Plain after (funopen conn false body.length) body :=
    ⟨rfl, hstream, fun _ => Int.le_refl _, fun _ => rfl⟩
  obtain ⟨io, hread, htodo, -⟩ := readAll_spec (Plain.fills_kept hsock after) lens
    (⟨rfl, Nat.le_refl _, ⟨_, ⟨hplain, hkept⟩, rfl⟩, fun h => by cases h⟩ :
      Todo _ (funopen conn false body.length) body)
  obtain ⟨-, -, ⟨a, ⟨ha, hconn⟩, hnil⟩, -⟩ := htodo
  rw [List.drop_eq_nil_of_le hall] at hnil
  obtain ⟨-, rfl⟩ := List.append_eq_nil_iff.mp hnil.symm
  exact ⟨io, hread, ha.stream, hconn⟩

/-- A body in chunks, read until nothing more comes. -/
theorem readAll_chunked_after (hsock : ∀ i, (sock i).isSome = true) {conn : Conn}
    (hkept : conn.Kept) (b : Body) {after : Str} (hstream : conn.stream = b.write ++ after)
    {clength : Int} (hlength : 0 ≤ clength → (b.data.length : Int) ≤ clength) {lens : List Nat}
    (hall : b.data.length < lens.sum) :
    ∃ io, readAll sock (funopen conn true clength) lens =
        some ((slices lens b.data).map some, io) ∧ io.conn.stream = after ∧ io.conn.Kept := by
  have hahead : Chunked b after (funopen conn true clength) b.data :=
    ⟨rfl, hkept, hlength, fun h => Bool.noConfusion h, fun _ => ⟨[], b.chunks, rfl, rfl, by
      rw [behind, if_pos rfl, List.nil_append, ← List.append_assoc]
      exact hstream⟩⟩
  obtain ⟨io, hread, htodo, hend, -⟩ := readAll_spec (Chunked.fills hsock b after) lens
    (⟨rfl, Nat.le_refl _, ⟨_, hahead, rfl⟩, fun h => Bool.noConfusion h⟩ :
      Todo (Chunked b after) (funopen conn true clength) b.data)
  obtain ⟨-, -, ⟨a, ha, -⟩, -⟩ := htodo
  exact ⟨io, hread, hend hall, ha.kept⟩

/-! ### A request -/

/-- `http_closefn`: the connection that is put back, if it stays open. -/
def httpClosefn (keepAlive : Bool) (io : Httpio) : Option Conn :=
  if keepAlive = true then some io.conn else none

/-- A request, with the lengths that the caller reads, and the answer to it, with the bytes in
which the body comes. -/
structure Exchange where
  args : Args
  lens : List Nat
  head : Head
  body : Str
  wire : Str

/-- A request over the connection that was put back: what its caller reads, and the connection
that is put back after it. -/
def request (env : Env) (sock : Socket) (args : Args) (lens : List Nat) (conn : Conn) :
    Option (List (Option Str) × Option Conn) :=
  ((httpRequest env args [.conn sock conn true]).bind Outcome.answered).bind fun a =>
    (readAll a.sock a.io lens).map fun r => (r.1, httpClosefn a.keepAlive r.2)

/-- The end of the body can be told. -/
inductive Ends (s : Said) (body : Str) : Str → Prop
  | plain (hsaid : s = ⟨body.length, none, false⟩) : Ends s body body
  | chunks (b : Body) (hsaid : s = ⟨-1, none, true⟩) (hdata : b.data = body) : Ends s body b.write

theorem Ends.range {s : Said} {body wire : Str} (h : Ends s body wire) : s.range = none := by
  cases h with
  | plain hsaid => rw [hsaid]
  | chunks b hsaid => rw [hsaid]

/-- The body does not end with the connection. -/
theorem Ends.known {s : Said} {body wire : Str} (h : Ends s body wire) :
    ¬ (s.clength = -1 ∧ s.chunked = false) := by
  rintro ⟨hlength, hplain⟩
  cases h with
  | plain hsaid =>
    rw [hsaid] at hlength
    simp only at hlength
    omega
  | chunks b hsaid =>
    rw [hsaid] at hplain
    cases hplain

/-- A caller that reads until nothing more comes gets the body, and the connection stands behind
it. -/
theorem Ends.read (hsock : ∀ i, (sock i).isSome = true) {s : Said} {body wire : Str}
    (h : Ends s body wire) {conn : Conn} (hkept : conn.Kept) {after : Str}
    (hstream : conn.stream = wire ++ after) {lens : List Nat} (hall : body.length < lens.sum) :
    ∃ io, readAll sock (funopen conn s.chunked s.clength) lens =
        some ((slices lens body).map some, io) ∧ io.conn.stream = after ∧ io.conn.Kept := by
  cases h with
  | plain hsaid =>
    rw [hsaid]
    exact readAll_plain_after hsock hkept hstream hall.le
  | chunks b hsaid hdata =>
    subst hdata
    rw [hsaid]
    -- no length is given for a body in chunks
    exact readAll_chunked_after hsock hkept b hstream (fun h => absurd h (by decide)) hall

/-- The answer is one that leaves the connection open, and the caller reads until nothing more
comes. -/
structure Exchange.Stays (env : Env) (e : Exchange) : Prop where
  http : isFtp e.args e.args.url = false
  code : (statusLine e.head.status).2 = 200
  keep : (readLines env (withPort env e.args.url) 200
    { keepAlive := (statusLine e.head.status).1 } e.head.lines).toOption.any Fields.keepAlive = true
  ends : Ends (said e.head.lines) e.body e.wire
  all : e.body.length < e.lens.sum

/-- Its headers are read, and the answer ends the loop. -/
theorem Exchange.Stays.turn (hsock : ∀ i, (sock i).isSome = true) {env : Env} {e : Exchange}
    (h : e.Stays env) {conn : Conn} (hkept : conn.Kept) {after : Str}
    (hstream : conn.stream = e.head.write ++ (e.wire ++ after)) :
    ∃ f conn', httpRequest env e.args [.conn sock conn true] =
        some (finish e.args ⟨200, f, sock, conn'⟩) ∧
      f.From (said e.head.lines) ∧ f.keepAlive = true ∧ conn'.stream = e.wire ++ after ∧
      conn'.Kept := by
  rw [Head.write, List.append_assoc, List.cons_append] at hstream
  obtain ⟨conn₁, hreply, hstream₁, hkept₁⟩ :=
    getReply_spec hsock hkept e.head.line_status hstream false
  obtain ⟨conn₂, hheaders, hok⟩ := headers_spec env hsock (withPort env e.args.url) 200
    e.head.line_lines e.head.line_blank hkept₁ hstream₁
    { keepAlive := (statusLine e.head.status).1 }
  have hkeep := h.keep
  cases hlines : readLines env (withPort env e.args.url) 200
      { keepAlive := (statusLine e.head.status).1 } e.head.lines with
  | error code =>
    rw [hlines] at hkeep
    cases hkeep
  | ok f =>
    rw [hlines] at hkeep hok hheaders
    obtain ⟨hstream₂, hkept₂⟩ := hok rfl
    have hfrom := readLines_from (s := {}) ⟨rfl, rfl, rfl, rfl, rfl⟩ hlines
    refine ⟨f, conn₂, ?_, hfrom, hkeep, hstream₂, hkept₂⟩
    have hturn : Http.turn env e.args { url := withPort env e.args.url } (.conn sock conn true) =
        .hit ⟨200, f, sock, conn₂⟩ := by
      rw [Http.turn, if_neg (by simp), hreply, h.code]
      simp only
      have hfine : refused false e.args.verbose 200 = false := rfl
      rw [if_neg (by decide), hfine, if_neg (by decide), Bool.false_or, hheaders]
      rfl
    rw [httpRequest, requestLoop, if_neg (by rw [h.http]; decide)]
    simp only [hturn]
    rfl

/-- **A request over an open connection**: its caller gets the body, and the connection that is put
back stands behind it. -/
theorem Exchange.Stays.request (hsock : ∀ i, (sock i).isSome = true) {env : Env} {e : Exchange}
    (h : e.Stays env) {conn : Conn} (hkept : conn.Kept) {after : Str}
    (hstream : conn.stream = e.head.write ++ (e.wire ++ after)) :
    ∃ conn', Http.request env sock e.args e.lens conn =
        some ((slices e.lens e.body).map some, some conn') ∧
      conn'.stream = after ∧ conn'.Kept := by
  obtain ⟨f, conn₁, hrequest, hfrom, hkeep, hstream₁, hkept₁⟩ := h.turn hsock hkept hstream
  have hrange := h.ends.range
  have hlength : f.length = -1 := by rw [hfrom.length, hrange]; rfl
  have hsize : f.size = -1 := by rw [hfrom.size, hrange]; rfl
  have hoffset : f.offset = 0 := by rw [hfrom.offset, hrange]; rfl
  rcases finish_cases e.args ⟨200, f, sock, conn₁⟩ with ⟨size, hfails⟩ | ⟨herr, -⟩ | ⟨a, hstreams⟩
  · -- nothing is known of the file that the length could differ from
    have hreason := hfails.reason
    simp only [hlength, hsize, hoffset] at hreason
    omega
  · have hcode : (200 : Nat) = 304 ∨ isError 200 = true := herr
    exact absurd hcode (by decide)
  · have hclen : Hit.clength ⟨200, f, sock, conn₁⟩ = (said e.head.lines).clength := by
      rw [Hit.clength, ← hfrom.clength]
      simp only [hlength]
      split <;> omega
    have halive := hstreams.keepAlive
    have hio := hstreams.io
    simp only [hclen, hfrom.chunked] at halive hio
    rw [if_neg h.ends.known, hkeep] at halive
    obtain ⟨io, hread, hafter, hkept'⟩ := h.ends.read hsock hkept₁ hstream₁ h.all
    have hsame : a.sock = sock := hstreams.sock
    rw [← hio] at hread
    refine ⟨io.conn, ?_, hafter, hkept'⟩
    rw [Http.request, hrequest, hstreams.stream]
    simp only [Option.bind_some, Outcome.answered, hsame, hread, Option.map_some, httpClosefn,
      halive]
    rfl

/-! ### One request after another -/

/-- Requests over one connection, as long as it is put back; what each caller reads. -/
def requests (env : Env) (sock : Socket) :
    List (Args × List Nat) → Conn → Option (List (List (Option Str)) × Conn)
  | [], conn => some ([], conn)
  | (args, lens) :: reqs, conn =>
    (request env sock args lens conn).bind fun r => r.2.bind fun conn =>
      (requests env sock reqs conn).map fun rs => (r.1 :: rs.1, rs.2)

/-- **Requests over one connection**: each of the callers gets its own body, however the answers are
cut into reads, and nothing of one answer is taken for another. -/
theorem requests_spec (hsock : ∀ i, (sock i).isSome = true) {env : Env} (es : List Exchange)
    (hes : ∀ e ∈ es, e.Stays env) {conn : Conn} (hkept : conn.Kept) {after : Str}
    (hstream : conn.stream = es.flatMap (fun e => e.head.write ++ e.wire) ++ after) :
    ∃ conn', requests env sock (es.map fun e => (e.args, e.lens)) conn =
        some (es.map fun e => (slices e.lens e.body).map some, conn') ∧
      conn'.stream = after := by
  induction es generalizing conn with
  | nil => exact ⟨conn, rfl, hstream⟩
  | cons e es ih =>
    rw [List.flatMap_cons, List.append_assoc, List.append_assoc] at hstream
    obtain ⟨conn₁, hrequest, hstream₁, hkept₁⟩ :=
      (hes e List.mem_cons_self).request hsock hkept hstream
    obtain ⟨conn', hrequests, hafter⟩ :=
      ih (fun e he => hes e (List.mem_cons_of_mem _ he)) hkept₁ hstream₁
    refine ⟨conn', ?_, hafter⟩
    rw [List.map_cons, requests, hrequest, Option.bind_some, Option.bind_some, hrequests]
    rfl

theorem requests_spec_twice :
    let env : Env := ⟨fun _ => none, 17, false, fun _ => 0⟩
    let args (doc : Char) : Args := { url := ⟨schemeHttp, [], [], ['h'], 0, ['/', doc]⟩ }
    let wire := ("HTTP/1.1 200 OK\r\nContent-Length: 2\r\n\r\nhi" ++
      "HTTP/1.1 200 OK\r\nContent-Length: 3\r\n\r\nyouX").toList
    ∃ conn', requests env (fun i => some (i % 3)) [(args 'a', [1, 4]), (args 'b', [9])]
        { wire } = some ([[some ['h'], some ['i']], [some ['y', 'o', 'u']]], conn') ∧
      conn'.stream = ['X'] := by
  intro env args wire
  let hi : Exchange := ⟨args 'a', [1, 4], ⟨"HTTP/1.1 200 OK\r".toList,
    ["Content-Length: 2\r".toList], ['\r'], by decide +kernel, by decide +kernel,
    by decide +kernel⟩, ['h', 'i'], ['h', 'i']⟩
  let you : Exchange := ⟨args 'b', [9], ⟨"HTTP/1.1 200 OK\r".toList,
    ["Content-Length: 3\r".toList], ['\r'], by decide +kernel, by decide +kernel,
    by decide +kernel⟩, ['y', 'o', 'u'], ['y', 'o', 'u']⟩
  refine requests_spec (fun _ => rfl) [hi, you] (fun e he => ?_) (Nat.zero_le _) ?_
  · simp only [List.mem_cons, List.not_mem_nil, or_false] at he
    rcases he with rfl | rfl
    · exact ⟨rfl, by decide +kernel, by decide +kernel, .plain (by decide +kernel), by decide⟩
    · exact ⟨rfl, by decide +kernel, by decide +kernel, .plain (by decide +kernel), by decide⟩
  · decide +kernel

end Flappy.Http
