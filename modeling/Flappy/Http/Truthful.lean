/-
What a request gives when the answers are about one file.

A server gives the whole file, the bytes from a position on, or the size.  The headers say
which of these, and how much comes; the connection may be closed before.

* `Truthful`, `Arrives`, `Connect.Describes` — such answers;
* `requestLoop_hit` — the answer that ends the loop is one of them;
* `httpRequest_truthful` — the stream gives bytes of the file, from the position on that is
  reported.
-/
import Flappy.Http.Request

open CStr

namespace Flappy.Http

open Download (fetchProto)

/-! ### What the headers speak of -/

/-- What the headers say about the bytes that come. -/
structure Said where
  clength : Int := -1
  range : Option Range := none
  chunked : Bool := false
deriving DecidableEq

def Said.line (s : Said) (l : Str) : Said :=
  match hdrType l with
  | (.contentLength, p) => { s with clength := (parseLength p).getD s.clength }
  | (.contentRange, p) => { s with range := (parseRange p).or s.range }
  | (.transferEncoding, p) =>
    { s with chunked := p.map Char.toLower = ['c', 'h', 'u', 'n', 'k', 'e', 'd'] }
  | _ => s

def said (lines : List Str) : Said := lines.foldl Said.line {}

/-- Fields that come from headers that say this. -/
structure Fields.From (f : Fields) (s : Said) : Prop where
  clength : f.clength = s.clength
  chunked : f.chunked = s.chunked
  offset : f.offset = (s.range.map Range.offset).getD 0
  length : f.length = (s.range.map Range.length).getD (-1)
  size : f.size = (s.range.map Range.size).getD (-1)

theorem Fields.From.onHeader {env : Env} {url : Url} {err : Nat} {f f' : Fields} {s : Said}
    (h : f.From s) {l : Str} (hl : Http.onHeader env url err f (hdrType l) = .ok f') :
    f'.From (s.line l) := by
  rw [Said.line]
  generalize hdrType l = hdr at hl ⊢
  obtain ⟨num, p⟩ := hdr
  cases num with
  | contentLength =>
    obtain rfl := Except.ok.inj hl
    refine ⟨?_, h.chunked, h.offset, h.length, h.size⟩
    show (parseLength p).getD f.clength = (parseLength p).getD s.clength
    rw [h.clength]
  | contentRange =>
    rw [Http.onHeader] at hl
    split at hl
    · -- the last range that can be read counts
      rename_i r hr
      obtain rfl := Except.ok.inj hl
      have hrange : (parseRange p).or s.range = some r := by rw [hr, Option.some_or]
      exact ⟨h.clength, h.chunked, by simp [hrange], by simp [hrange], by simp [hrange]⟩
    · rename_i hr
      obtain rfl := Except.ok.inj hl
      have hrange : (parseRange p).or s.range = s.range := by rw [hr, Option.none_or]
      exact ⟨h.clength, h.chunked, by simp only [hrange]; exact h.offset,
        by simp only [hrange]; exact h.length, by simp only [hrange]; exact h.size⟩
  | transferEncoding =>
    obtain rfl := Except.ok.inj hl
    exact ⟨h.clength, rfl, h.offset, h.length, h.size⟩
  | location =>
    rw [Http.onHeader] at hl
    split at hl
    · obtain rfl := Except.ok.inj hl
      exact h
    · split at hl
      · obtain rfl := Except.ok.inj hl
        exact ⟨h.clength, h.chunked, h.offset, h.length, h.size⟩
      · cases hl
  | _ =>
    obtain rfl := Except.ok.inj hl
    exact ⟨h.clength, h.chunked, h.offset, h.length, h.size⟩

theorem readLines_from {env : Env} {url : Url} {err : Nat} {lines : List Str} {f f' : Fields}
    {s : Said} (h : f.From s) (hlines : readLines env url err f lines = .ok f') :
    f'.From (lines.foldl Said.line s) := by
  induction lines generalizing f s with
  | nil =>
    obtain rfl := Except.ok.inj hlines
    exact h
  | cons l lines ih =>
    rw [readLines, List.foldlM_cons] at hlines
    cases hl : onHeader env url err f (hdrType l) with
    | error e =>
      rw [hl] at hlines
      cases hlines
    | ok f₁ =>
      rw [hl] at hlines
      exact ih (h.onHeader hl) hlines

/-! ### Answers that describe a file -/

/-- An answer with these headers and this body is about the file `remote`: it gives all of it, or
bytes from a position on, or its size.  `sends` is what the server may choose to send. -/
structure Truthful (remote : Str) (sends : Nat → Str → Prop) (body : Str) (err : Nat) (s : Said) :
    Prop where
  length : err ≠ 304 → s.clength = -1 ∨ s.clength = body.length
  whole : err = 200 → s.range = none ∧ body = remote ∧ sends 0 body
  content : err = 206 → ∃ k : Nat, s.range = some ⟨k, body.length, remote.length⟩ ∧ body ≠ [] ∧
    body <+: remote.drop k ∧ sends k body
  unsatisfied : err = 416 → s.range = none ∨ s.range = some ⟨-1, 0, remote.length⟩
  unchanged : err = 304 → s.range = none

/-- What of a body comes behind the head: all of it, in chunks or not, or, if its length is known,
what was sent before the connection was closed.  If the length is not known, the body ends with
the connection. -/
inductive Arrives (body : Str) (s : Said) (rest : Str) : Str → Prop
  | whole (after : Str) (hplain : s.chunked = false) (hends : s.clength ≠ -1 ∨ s.range ≠ none)
    (hrest : rest = body ++ after) : Arrives body s rest body
  | closed (hplain : s.chunked = false) (hrest : rest <+: body)
    (hends : rest = body ∨ s.clength ≠ -1 ∨ s.range ≠ none) : Arrives body s rest rest
  | chunks (b : Body) (after : Str) (hchunked : s.chunked = true) (hdata : b.data = body)
    (hrest : rest = b.write ++ after) : Arrives body s rest body

/-- There is no connection, or none that answers, or the answer is about the file. -/
inductive Connect.Describes (remote : Str) (sends : Nat → Str → Prop) : Connect → Prop
  | failed (lastErrCode : Nat) : Describes remote sends (.failed lastErrCode)
  | broken {sock : Socket} {conn : Conn} {cached : Bool}
    (hbroken : ∀ keepAlive, (getReply sock conn keepAlive).1 = none ∨
      (getReply sock conn keepAlive).1 = some protocolError) :
    Describes remote sends (.conn sock conn cached)
  | answer {sock : Socket} {conn : Conn} {cached : Bool} (hsock : ∀ i, (sock i).isSome = true)
    (hkept : conn.Kept) (head : Head) {body rest d : Str}
    (hstream : conn.stream = head.write ++ rest)
    (htruth : Truthful remote sends body (statusLine head.status).2 (said head.lines))
    (harrives : Arrives body (said head.lines) rest d) :
    Describes remote sends (.conn sock conn cached)

/-- An answer about the file that ends the loop.  One that says that there is nothing behind the
position that was asked for is taken for an empty one. -/
structure Hit.Describes (remote : Str) (sends : Nat → Str → Prop) (args : Args) (hit : Hit)
    (err : Nat) (f : Fields) (s : Said) (body d : Str) : Prop where
  sock : ∀ i, (hit.sock i).isSome = true
  kept : hit.conn.Kept
  truth : Truthful remote sends body err s
  arrives : Arrives body s hit.conn.stream d
  fields : f.From s
  hit : hit.err = err ∧ hit.fields = f ∧
      (err = 200 ∨ err = 206 ∨ err = 304 ∨ (isError err = true ∧ err ≠ 416 ∧ args.verbose = true)) ∨
    err = 416 ∧ hit.err = 200 ∧ hit.fields = { f with offset := args.offset } ∧
      (args.offset : Int) = f.size

theorem afterHeaders_hit {args : Args} {st : St} {err : Nat} {f : Fields} {sock : Socket}
    {conn : Conn} {hit : Hit} (hrefused : refused st.needAuth args.verbose err = false)
    (h : afterHeaders args st err f sock conn = .hit hit) :
    hit.sock = sock ∧ hit.conn = conn ∧
      (hit.err = err ∧ hit.fields = f ∧
          (err = 200 ∨ err = 206 ∨ err = 304 ∨
            (isError err = true ∧ err ≠ 416 ∧ args.verbose = true)) ∨
        err = 416 ∧ hit.err = 200 ∧ hit.fields = { f with offset := args.offset } ∧
          (args.offset : Int) = f.size) := by
  rw [afterHeaders] at h
  split_ifs at h with hauth hrange hsize hfine
  · -- 416 for the end of the file is turned into 200
    obtain rfl := Turn.hit.inj h
    exact ⟨rfl, rfl, .inr ⟨hrange, rfl, rfl, hsize.1⟩⟩
  · obtain rfl := Turn.hit.inj h
    refine ⟨rfl, rfl, .inl ⟨rfl, rfl, ?_⟩⟩
    rcases hfine with hok | hpartial | hsame | herror
    · exact .inl hok
    · exact .inr (.inl hpartial)
    · exact .inr (.inr (.inl hsame))
    · -- the headers of an error are read only to show them
      refine .inr (.inr (.inr ⟨herror, hrange, ?_⟩))
      rw [refused, if_neg hauth] at hrefused
      split at hrefused
      · cases hrefused
      · have hcode : err ∉ [200, 206, 304, 301, 302, 303, 305, 307, 416] := by
          rw [isError, decide_eq_true_eq] at herror
          simp only [List.mem_cons, List.not_mem_nil, or_false]
          omega
        rw [decide_eq_true hcode, Bool.true_and, Bool.not_eq_false'] at hrefused
        exact hrefused
  · split at h <;> cases h

/-- The answer that ends the loop is one that describes the file. -/
theorem turn_hit {remote : Str} {sends : Nat → Str → Prop} {env : Env} {args : Args} {st : St}
    {c : Connect} (hc : c.Describes remote sends) {hit : Hit}
    (h : turn env args st c = .hit hit) :
    ∃ err f s body d, hit.Describes remote sends args err f s body d := by
  cases hc with
  | failed code => cases h
  | broken hbroken =>
    rename_i sock conn cached
    rw [turn] at h
    split at h
    · cases h
    · have hb := hbroken st.keepAlive
      split at h
      · split at h <;> cases h
      · rename_i err keepAlive conn' hreply
        rw [hreply] at hb
        -- a broken answer is one that has no code that could be read
        have herr : err = protocolError := hb.elim (fun h => by cases h) Option.some.inj
        rw [if_pos herr] at h
        split at h <;> cases h
  | answer hsock hkept head hstream htruth harrives =>
    rename_i sock conn cached body rest d
    -- the status line, then the headers, each takes its part of the stream
    rw [Head.write, List.append_assoc, List.cons_append] at hstream
    obtain ⟨conn₁, hreply, hstream₁, hkept₁⟩ :=
      getReply_spec hsock hkept head.line_status hstream st.keepAlive
    rw [turn] at h
    split at h
    · cases h
    · rw [hreply] at h
      simp only at h
      split at h
      · split at h <;> cases h
      · split at h
        · cases h
        · rename_i hrefused
          obtain ⟨conn₂, hheaders, hok⟩ := headers_spec env hsock st.url
            (statusLine head.status).2 head.line_lines head.line_blank hkept₁ hstream₁
            { keepAlive := st.keepAlive || (statusLine head.status).1 }
          rw [hheaders] at h
          cases hlines : readLines env st.url (statusLine head.status).2
              { keepAlive := st.keepAlive || (statusLine head.status).1 } head.lines with
          | error e =>
            rw [hlines] at h
            cases h
          | ok f =>
            rw [hlines] at h hok
            obtain ⟨hstream₂, hkept₂⟩ := hok rfl
            have hfrom := readLines_from (s := {}) ⟨rfl, rfl, rfl, rfl, rfl⟩ hlines
            rw [Bool.not_eq_true] at hrefused
            obtain ⟨hs, hcn, hhit⟩ := afterHeaders_hit hrefused h
            -- what is left of the stream is the body
            refine ⟨_, f, _, body, d, ⟨?_, ?_, htruth, ?_, hfrom, hhit⟩⟩
            · rw [hs]
              exact hsock
            · rw [hcn]
              exact hkept₂
            · rw [hcn, hstream₂]
              exact harrives

theorem requestLoop_hit {remote : Str} {sends : Nat → Str → Prop} {env : Env} {args : Args}
    {cs : List Connect} (hcs : ∀ c ∈ cs, c.Describes remote sends) {st : St} {hit : Hit}
    (h : requestLoop env args st cs = some (.hit hit)) :
    ∃ err f s body d, hit.Describes remote sends args err f s body d := by
  induction cs generalizing st with
  | nil =>
    rw [requestLoop] at h
    split at h
    · cases Option.some.inj h
    · cases h
  | cons c cs ih =>
    have hcs' : ∀ c ∈ cs, c.Describes remote sends := fun c hc => hcs c (List.mem_cons_of_mem _ hc)
    rw [requestLoop] at h
    split at h
    · cases Option.some.inj h
    · split at h
      · exact ih hcs' h
      · split at h
        · exact ih hcs' h
        · cases Option.some.inj h
      · rename_i hit' hturn
        obtain rfl := Found.hit.inj (Option.some.inj h)
        exact turn_hit (hcs c List.mem_cons_self) hturn
      · cases Option.some.inj h

/-! ### The stream -/

/-- The caller gets what has come of the body, if the length is that of the body, or is not
known. -/
theorem Arrives.read {sock : Socket} (hsock : ∀ i, (sock i).isSome = true) {conn : Conn}
    (hkept : conn.Kept) {body d : Str} {s : Said} (h : Arrives body s conn.stream d) {clength : Int}
    (hclength : (clength = -1 ∧ s.clength = -1 ∧ s.range = none) ∨ clength = body.length)
    (lens : List Nat) :
    ∃ io, readAll sock (funopen conn s.chunked clength) lens =
      some ((slices lens d).map some, io) := by
  generalize hstream : conn.stream = rest at h
  cases h with
  | whole after hplain hends hrest =>
    rcases hclength with ⟨-, hno, hnone⟩ | hlength
    · -- without a length the body would end with the connection
      exact absurd hnone (hends.resolve_left fun h => h hno)
    · have hbody : plainBody clength conn.stream = body := by
        rw [plainBody, if_neg (by omega), hlength, Int.toNat_natCast, hstream, hrest,
          List.take_left]
      obtain ⟨io, hread, -⟩ := readAll_plain hsock conn clength lens
      rw [hbody] at hread
      rw [hplain]
      exact ⟨io, hread⟩
  | closed hplain hrest =>
    -- the length is not reached, or is not known
    have hbody : plainBody clength conn.stream = d := by
      rw [plainBody, hstream]
      split
      · rfl
      · have hlength : clength = body.length := hclength.resolve_left fun h => by omega
        rw [hlength, Int.toNat_natCast, List.take_of_length_le hrest.length_le]
    obtain ⟨io, hread, -⟩ := readAll_plain hsock conn clength lens
    rw [hbody] at hread
    rw [hplain]
    exact ⟨io, hread⟩
  | chunks b after hchunked hdata hrest =>
    have hlength : 0 ≤ clength → (b.data.length : Int) ≤ clength := by
      rw [hdata]
      omega
    obtain ⟨io, hread, -⟩ := readAll_chunked hsock hkept b (hstream.trans hrest) hlength lens
    rw [hdata] at hread
    rw [hchunked]
    exact ⟨io, hread⟩

/-- If the length is zero, nothing is read of a body. -/
theorem Arrives.read_nothing {sock : Socket} (hsock : ∀ i, (sock i).isSome = true) {conn : Conn}
    (hkept : conn.Kept) {body d : Str} {s : Said} (h : Arrives body s conn.stream d)
    (lens : List Nat) :
    ∃ io, readAll sock (funopen conn s.chunked 0) lens = some ((slices lens []).map some, io) := by
  have hplain : ∃ io, readAll sock (funopen conn false 0) lens =
      some ((slices lens []).map some, io) := by
    obtain ⟨io, hread, -⟩ := readAll_plain hsock conn 0 lens
    exact ⟨io, hread⟩
  generalize hstream : conn.stream = rest at h
  cases h with
  | whole after hno => rwa [hno]
  | closed hno => rwa [hno]
  | chunks b after hchunked hdata hrest =>
    rw [hchunked]
    exact readAll_unread hsock hkept b (hstream.trans hrest) lens

/-- The stream gives the bytes `d` of the file `remote`, from the position `k` on. -/
structure Answered.Streams (remote : Str) (sends : Nat → Str → Prop) (args : Args) (a : Answered)
    (k : Nat) (d : Str) : Prop where
  size : a.size = -1 ∨ a.size = remote.length
  offset : a.offset = k
  limit : 0 < args.offset → k ≤ args.offset
  sent : (∃ body, sends k body ∧ d <+: body) ∨ (k = args.offset ∧ d = [])
  bytes : d <+: remote.drop k
  /-- If no size is reported, it is the whole file. -/
  unknown : a.size = -1 → k = 0 ∧ d = remote
  read : ∀ lens, ∃ io, readAll a.sock a.io lens = some ((slices lens d).map some, io)

/-- What the caller learns is about the file.  There is an error in the protocol only if all of the
file had been read before, or the server sends something else than what was asked for. -/
def Outcome.Describes (remote : Str) (sends : Nat → Str → Prop) (args : Args) : Outcome → Prop
  | .failed lastErrCode size =>
    lastErrCode = fetchProto → args.verbose = false →
      size = -1 ∨ size = remote.length ∧ ((0 < args.offset ∧ args.offset = remote.length) ∨
        ∃ k body, sends k body ∧ (k + body.length ≠ remote.length ∨ args.offset < k))
  | .ftp _ => True
  | .stream a => ∃ k d, a.Streams remote sends args k d

/-- The length of the body, as the stream is made with it. -/
def Hit.clength (hit : Hit) : Int :=
  if hit.fields.clength = -1 then hit.fields.length else hit.fields.clength

/-- Where the body ends, if that is known. -/
def Hit.length (hit : Hit) : Int :=
  if hit.clength ≠ -1 then offT (hit.fields.offset + hit.clength) else hit.fields.length

/-- The end of `http_request` is an error in the protocol: the two lengths differ, or the body does
not end with the file, or it starts too far behind. -/
structure Hit.Fails (args : Args) (hit : Hit) (size : Int) : Prop where
  failed : finish args hit = .failed fetchProto size
  reason : ((size = -1 ∨ (size = hit.fields.size ∧ size ≠ 0)) ∧
      ((hit.fields.clength ≠ -1 ∧ hit.fields.length ≠ -1 ∧
          hit.fields.clength ≠ hit.fields.length) ∨
        (hit.length ≠ -1 ∧ hit.fields.size ≠ -1 ∧ hit.length ≠ hit.fields.size))) ∨
    (0 < args.offset ∧ (args.offset : Int) < hit.fields.offset ∧
      (hit.fields.size = -1 ∨ size = hit.fields.size))

/-- The end of `http_request` is a stream. -/
structure Hit.Streams (args : Args) (hit : Hit) (a : Answered) : Prop where
  stream : finish args hit = .stream a
  fine : ¬ (hit.err = 304 ∨ isError hit.err = true)
  sock : a.sock = hit.sock
  io : a.io = funopen hit.conn hit.fields.chunked hit.clength
  offset : a.offset = hit.fields.offset
  size : a.size = (if hit.fields.size = -1 then hit.length else hit.fields.size)
  same : hit.fields.clength = -1 ∨ hit.fields.length = -1 ∨ hit.fields.clength = hit.fields.length
  limit : 0 < args.offset → hit.fields.offset ≤ args.offset
  keepAlive : a.keepAlive =
    (if hit.clength = -1 ∧ hit.fields.chunked = false then false else hit.fields.keepAlive)

/-- The end of `http_request`, in the order of its checks. -/
theorem finish_cases (args : Args) (hit : Hit) :
    (∃ size, hit.Fails args size) ∨
    ((hit.err = 304 ∨ isError hit.err = true) ∧
      ∃ size, finish args hit = .failed (errCategory hit.err) size) ∨
    ∃ a, hit.Streams args a := by
  have hus : (if hit.fields.size ≠ 0 then hit.fields.size else -1) = -1 ∨
      ((if hit.fields.size ≠ 0 then hit.fields.size else -1) = hit.fields.size ∧
        (if hit.fields.size ≠ 0 then hit.fields.size else -1) ≠ 0) := by
    split
    · rename_i hsize
      exact .inr ⟨rfl, hsize⟩
    · exact .inl rfl
  have hfinish := finish.eq_1 args hit
  simp only at hfinish
  rw [← Hit.clength, ← Hit.length] at hfinish
  by_cases hlengths : hit.fields.clength ≠ -1 ∧ hit.fields.length ≠ -1 ∧
      hit.fields.clength ≠ hit.fields.length
  · rw [if_pos hlengths] at hfinish
    exact .inl ⟨_, hfinish, .inl ⟨hus, .inl hlengths⟩⟩
  rw [if_neg hlengths] at hfinish
  by_cases hsizes : hit.length ≠ -1 ∧ hit.fields.size ≠ -1 ∧ hit.length ≠ hit.fields.size
  · rw [if_pos hsizes] at hfinish
    exact .inl ⟨_, hfinish, .inl ⟨hus, .inr hsizes⟩⟩
  rw [if_neg hsizes] at hfinish
  by_cases hfar : 0 < args.offset ∧ (args.offset : Int) < hit.fields.offset
  · rw [if_pos hfar] at hfinish
    refine .inl ⟨_, hfinish, .inr ⟨hfar.1, hfar.2, ?_⟩⟩
    split
    · rename_i hsize
      exact .inl hsize
    · exact .inr rfl
  rw [if_neg hfar] at hfinish
  by_cases herr : hit.err = 304 ∨ isError hit.err = true
  · rw [if_pos herr] at hfinish
    exact .inr (.inl ⟨herr, _, hfinish⟩)
  rw [if_neg herr] at hfinish
  exact .inr (.inr ⟨_, hfinish, herr, rfl, rfl, rfl, rfl, by omega, by omega, rfl⟩)

theorem Arrives.isPrefix {body d rest : Str} {s : Said} (h : Arrives body s rest d) :
    d <+: body := by
  cases h with
  | whole => exact List.prefix_refl _
  | closed hplain hrest => exact hrest
  | chunks => exact List.prefix_refl _

/-- A body that ends with the connection comes as a whole. -/
theorem Arrives.eq_of_unknown {body d rest : Str} {s : Said} (h : Arrives body s rest d)
    (hlength : s.clength = -1) (hrange : s.range = none) : d = body := by
  cases h with
  | whole => rfl
  | closed hplain hrest hends =>
    rcases hends with heq | hno | hno
    · exact heq
    · exact absurd hlength hno
    · exact absurd hrange hno
  | chunks => rfl

variable {remote : Str} {sends : Nat → Str → Prop} {args : Args} {hit : Hit} {err : Nat}
  {f : Fields} {s : Said} {body d : Str}

theorem Hit.Describes.chunked (h : hit.Describes remote sends args err f s body d) :
    hit.fields.chunked = s.chunked := by
  rw [← h.fields.chunked]
  rcases h.hit with ⟨-, hf, -⟩ | ⟨-, -, hf, -⟩ <;> rw [hf]

theorem Hit.Describes.clength (h : hit.Describes remote sends args err f s body d) :
    hit.fields.clength = s.clength := by
  rw [← h.fields.clength]
  rcases h.hit with ⟨-, hf, -⟩ | ⟨-, -, hf, -⟩ <;> rw [hf]

/-- What the answer that ends the loop is about: nothing new, an error that is shown, the whole
file, the file from a position on, or no more than its size. -/
inductive Hit.About (remote : Str) (sends : Nat → Str → Prop) (args : Args) (hit : Hit) (s : Said)
    (body : Str) : Prop
  | unchanged (hcode : hit.err = 304) (hsize : hit.fields.size = -1)
    (hoffset : hit.fields.offset = 0) (hlength : hit.fields.length = -1)
  | error (herror : isError hit.err = true) (hverbose : args.verbose = true)
  | whole (hcode : hit.err = 200) (hbody : body = remote) (hsends : sends 0 body)
    (hrange : s.range = none) (hsize : hit.fields.size = -1) (hoffset : hit.fields.offset = 0)
    (hlength : hit.fields.length = -1)
    (hclength : hit.fields.clength = -1 ∨ hit.fields.clength = body.length)
  | content (k : Nat) (hcode : hit.err = 206) (hne : body ≠ []) (hpre : body <+: remote.drop k)
    (hsends : sends k body) (hsize : hit.fields.size = remote.length)
    (hoffset : hit.fields.offset = k) (hlength : hit.fields.length = body.length)
    (hclength : hit.fields.clength = -1 ∨ hit.fields.clength = body.length)
  | nothing (hcode : hit.err = 200) (hsize : hit.fields.size = remote.length)
    (hwant : args.offset = remote.length) (hoffset : hit.fields.offset = args.offset)
    (hlength : hit.fields.length = 0)

theorem Hit.Describes.about (h : hit.Describes remote sends args err f s body d) :
    hit.About remote sends args s body := by
  have hfrom := h.fields
  have hnone : s.range = none → f.size = -1 ∧ f.offset = 0 ∧ f.length = -1 := fun hrange => by
    rw [hfrom.size, hfrom.offset, hfrom.length, hrange]
    exact ⟨rfl, rfl, rfl⟩
  have hsome : ∀ r, s.range = some r →
      f.size = r.size ∧ f.offset = r.offset ∧ f.length = r.length := fun r hrange => by
    rw [hfrom.size, hfrom.offset, hfrom.length, hrange]
    exact ⟨rfl, rfl, rfl⟩
  have hlength : err ≠ 304 → hit.fields.clength = -1 ∨ hit.fields.clength = body.length :=
    fun hne => by
      rw [h.clength]
      exact h.truth.length hne
  rcases h.hit with ⟨hcode, hfields, hkind⟩ | ⟨h416, hcode, hfields, hwant⟩
  · rw [← hcode] at hkind
    rw [← hfields] at hnone hsome
    -- the code decides what the server has to have said
    rcases hkind with hok | hpartial | hsame | ⟨herror, -, hverbose⟩
    · obtain ⟨hrange, hbody, hsends⟩ := h.truth.whole (hcode.symm.trans hok)
      obtain ⟨hsize, hoffset, hlen⟩ := hnone hrange
      exact .whole hok hbody hsends hrange hsize hoffset hlen (hlength (by omega))
    · obtain ⟨k, hrange, hne, hpre, hsends⟩ := h.truth.content (hcode.symm.trans hpartial)
      obtain ⟨hsize, hoffset, hlen⟩ := hsome _ hrange
      exact .content k hpartial hne hpre hsends hsize hoffset hlen (hlength (by omega))
    · obtain ⟨hsize, hoffset, hlen⟩ := hnone (h.truth.unchanged (hcode.symm.trans hsame))
      exact .unchanged hsame hsize hoffset hlen
    · exact .error herror hverbose
  · -- the position is set to the one that was asked for
    rcases h.truth.unsatisfied h416 with hrange | hrange
    · obtain ⟨hsize, -⟩ := hnone hrange
      omega
    · obtain ⟨hsize, -, hlen⟩ := hsome _ hrange
      simp only at hsize hlen
      exact .nothing hcode (by rw [hfields]; exact hsize) (by omega) (by rw [hfields])
        (by rw [hfields]; exact hlen)

/-- Where a body ends that starts in the file at the position `k`. -/
theorem Hit.length_of_prefix (hremote : remote.length < 9223372036854775808) {k : Nat}
    (hoffset : hit.fields.offset = k) (hclength : hit.clength = body.length)
    (hne : k = 0 ∨ body ≠ []) (hpre : body <+: remote.drop k) :
    hit.length = ((k + body.length : Nat) : Int) := by
  have hle := hpre.length_le
  rw [List.length_drop] at hle
  have hpos : k = 0 ∨ 0 < body.length := hne.imp_right List.length_pos_iff.mpr
  rw [Hit.length, if_pos (by omega), hoffset, hclength, ← Int.natCast_add]
  exact offT_of_lt (by omega)

/-- A size that is reported with an error in the protocol. -/
theorem Hit.Fails.describes {size : Int} (hfails : hit.Fails args size)
    (hremote : remote.length < 9223372036854775808) (habout : hit.About remote sends args s body)
    (hverbose : args.verbose = false) :
    size = -1 ∨ size = remote.length ∧ ((0 < args.offset ∧ args.offset = remote.length) ∨
      ∃ k body, sends k body ∧ (k + body.length ≠ remote.length ∨ args.offset < k)) := by
  have hreason := hfails.reason
  cases habout with
  | unchanged hcode hsize hoffset hlength => omega
  | error herror hverb =>
    rw [hverbose] at hverb
    cases hverb
  | whole hcode hbody hsends hrange hsize hoffset hlength hclength => omega
  | content k hcode hne hpre hsends hsize hoffset hlength hclength =>
    have hclen : hit.clength = body.length := by
      rw [Hit.clength]
      split <;> omega
    have hend := Hit.length_of_prefix hremote hoffset hclen (.inr hne) hpre
    clear hremote
    have hreport : size = -1 ∨ size = remote.length := by omega
    refine hreport.imp_right fun hsize => ⟨hsize, .inr ⟨k, body, hsends, ?_⟩⟩
    omega
  | nothing hcode hsize hwant hoffset hlength =>
    clear hremote
    by_cases hzero : args.offset = 0
    · exact .inl (by omega)
    · have hreport : size = -1 ∨ size = remote.length := by omega
      exact hreport.imp_right fun hsize => ⟨hsize, .inl ⟨by omega, hwant⟩⟩

/-- The stream of an answer that describes the file. -/
theorem Hit.Streams.describes {a : Answered} (hstreams : hit.Streams args a)
    (hremote : remote.length < 9223372036854775808)
    (h : hit.Describes remote sends args err f s body d) :
    ∃ k d, a.Streams remote sends args k d := by
  obtain ⟨-, herr, hsock, hio, hoff, hreport, hsame, hlimit, -⟩ := hstreams
  rw [h.chunked] at hio
  cases h.about with
  | unchanged hcode => exact absurd (.inl hcode) herr
  | error herror => exact absurd (.inr herror) herr
  | whole hcode hbody hsends hrange hsize hoffset hlength hclength =>
    rw [if_pos hsize] at hreport
    have hpre := h.arrives.isPrefix
    have hclen : (hit.clength = -1 ∧ s.clength = -1) ∨ hit.clength = body.length := by
      rw [Hit.clength, ← h.clength]
      split
      · rename_i hno
        exact .inl ⟨hlength, hno⟩
      · exact .inr (by omega)
    -- without a length there is no size, and then the body ends with the connection
    have hsizes : a.size = -1 ∧ hit.clength = -1 ∨ a.size = remote.length := by
      rw [hreport]
      rcases hclen with ⟨hneg, -⟩ | hclen
      · rw [Hit.length, if_neg (by omega), hlength]
        exact .inl ⟨rfl, hneg⟩
      · rw [Hit.length_of_prefix hremote hoffset hclen (.inl rfl)
          (by rw [hbody]; exact List.prefix_rfl), hbody,
          Nat.zero_add]
        exact .inr rfl
    clear hremote
    refine ⟨0, d, hsizes.imp_left And.left, hoff.trans hoffset, fun _ => Nat.zero_le _,
      .inl ⟨body, hsends, hpre⟩, ?_, fun hneg => ⟨rfl, ?_⟩, ?_⟩
    · rwa [List.drop_zero, ← hbody]
    · rw [← hbody]
      refine h.arrives.eq_of_unknown ?_ hrange
      rcases hclen with ⟨-, hno⟩ | hclen
      · exact hno
      · omega
    · rw [hsock, hio]
      exact h.arrives.read h.sock h.kept (hclen.imp_left fun hc => ⟨hc.1, hc.2, hrange⟩)
  | content k hcode hne hpre hsends hsize hoffset hlength hclength =>
    clear hremote
    rw [if_neg (by omega), hsize] at hreport
    have hclen : hit.clength = body.length := by
      rw [Hit.clength]
      split <;> omega
    refine ⟨k, d, .inr hreport, hoff.trans hoffset, fun hpos => ?_,
      .inl ⟨body, hsends, h.arrives.isPrefix⟩, h.arrives.isPrefix.trans hpre, fun hneg => ?_, ?_⟩
    · have := hlimit hpos
      omega
    · omega
    · rw [hsock, hio]
      exact h.arrives.read h.sock h.kept (.inr hclen)
  | nothing hcode hsize hwant hoffset hlength =>
    clear hremote
    rw [if_neg (by omega), hsize] at hreport
    have hclen : hit.clength = 0 := by
      rw [Hit.clength]
      split <;> omega
    refine ⟨args.offset, [], .inr hreport, hoff.trans hoffset, fun _ => Nat.le_refl _,
      .inr ⟨rfl, rfl⟩, List.nil_prefix, fun hneg => ?_, ?_⟩
    · omega
    · rw [hsock, hio, hclen]
      exact h.arrives.read_nothing h.sock h.kept

/-- **The answer that ends the loop** gives the file, or what is reported of it is true. -/
theorem finish_describes (hremote : remote.length < 9223372036854775808)
    (h : hit.Describes remote sends args err f s body d) :
    (finish args hit).Describes remote sends args := by
  rcases finish_cases args hit with ⟨size, hfails⟩ | ⟨herr, size, hfinish⟩ | ⟨a, hstreams⟩
  · rw [hfails.failed]
    exact fun _ hverbose => hfails.describes hremote h.about hverbose
  · rw [hfinish]
    intro hproto hverbose
    -- the codes of answers that are not verbose are no errors in the protocol
    exfalso
    cases h.about with
    | unchanged hcode =>
      rw [hcode] at hproto
      exact absurd hproto (by decide)
    | error herror hverb =>
      rw [hverbose] at hverb
      cases hverb
    | whole hcode =>
      rw [hcode] at herr
      exact absurd herr (by decide)
    | content k hcode =>
      rw [hcode] at herr
      exact absurd herr (by decide)
    | nothing hcode =>
      rw [hcode] at herr
      exact absurd herr (by decide)
  · rw [hstreams.stream]
    exact hstreams.describes hremote h

/-- What a request comes to, when it comes to an end, is about the file. -/
theorem httpRequest_describes (hremote : remote.length < 9223372036854775808) {env : Env}
    {cs : List Connect} (hcs : ∀ c ∈ cs, c.Describes remote sends) {o : Outcome}
    (h : httpRequest env args cs = some o) : o.Describes remote sends args := by
  rw [httpRequest] at h
  obtain ⟨found, hfound, rfl⟩ := Option.map_eq_some_iff.mp h
  cases found with
  | hit hit =>
    obtain ⟨err, f, s, body, d, h⟩ := requestLoop_hit hcs hfound
    exact finish_describes hremote h
  | ftp url => trivial
  | ouch code => exact fun _ _ => .inl rfl

/-- **A request**: if the answers are about the file `remote`, whatever the reads give, over any
number of redirections and of connections that turn out to be closed, the stream gives the bytes
of the file from the position on that is reported, and the size that is reported is the one of
the file. -/
theorem httpRequest_truthful (hremote : remote.length < 9223372036854775808) {env : Env}
    {cs : List Connect} (hcs : ∀ c ∈ cs, c.Describes remote sends)
    (hfresh : args.tries ≤ cs.countP Connect.fresh) :
    ∃ o, httpRequest env args cs = some o ∧ o.Describes remote sends args := by
  have htries : 0 < args.tries := by
    rw [Args.tries]
    split <;> omega
  have hloop : (requestLoop env args { url := args.url } cs).isSome = true :=
    requestLoop_isSome htries (by simpa using hfresh)
  obtain ⟨found, hfound⟩ := Option.isSome_iff_exists.mp hloop
  obtain ⟨o, ho⟩ : ∃ o, httpRequest env args cs = some o := ⟨_, by rw [httpRequest, hfound]; rfl⟩
  exact ⟨o, ho, httpRequest_describes hremote hcs ho⟩

theorem httpRequest_truthful_resumed :
    let remote : Str := ['h', 'e', 'l', 'l', 'o']
    let env : Env := ⟨fun _ => none, 17, false, fun _ => 0⟩
    let args : Args :=
      { url := ⟨schemeHttp, [], [], ['h'], 0, ['/']⟩, offset := 2, noredirect := true }
    let answer := "HTTP/1.1 206 OK\r\nContent-Range: bytes 2-4/5\r\n\r\nlloHTTP".toList
    ∃ o, httpRequest env args [.conn (fun _ => some 0) { wire := [] } true,
        .conn (fun i => some (i % 3)) { wire := answer } false] = some o ∧
      o.Describes remote (fun k body => k = 2 ∧ body = remote.drop 2) args := by
  intro remote env args answer
  have hsaid : said ["Content-Range: bytes 2-4/5\r".toList] = ⟨-1, some ⟨2, 3, 5⟩, false⟩ := by
    decide +kernel
  have hcode : (statusLine "HTTP/1.1 206 OK\r".toList).2 = 206 := by decide +kernel
  let head : Head := ⟨"HTTP/1.1 206 OK\r".toList, ["Content-Range: bytes 2-4/5\r".toList], ['\r'],
    by decide +kernel, by decide +kernel, by decide +kernel⟩
  refine httpRequest_truthful (by decide) (fun c hc => ?_) (by decide)
  simp only [List.mem_cons, List.not_mem_nil, or_false] at hc
  rcases hc with rfl | rfl
  · exact .broken fun _ => .inr rfl
  · have hstream : Conn.stream { wire := answer } =
        head.write ++ ['l', 'l', 'o', 'H', 'T', 'T', 'P'] := by decide +kernel
    have htruth : Truthful remote (fun k body => k = 2 ∧ body = remote.drop 2) ['l', 'l', 'o']
        (statusLine head.status).2 (said head.lines) := by
      rw [hcode, hsaid]
      exact ⟨fun _ => .inl rfl, fun h => absurd h (by decide),
        fun _ => ⟨2, rfl, by simp, ⟨[], rfl⟩, rfl, rfl⟩, fun h => absurd h (by decide),
        fun h => absurd h (by decide)⟩
    exact .answer (fun _ => rfl) (Nat.zero_le _) head hstream htruth
      (.whole ['H', 'T', 'T', 'P'] (by rw [hsaid]) (by rw [hsaid]; simp) rfl)

end Flappy.Http
