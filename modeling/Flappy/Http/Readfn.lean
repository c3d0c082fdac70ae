/-
The body of an answer (`http_readfn` and what it calls in `lib/fetch/http.c`).

A body ends with the connection, behind as many bytes as its length says, or, in chunks,
behind an empty one.  The caller asks for so many bytes, and gets them unless the body
ends before.

* `fillbuf` — the next bytes of the body into the buffer;
* `readfn` — a call, which fills the buffer as often as it has to;
* `readfn_spec`, `readAll_spec` — calls, whatever `fillbuf` gives at a time;
* `readAll_plain` — a body that is not in chunks.
-/
import Flappy.Http.Conn
import Flappy.Lib.Strto

open CStr

namespace Flappy.Http

/-- `struct httpio`; `buflen` is the length of `buf`. -/
structure Httpio where
  conn : Conn
  chunked : Bool
  contentlength : Int
  buf : Str := []
  bufpos : Nat := 0
  eof : Bool := false
  error : Bool := false
  chunksize : Nat := 0

/-- A `size_t` as an `int`. -/
def toInt (n : Nat) : Int :=
  if n % 4294967296 < 2147483648 then (n % 4294967296 : Nat)
  else (n % 4294967296 : Nat) - 4294967296

/-- The loop of `http_new_chunk`: the size, and whether only digits stood in front of its end. -/
def scanSize (chunksize : Nat) : Str → Nat × Bool
  | [] => (chunksize, true)
  | c :: p =>
    if c = '\x00' ∨ isspace c = true ∨ c = ';' then (chunksize, true)
    else if isDigitOf 16 c = false then (chunksize, false)
    else scanSize ((chunksize * 16 + (digitValue c).getD 0) % 18446744073709551616) p

/-- `http_new_chunk`. -/
def newChunk (sock : Socket) (io : Httpio) : Int × Httpio :=
  match getln sock io.conn with
  | (none, conn) => (-1, { io with conn })
  | (some line, conn) =>
    if line.length < 2 ∨ line.head?.any (isDigitOf 16) = false then (-1, { io with conn })
    else
      match scanSize io.chunksize line with
      | (chunksize, false) => (-1, { io with conn, chunksize })
      | (chunksize, true) => (toInt chunksize, { io with conn, chunksize })

/-- The line end behind a chunk.  Where nothing comes, what is compared is not known; it is
taken for something else. -/
def readEndl (sock : Socket) (conn : Conn) : Bool × Conn :=
  match fetchRead sock conn 2 with
  | (none, conn) => (false, conn)
  | (some endl, conn) =>
    if endl.length = 1 then
      match fetchRead sock conn 1 with
      | (none, conn) => (false, conn)
      | (some endl', conn) => (decide (endl ++ endl' = ['\r', '\n']), conn)
    else (decide (endl = ['\r', '\n']), conn)

/-- The end of `http_fillbuf`, in a chunk.  If its line end is not there, `bufpos` stays. -/
def fillChunk (sock : Socket) (io : Httpio) (len : Nat) : Int × Httpio :=
  match fetchRead sock io.conn (min len io.chunksize) with
  | (none, conn) => (-1, { io with conn, error := true })
  | (some buf, conn) =>
    let io := { io with
      conn, buf
      chunksize := io.chunksize - buf.length
      contentlength := if io.contentlength ≥ 0 then io.contentlength - buf.length
        else io.contentlength }
    if io.chunksize = 0 then
      match readEndl sock io.conn with
      | (false, conn) => (-1, { io with conn })
      | (true, conn) => (buf.length, { io with conn, bufpos := 0 })
    else (buf.length, { io with bufpos := 0 })

/-- `http_fillbuf`, without chunks. -/
def fillPlain (sock : Socket) (io : Httpio) (len : Nat) : Int × Httpio :=
  match fetchRead sock io.conn len with
  | (none, conn) => (-1, { io with conn, error := true })
  | (some buf, conn) =>
    (buf.length, { io with
      conn, buf
      contentlength := if io.contentlength ≠ 0 then io.contentlength - buf.length
        else io.contentlength
      bufpos := 0 })

/-- `http_fillbuf`. -/
def fillbuf (sock : Socket) (io : Httpio) (len : Nat) : Int × Httpio :=
  if io.error then (-1, io)
  else if io.eof then (0, io)
  else
    let len := if io.contentlength ≥ 0 ∧ (len : Int) > io.contentlength then
      io.contentlength.toNat else len
    if io.chunked = false then fillPlain sock io len
    else if io.chunksize = 0 then
      let (r, io) := newChunk sock io
      if r = -1 then (-1, { io with error := true })
      else if r = 0 then
        let (line, conn) := getln sock io.conn
        (if line.isNone then -1 else 0, { io with eof := true, conn })
      else fillChunk sock io len
    else fillChunk sock io len

/-- Bytes go from the buffer to the caller; a position behind the buffer is an access outside
it. -/
def give (out : Str) (len : Nat) (io : Httpio) :
    (Str × Nat × Httpio) ⊕ Option (Str × Httpio) :=
  if io.buf.length ≤ io.bufpos then .inr none
  else
    let l := min len (io.buf.length - io.bufpos)
    .inl (out ++ (io.buf.drop io.bufpos).take l, len - l, { io with bufpos := io.bufpos + l })

/-- A turn of the loop of `http_readfn`: what the caller has got, and what it still wants. -/
def readTurn (sock : Socket) (s : Str × Nat × Httpio) :
    (Str × Nat × Httpio) ⊕ Option (Str × Httpio) :=
  if s.2.1 = 0 then .inr (some (s.1, s.2.2))
  else if s.2.2.bufpos = s.2.2.buf.length then
    let filled := fillbuf sock s.2.2 s.2.1
    if filled.1 < 1 then .inr (some (s.1, filled.2)) else give s.1 s.2.1 filled.2
  else give s.1 s.2.1 s.2.2

theorem length_give {out : Str} {len : Nat} {io : Httpio} {s' : Str × Nat × Httpio}
    (hlen : len ≠ 0) (h : give out len io = .inl s') : s'.2.1 < len := by
  rw [give] at h
  split at h
  · cases h
  · obtain rfl := Sum.inl.inj h
    show len - min len (io.buf.length - io.bufpos) < len
    omega

def readMeasure (sock : Socket) : Loop.Measure (readTurn sock) where
  size s := s.2.1
  lt := by
    intro s s' h
    simp only [readTurn] at h
    split_ifs at h with hlen hempty hfilled
    · exact length_give hlen h
    · exact length_give hlen h

/-- `http_readfn`: `some none` is -1, and `none` an access outside the buffer. -/
def readfn (sock : Socket) (io : Httpio) (len : Nat) : Option (Option Str × Httpio) :=
  if io.error then some (none, io)
  else if io.eof then some (some [], io)
  else
    (Loop.run (readMeasure sock) ([], len, io)).map fun r =>
      (if r.1 = [] ∧ r.2.error = true then none else some r.1, r.2)

/-- `http_funopen`. -/
def funopen (conn : Conn) (chunked : Bool) (clength : Int) : Httpio :=
  { conn, chunked, contentlength := clength }

/-- A caller that reads again and again, so many bytes each time; what it gets. -/
def readAll (sock : Socket) (io : Httpio) : List Nat → Option (List (Option Str) × Httpio)
  | [] => some ([], io)
  | len :: lens =>
    (readfn sock io len).bind fun r =>
      (readAll sock r.2 lens).map fun rs => (r.1 :: rs.1, rs.2)

/-- A text cut into pieces of given lengths, the last ones shorter or empty. -/
def slices : List Nat → Str → List Str
  | [], _ => []
  | len :: lens, body => body.take len :: slices lens (body.drop len)

/-! ### A call -/

variable {sock : Socket} {A : Httpio → Str → Prop} {E : Httpio → Prop}

/-- What a call of `fillbuf` has to do when the bytes still ahead are `a`: it gives the first of
them, or there are none and the body has ended. -/
structure Fills (sock : Socket) (A : Httpio → Str → Prop) (E : Httpio → Prop) : Prop where
  fill : ∀ (io : Httpio) (a : Str) (len : Nat), A io a → io.error = false → io.eof = false →
    io.bufpos = io.buf.length → 0 < len →
    (∃ buf a' io', fillbuf sock io len = ((buf.length : Int), io') ∧ buf ≠ [] ∧ a = buf ++ a' ∧
      io'.buf = buf ∧ io'.bufpos = 0 ∧ io'.error = false ∧ io'.eof = false ∧ A io' a') ∨
    (∃ r io', fillbuf sock io len = (r, io') ∧ r < 1 ∧ a = [] ∧ io'.bufpos = io'.buf.length ∧
      io'.error = false ∧ A io' [] ∧ E io')
  bufpos : ∀ {io a p}, A io a → A { io with bufpos := p } a
  ended : ∀ {io a}, A io a → io.eof = true → E io

/-- What the caller has still to get: what is in the buffer, and what is ahead. -/
structure Todo (A : Httpio → Str → Prop) (io : Httpio) (todo : Str) : Prop where
  error : io.error = false
  pos : io.bufpos ≤ io.buf.length
  ahead : ∃ a, A io a ∧ todo = io.buf.drop io.bufpos ++ a
  eof : io.eof = true → todo = []

theorem give_spec (hfills : Fills sock A E) {todo : Str} {io : Httpio} (h : Todo A io todo)
    (hlt : io.bufpos < io.buf.length) (out : Str) (len : Nat) :
    ∃ l io', give out len io = .inl (out ++ todo.take l, len - l, io') ∧ l ≤ len ∧
      l ≤ todo.length ∧ Todo A io' (todo.drop l) := by
  obtain ⟨herror, hle, ⟨a, ha, htodo⟩, heof⟩ := h
  have hl : min len (io.buf.length - io.bufpos) ≤ (io.buf.drop io.bufpos).length := by
    rw [List.length_drop]
    exact Nat.min_le_right _ _
  refine ⟨min len (io.buf.length - io.bufpos),
    { io with bufpos := io.bufpos + min len (io.buf.length - io.bufpos) }, ?_, Nat.min_le_left _ _,
    ?_, herror, ?_, ⟨a, hfills.bufpos ha, ?_⟩, ?_⟩
  · rw [give, if_neg (by omega), htodo, List.take_append_of_le_length hl]
  · rw [htodo, List.length_append]
    omega
  · show io.bufpos + min len (io.buf.length - io.bufpos) ≤ io.buf.length
    omega
  · rw [htodo, List.drop_append_of_le_length hl, List.drop_drop]
  · intro he
    rw [heof he, List.drop_nil]

/-- What a turn of the loop keeps: with what has been given already, the caller gets the first
`len` bytes of `todo`. -/
structure Reading (A : Httpio → Str → Prop) (todo : Str) (len : Nat) (s : Str × Nat × Httpio)
    (rest : Str) : Prop where
  ahead : Todo A s.2.2 rest
  length : s.1.length + s.2.1 = len
  take : s.1 ++ rest.take s.2.1 = todo.take len
  drop : rest.drop s.2.1 = todo.drop len

/-- What the end of a turn has come to. -/
def Read (A : Httpio → Str → Prop) (E : Httpio → Prop) (todo : Str) (len : Nat) :
    (Str × Nat × Httpio) ⊕ Option (Str × Httpio) → Prop
  | .inl s => ∃ rest, Reading A todo len s rest
  | .inr r => ∃ io, r = some (todo.take len, io) ∧ Todo A io (todo.drop len) ∧
      (todo.length < len → E io)

theorem Reading.give (hfills : Fills sock A E) {todo out rest : Str} {len len' : Nat}
    {io io' : Httpio} (h : Reading A todo len (out, len', io) rest) (hio : Todo A io' rest)
    (hlt : io'.bufpos < io'.buf.length) : Read A E todo len (give out len' io') := by
  obtain ⟨-, hlength, htake, hdrop⟩ := h
  obtain ⟨l, io'', hgive, hl, hle, htodo⟩ := give_spec hfills hio hlt out len'
  rw [hgive]
  refine ⟨_, htodo, ?_, ?_, ?_⟩
  · show (out ++ rest.take l).length + (len' - l) = len
    rw [List.length_append, List.length_take, ← hlength]
    simp only
    omega
  · show out ++ rest.take l ++ (rest.drop l).take (len' - l) = todo.take len
    rw [← htake, List.append_assoc, ← List.take_add, Nat.add_sub_cancel' hl]
  · show (rest.drop l).drop (len' - l) = todo.drop len
    rw [List.drop_drop, Nat.add_sub_cancel' hl]
    exact hdrop

theorem Reading.end {todo out : Str} {len len' : Nat} {io io' : Httpio}
    (h : Reading A todo len (out, len', io) []) (hio : Todo A io' []) (hend : E io') :
    Read A E todo len (.inr (some (out, io'))) := by
  obtain ⟨-, -, htake, hdrop⟩ := h
  rw [List.take_nil, List.append_nil] at htake
  rw [List.drop_nil] at hdrop
  simp only at htake
  exact ⟨io', by rw [htake], hdrop ▸ hio, fun _ => hend⟩

theorem read_turn (hfills : Fills sock A E) {todo rest : Str} {len : Nat}
    {s : Str × Nat × Httpio} (h : Reading A todo len s rest) :
    Read A E todo len (readTurn sock s) := by
  obtain ⟨out, len', io⟩ := s
  have htodo := h.ahead
  obtain ⟨herror, hle, ⟨a, ha, hrest⟩, heof⟩ := id htodo
  simp only at herror hle ha hrest heof
  rw [readTurn]
  simp only
  split
  · rename_i hzero
    -- the caller's buffer is full
    subst hzero
    obtain ⟨htodo, hlength, htake, hdrop⟩ := h
    simp only [List.take_zero, List.append_nil, List.drop_zero, Nat.add_zero] at htake hdrop hlength
    refine ⟨io, by rw [htake], hdrop ▸ htodo, fun hlt => ?_⟩
    rw [htake, List.length_take] at hlength
    omega
  · rename_i hzero
    split
    · rename_i hempty
      -- nothing is left in the buffer: it is filled, or the end has come
      rw [hempty, List.drop_length, List.nil_append] at hrest
      subst hrest
      rcases hend : io.eof with _ | _
      · rcases hfills.fill io rest len' ha herror hend hempty (by omega) with
          ⟨buf, a', io', hfill, hbuf, rfl, hb, hp, he, hf, ha'⟩ |
          ⟨r, io', hfill, hr, rfl, hp, he, ha', hend'⟩
        · have hbuf := List.length_pos_iff.mpr hbuf
          have hlt : io'.bufpos < io'.buf.length := by
            rw [hp, hb]
            exact hbuf
          rw [hfill, if_neg (by simp only; omega)]
          refine h.give hfills ⟨he, hlt.le, ⟨a', ha', ?_⟩, fun h => ?_⟩ hlt
          · rw [hp, hb, List.drop_zero]
          · rw [hf] at h
            cases h
        · rw [hfill, if_pos hr]
          refine h.end ⟨he, hp.le, ⟨[], ha', ?_⟩, fun _ => rfl⟩ hend'
          rw [hp, List.drop_length, List.nil_append]
      · obtain rfl := heof hend
        have hfill : fillbuf sock io len' = (0, io) := by
          rw [fillbuf, if_neg (by rw [herror]; simp), if_pos hend]
        rw [hfill, if_pos Int.zero_lt_one]
        exact h.end htodo (hfills.ended ha hend)
    · -- bytes of an earlier fill are given first
      exact h.give hfills htodo (by omega)

/-- **A call** gives as many bytes as were asked for, or all there are. -/
theorem readfn_spec (hfills : Fills sock A E) {io : Httpio} {todo : Str} (h : Todo A io todo)
    (len : Nat) :
    ∃ io', readfn sock io len = some (some (todo.take len), io') ∧ Todo A io' (todo.drop len) ∧
      (todo.length < len → E io') := by
  rw [readfn, if_neg (by rw [h.error]; simp)]
  split
  · rename_i heof
    obtain ⟨a, ha, -⟩ := h.ahead
    obtain rfl := h.eof heof
    exact ⟨io, by rw [List.take_nil], by rw [List.drop_nil]; exact h, fun _ => hfills.ended ha heof⟩
  · have hread : Read A E todo len (.inr (Loop.run (readMeasure sock) ([], len, io))) := by
      refine Loop.run_induction (P := fun s => ∃ rest, Reading A todo len s rest)
        (Q := fun r => Read A E todo len (.inr r)) (fun s s' hs hturn => ?_)
        (fun s r hs hturn => ?_) ⟨todo, h, Nat.zero_add len, rfl, rfl⟩
      · obtain ⟨rest, hs⟩ := hs
        have hread := read_turn hfills hs
        rw [hturn] at hread
        exact hread
      · obtain ⟨rest, hs⟩ := hs
        have hread := read_turn hfills hs
        rw [hturn] at hread
        exact hread
    obtain ⟨io', hr, htodo, hend⟩ := hread
    refine ⟨io', ?_, htodo, hend⟩
    rw [hr, Option.map_some, if_neg (by rw [htodo.error]; simp)]

/-- A call that asks for nothing. -/
theorem readfn_zero {io : Httpio} (h : io.error = false) :
    readfn sock io 0 = some (some [], io) := by
  rw [readfn, if_neg (by rw [h]; simp)]
  split
  · rfl
  · have hturn : readTurn sock ([], 0, io) = .inr (some ([], io)) := by
      rw [readTurn, if_pos rfl]
    rw [Loop.run_inr hturn, Option.map_some, if_neg (by rw [h]; simp)]

/-- A caller that reads again and again gets the body in pieces; if it asks for more than there
is, it comes to the end of the body. -/
theorem readAll_spec (hfills : Fills sock A E) (lens : List Nat) {io : Httpio} {todo : Str}
    (h : Todo A io todo) :
    ∃ io', readAll sock io lens = some ((slices lens todo).map some, io') ∧
      Todo A io' (todo.drop lens.sum) ∧ (todo.length < lens.sum → E io') ∧
      (lens.sum = 0 → io' = io) := by
  induction lens generalizing io todo with
  | nil => exact ⟨io, rfl, by simpa using h, fun h => absurd h (Nat.not_lt_zero _), fun _ => rfl⟩
  | cons len lens ih =>
    obtain ⟨io₁, hread, h₁, hend₁⟩ := readfn_spec hfills h len
    obtain ⟨io', hrest, h', hend, hzero⟩ := ih h₁
    refine ⟨io', ?_, ?_, fun hlt => ?_, fun hsum => ?_⟩
    · simp only [readAll, hread, Option.bind_some, hrest, Option.map_some, slices, List.map_cons]
    · rwa [List.drop_drop, ← List.sum_cons] at h'
    · rw [List.sum_cons] at hlt
      rw [List.length_drop] at hend
      rcases Nat.eq_zero_or_pos lens.sum with hsum | hsum
      · rw [hzero hsum]
        exact hend₁ (by omega)
      · exact hend (by omega)
    · rw [List.sum_cons] at hsum
      obtain rfl : len = 0 := by omega
      rw [readfn_zero h.error] at hread
      rw [hzero (by omega), (Prod.mk.inj (Option.some.inj hread)).2]

/-! ### A body that is not in chunks -/

/-- What comes next on the connection when `fillbuf` is called: the body, as long as its length
says unless the peer closes before, or all there is. -/
structure Plain (after : Str) (io : Httpio) (a : Str) : Prop where
  chunked : io.chunked = false
  stream : io.conn.stream = a ++ after
  length : 0 ≤ io.contentlength → (a.length : Int) ≤ io.contentlength
  ends : after ≠ [] → (a.length : Int) = io.contentlength

theorem Plain.fills (hsock : ∀ i, (sock i).isSome = true) (after : Str) :
    Fills sock (Plain after) fun _ => True := by
  refine ⟨?_, fun h => ⟨h.chunked, h.stream, h.length, h.ends⟩, fun _ _ => trivial⟩
  intro io a len ⟨hchunked, hstream, hlength, hends⟩ herror heof _ hlen
  obtain ⟨n, hn, hle, hpos⟩ : ∃ n, (if io.contentlength ≥ 0 ∧ (len : Int) > io.contentlength then
      io.contentlength.toNat else len) = n ∧ (0 ≤ io.contentlength → (n : Int) ≤ io.contentlength) ∧
      (n = 0 → io.contentlength = 0) := by
    refine ⟨_, rfl, ?_, ?_⟩ <;> split <;> omega
  obtain ⟨buf, conn, hread⟩ := exists_fetchRead hsock io.conn n
  have hres := fetchRead_spec hread
  have hlen := hres.length
  have hfill : fillbuf sock io len = ((buf.length : Int), { io with
      conn, buf
      contentlength := if io.contentlength ≠ 0 then io.contentlength - buf.length
        else io.contentlength
      bufpos := 0 }) := by
    rw [fillbuf, if_neg (by simp [herror]), if_neg (by simp [heof])]
    simp only
    rw [hn, if_pos hchunked, fillPlain, hread]
  rw [hfill]
  have hwhole := hres.stream
  rw [hstream] at hwhole
  -- no more is read than the body has bytes
  obtain ⟨a', ha⟩ : ∃ a', a = buf ++ a' := by
    rcases Decidable.em (after = []) with rfl | hafter
    · exact ⟨conn.stream, by rwa [List.append_nil] at hwhole⟩
    · have heq := hends hafter
      have hbound := hle (by omega)
      rcases List.append_eq_append_iff.mp hwhole with ⟨d, rfl, -⟩ | ⟨a', ha, -⟩
      · rw [List.length_append] at hlen
        obtain rfl := List.eq_nil_of_length_eq_zero (l := d) (by omega)
        exact ⟨[], by simp⟩
      · exact ⟨a', ha⟩
  subst ha
  rw [List.append_assoc, List.append_cancel_left_eq] at hwhole
  simp only [List.length_append, Int.natCast_add] at hlength hends
  rcases Decidable.em (buf = []) with rfl | hbuf
  · simp only [List.length_nil, Int.natCast_zero, List.nil_append, Int.zero_add, Int.sub_zero,
      ite_self] at hlength hends hstream ⊢
    have ha : a' = [] := by
      by_contra hne
      have hzero : n = 0 := by
        by_contra hpos'
        exact hres.some_of_pos (by omega) (by rw [hstream]; simp [hne]) rfl
      have hnil := List.length_pos_iff.mpr hne
      have hcl := hpos hzero
      have := hlength (by omega)
      omega
    subst ha
    exact .inr ⟨_, _, rfl, Int.zero_lt_one, rfl, rfl, herror,
      ⟨hchunked, hwhole.symm, hlength, hends⟩, trivial⟩
  · have hpos := List.length_pos_iff.mpr hbuf
    have hne : io.contentlength ≠ 0 := by
      intro hzero
      have := hlength (by omega)
      omega
    refine .inl ⟨buf, a', _, rfl, hbuf, rfl, rfl, rfl, herror, heof, hchunked, hwhole.symm, ?_, ?_⟩
    · simp only [if_pos hne]
      intro hnonneg
      have := hlength (by omega)
      omega
    · simp only [if_pos hne]
      intro hafter
      have := hends hafter
      omega

/-- The body that is not in chunks: as many bytes as its length says, if it says something. -/
def plainBody (clength : Int) (stream : Str) : Str :=
  if clength < 0 then stream else stream.take clength.toNat

/-- **A body that is not in chunks**: whatever the reads of the socket give and whatever the
caller asks for, it gets the body in pieces; when it has got all of it, the connection stands
behind the body. -/
theorem readAll_plain (hsock : ∀ i, (sock i).isSome = true) (conn : Conn) (clength : Int)
    (lens : List Nat) :
    ∃ io, readAll sock (funopen conn false clength) lens =
        some ((slices lens (plainBody clength conn.stream)).map some, io) ∧
      ((plainBody clength conn.stream).length ≤ lens.sum →
        plainBody clength conn.stream ++ io.conn.stream = conn.stream) := by
  obtain ⟨after, hafter, hplain⟩ : ∃ after,
      plainBody clength conn.stream ++ after = conn.stream ∧
        Plain after (funopen conn false clength) (plainBody clength conn.stream) := by
    rw [plainBody]
    split
    · exact ⟨[], List.append_nil _, rfl, (List.append_nil _).symm, fun h => by
        have : 0 ≤ clength := h
        omega, fun h => absurd rfl h⟩
    · refine ⟨conn.stream.drop clength.toNat, List.take_append_drop _ _, rfl,
        (List.take_append_drop _ _).symm, fun h => ?_, fun h => ?_⟩
      · have hle := List.length_take_le clength.toNat conn.stream
        show ((conn.stream.take clength.toNat).length : Int) ≤ clength
        omega
      · have hlt : clength.toNat < conn.stream.length := by
          by_contra hge
          exact h (List.drop_eq_nil_of_le (by omega))
        show ((conn.stream.take clength.toNat).length : Int) = clength
        rw [List.length_take]
        omega
  obtain ⟨io, hread, htodo, -⟩ := readAll_spec (Plain.fills hsock after) lens
    (⟨rfl, Nat.le_refl _, ⟨_, hplain, rfl⟩, fun h => by cases h⟩ :
      Todo (Plain after) (funopen conn false clength) (plainBody clength conn.stream))
  refine ⟨io, hread, fun hall => ?_⟩
  obtain ⟨-, -, ⟨a, ha, hnil⟩, -⟩ := htodo
  rw [List.drop_eq_nil_of_le hall] at hnil
  obtain ⟨-, rfl⟩ := List.append_eq_nil_iff.mp hnil.symm
  rw [ha.stream, List.nil_append, hafter]

theorem readAll_plain_pipelined :
    ∃ io, readAll (fun i => some (i % 2)) (funopen { wire := ['h', 'i', '\n', 'H'] } false 3) [2, 2] =
        some ([some ['h', 'i'], some ['\n']], io) ∧ io.conn.stream = ['H'] := by
  have hsock : ∀ i, ((fun i => some (i % 2) : Socket) i).isSome = true := fun _ => rfl
  obtain ⟨io, hread, hend⟩ := readAll_plain hsock { wire := ['h', 'i', '\n', 'H'] } 3 [2, 2]
  have hwhole : ['h', 'i', '\n'] ++ io.conn.stream = ['h', 'i', '\n'] ++ ['H'] := hend (by decide)
  exact ⟨io, hread, List.append_cancel_left hwhole⟩

end Flappy.Http
