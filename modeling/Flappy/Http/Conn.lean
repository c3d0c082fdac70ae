/-
Connections (`fetch_read` and `fetch_getln` in `lib/fetch/common.c`).

A read of the socket gives some of the bytes that were asked for.  What is behind a line
in the buffer is kept for the next reads.  The bytes still to come are the ones kept and
the ones on the wire, in this order; nothing is lost or given twice.

* `fetchRead_spec` — one read;
* `getln_spec` — a line, however it is cut into reads.
-/
import Flappy.Lib.CStr
import Flappy.Lib.Loop

open CStr

namespace Flappy.Http

/-- What the reads of the socket answer, one after the other: at most so many bytes and one
more, or an error. -/
abbrev Socket := Nat → Option Nat

/-- `struct fetchconn`: what is left in the buffer behind the last line, and what the peer
sends before it closes. -/
structure Conn where
  next : Str := []
  wire : Str
  reads : Nat := 0
  bufsize : Nat := 0

/-- The bytes still to come. -/
def Conn.stream (conn : Conn) : Str := conn.next ++ conn.wire

/-- A `read` of the socket; an interrupted one is made again. -/
def recv (sock : Socket) (conn : Conn) (len : Nat) : Option Str × Conn :=
  match sock conn.reads with
  | none => (none, { conn with reads := conn.reads + 1 })
  | some k =>
    (some (conn.wire.take (min len (k + 1))),
      { conn with wire := conn.wire.drop (min len (k + 1)), reads := conn.reads + 1 })

/-- `fetch_read`; `none` is -1. -/
def fetchRead (sock : Socket) (conn : Conn) (len : Nat) : Option Str × Conn :=
  if len = 0 then (some [], conn)
  else if conn.next ≠ [] then
    (some (conn.next.take len), { conn with next := conn.next.drop len })
  else recv sock conn len

/-- `MIN_BUF_SIZE`. -/
def minBufSize : Nat := 1024

/-- A turn of the loop of `fetch_getln`, on what is in the buffer. -/
def getlnTurn (sock : Socket) (s : Str × Conn) : (Str × Conn) ⊕ (Option Str × Conn) :=
  match fetchRead sock s.2 (s.2.bufsize - s.1.length) with
  | (none, conn) => .inr (none, conn)
  | (some [], conn) => .inr (some s.1, { conn with next := [] })
  | (some (c :: r), conn) =>
    match strchr '\n' (c :: r) with
    | some (line, next) => .inr (some (s.1 ++ line), { conn with next := next })
    | none =>
      let buf := s.1 ++ (c :: r)
      .inl (buf,
        if buf.length = conn.bufsize then { conn with bufsize := conn.bufsize * 2 } else conn)

/-! ### Reads -/

/-- What a read leaves: the bytes it gives are the next ones. -/
structure ReadResult (sock : Socket) (conn : Conn) (len : Nat) (r : Str) (conn' : Conn) : Prop where
  stream : conn.stream = r ++ conn'.stream
  length : r.length ≤ len
  some_of_pos : 0 < len → conn.stream ≠ [] → r ≠ []
  bufsize : conn'.bufsize = conn.bufsize
  next : conn'.next = conn.next.drop len

theorem fetchRead_spec {sock : Socket} {conn conn' : Conn} {len : Nat} {r : Str}
    (h : fetchRead sock conn len = (some r, conn')) : ReadResult sock conn len r conn' := by
  rw [fetchRead] at h
  split at h
  · rename_i hlen
    obtain ⟨hr, rfl⟩ := Prod.mk.inj h
    obtain rfl := Option.some.inj hr
    subst hlen
    exact ⟨rfl, Nat.le_refl _, fun h => absurd h (Nat.lt_irrefl 0), rfl, rfl⟩
  · split at h
    · rename_i hnext
      obtain ⟨hr, rfl⟩ := Prod.mk.inj h
      obtain rfl := Option.some.inj hr
      refine ⟨?_, List.length_take_le _ _, fun hpos _ => ?_, rfl, rfl⟩
      · simp only [Conn.stream]
        rw [← List.append_assoc, List.take_append_drop]
      · rw [← List.length_pos_iff] at hnext ⊢
        rw [List.length_take]
        omega
    · rename_i hnext
      rw [Decidable.not_not] at hnext
      rw [recv] at h
      split at h
      · cases h
      · rename_i k _
        obtain ⟨hr, rfl⟩ := Prod.mk.inj h
        obtain rfl := Option.some.inj hr
        refine ⟨?_, ?_, fun hpos hne => ?_, rfl, ?_⟩
        · simp only [Conn.stream, hnext, List.nil_append, List.take_append_drop]
        · rw [List.length_take]
          omega
        · simp only [Conn.stream, hnext, List.nil_append] at hne
          rw [← List.length_pos_iff] at hne ⊢
          rw [List.length_take]
          omega
        · rw [hnext, List.drop_nil]

theorem ReadResult.length_stream {sock : Socket} {conn conn' : Conn} {len : Nat} {r : Str}
    (h : ReadResult sock conn len r conn') :
    conn'.stream.length + r.length = conn.stream.length := by
  rw [h.stream, List.length_append, Nat.add_comm]

/-- Without errors, a read succeeds. -/
theorem exists_fetchRead {sock : Socket} (hsock : ∀ i, (sock i).isSome = true) (conn : Conn)
    (len : Nat) : ∃ r conn', fetchRead sock conn len = (some r, conn') := by
  rw [fetchRead]
  split
  · exact ⟨_, _, rfl⟩
  · split
    · exact ⟨_, _, rfl⟩
    · obtain ⟨k, hk⟩ := Option.isSome_iff_exists.mp (hsock conn.reads)
      rw [recv, hk]
      exact ⟨_, _, rfl⟩

/-! ### Lines -/

/-- A turn of the loop that does not find the end of the line has read something. -/
theorem stream_getlnTurn {sock : Socket} {s s' : Str × Conn} (h : getlnTurn sock s = .inl s') :
    ∃ r, s'.1 = s.1 ++ r ∧ r ≠ [] ∧ s.2.stream = r ++ s'.2.stream := by
  rw [getlnTurn] at h
  split at h
  · cases h
  · cases h
  · rename_i c r conn hread
    have hres := fetchRead_spec hread
    split at h
    · cases h
    · obtain rfl := Sum.inl.inj h
      refine ⟨c :: r, rfl, by simp, ?_⟩
      simp only
      split
      · exact hres.stream
      · exact hres.stream

def getlnMeasure (sock : Socket) : Loop.Measure (getlnTurn sock) where
  size s := s.2.stream.length
  lt := by
    intro s s' h
    obtain ⟨r, -, hr, hstream⟩ := stream_getlnTurn h
    rw [hstream, List.length_append]
    have := List.length_pos_iff.mpr hr
    omega

/-- `fetch_getln`: the line without its end, and the connection behind it. -/
def getln (sock : Socket) (conn : Conn) : Option Str × Conn :=
  let conn := if conn.bufsize = 0 then { conn with bufsize := minBufSize } else conn
  Loop.run (getlnMeasure sock) ([], conn)

/-- What is read as a line is no longer on the way. -/
theorem length_getln {sock : Socket} {conn conn' : Conn} {line : Str}
    (h : getln sock conn = (some line, conn')) :
    conn'.stream.length + line.length ≤ conn.stream.length := by
  have hrun : ∀ conn₀ : Conn, conn₀.stream = conn.stream →
      ∀ line ∈ (Loop.run (getlnMeasure sock) ([], conn₀)).1,
        (Loop.run (getlnMeasure sock) ([], conn₀)).2.stream.length + line.length ≤
          conn.stream.length := by
    intro conn₀ hconn
    -- a turn moves bytes from the stream to the line
    refine Loop.run_induction (P := fun s : Str × Conn =>
        s.2.stream.length + s.1.length ≤ conn.stream.length)
      (Q := fun r : Option Str × Conn =>
        ∀ line ∈ r.1, r.2.stream.length + line.length ≤ conn.stream.length)
      (fun s s' hs hturn => ?_) (fun s r hs hturn => ?_) (Nat.le_of_eq (congrArg List.length hconn))
    · obtain ⟨r, hbuf, -, hstream⟩ := stream_getlnTurn hturn
      rw [hstream, List.length_append] at hs
      rw [hbuf, List.length_append]
      omega
    · rw [getlnTurn] at hturn
      split at hturn
      · obtain rfl := Sum.inr.inj hturn
        intro line hline
        cases hline
      · rename_i conn₁ hread
        obtain rfl := Sum.inr.inj hturn
        intro line hline
        obtain rfl := Option.some.inj hline
        have hres := (fetchRead_spec hread).length_stream
        show conn₁.wire.length + s.1.length ≤ _
        have hle : conn₁.wire.length ≤ conn₁.stream.length := by
          rw [Conn.stream, List.length_append]
          omega
        rw [List.length_nil] at hres
        omega
      · rename_i c r conn₁ hread
        have hres := (fetchRead_spec hread).length_stream
        split at hturn
        · -- the line ends in what was read, and the rest stays
          rename_i front next hsplit
          obtain rfl := Sum.inr.inj hturn
          intro line hline
          obtain rfl := Option.some.inj hline
          have hlen := congrArg List.length (strchr_eq_some.mp hsplit).1
          simp only [List.length_append, List.length_cons] at hlen hres
          show (next ++ conn₁.wire).length + (s.1 ++ front).length ≤ _
          have hle : conn₁.wire.length ≤ conn₁.stream.length := by
            rw [Conn.stream, List.length_append]
            omega
          rw [List.length_append, List.length_append]
          omega
        · cases hturn
  rw [getln] at h
  split at h
  · have := hrun { conn with bufsize := minBufSize } rfl
    rw [h] at this
    exact this line rfl
  · have := hrun conn rfl
    rw [h] at this
    exact this line rfl

/-- What is kept behind a line has been in the buffer. -/
def Conn.Kept (conn : Conn) : Prop := conn.next.length ≤ conn.bufsize

/-- The state of the loop of `fetch_getln`: the buffer has room, and once it holds something
nothing is kept behind it. -/
structure Getting (line rest : Str) (s : Str × Conn) : Prop where
  stream : s.1 ++ s.2.stream = line ++ '\n' :: rest
  front : '\n' ∉ s.1
  room : s.1.length < s.2.bufsize
  kept : s.1.length + s.2.next.length ≤ s.2.bufsize

/-- What the end of a turn has come to. -/
def Got (line rest : Str) : (Str × Conn) ⊕ (Option Str × Conn) → Prop
  | .inl s => Getting line rest s
  | .inr r => r.1 = some line ∧ r.2.stream = rest ∧ r.2.Kept

theorem got_turn {sock : Socket} (hsock : ∀ i, (sock i).isSome = true) {line rest : Str}
    (hline : '\n' ∉ line) {s : Str × Conn} (h : Getting line rest s) :
    Got line rest (getlnTurn sock s) := by
  obtain ⟨buf, conn⟩ := s
  obtain ⟨hstream, hfront, hroom, hkept⟩ := h
  simp only at hstream hfront hroom hkept
  obtain ⟨r, conn', hread⟩ := exists_fetchRead hsock conn (conn.bufsize - buf.length)
  have hres := fetchRead_spec hread
  have hnext : conn'.next = [] := by
    rw [hres.next]
    exact List.drop_eq_nil_of_le (by omega)
  have hwire : conn'.stream = conn'.wire := by
    rw [Conn.stream, hnext, List.nil_append]
  have hne : conn.stream ≠ [] := by
    intro hnil
    rw [hnil, List.append_nil] at hstream
    exact hfront (hstream ▸ by simp)
  have hr := hres.some_of_pos (by omega) hne
  have hlen := hres.length
  rw [hres.stream, ← List.append_assoc] at hstream
  rw [getlnTurn]
  simp only [hread]
  rcases r with _ | ⟨c, r⟩
  · exact absurd rfl hr
  · simp only
    split
    · rename_i front next hsplit
      obtain ⟨hcr, hnot⟩ := strchr_eq_some.mp hsplit
      -- the first line end of the stream is the one that has been found
      have hwhole : strchr '\n' (line ++ '\n' :: rest) =
          some (buf ++ front, next ++ conn'.stream) := by
        rw [← hstream, hcr, strchr_eq_some]
        refine ⟨by simp, ?_⟩
        rw [List.mem_append]
        exact fun hmem => hmem.elim hfront hnot
      rw [strchr_eq_some.mpr ⟨rfl, hline⟩] at hwhole
      obtain ⟨hl, hrest⟩ := Prod.mk.inj (Option.some.inj hwhole)
      refine ⟨congrArg some hl.symm, ?_, ?_⟩
      · rw [hrest, hwire]
        rfl
      · show next.length ≤ conn'.bufsize
        rw [hcr, List.length_append, List.length_cons] at hlen
        rw [hres.bufsize]
        omega
    · rename_i hsplit
      have hnot := strchr_eq_none.mp hsplit
      have hfront' : '\n' ∉ buf ++ (c :: r) := by
        rw [List.mem_append]
        exact fun hmem => hmem.elim hfront hnot
      have hle : (buf ++ (c :: r)).length ≤ conn'.bufsize := by
        rw [List.length_append, hres.bufsize]
        omega
      have hpos : 0 < conn'.bufsize := by
        rw [hres.bufsize]
        omega
      split
      · rename_i hfull
        refine ⟨hstream, hfront', ?_, ?_⟩
        · show (buf ++ (c :: r)).length < conn'.bufsize * 2
          omega
        · show (buf ++ (c :: r)).length + conn'.next.length ≤ conn'.bufsize * 2
          rw [hnext, List.length_nil]
          omega
      · rename_i hfull
        refine ⟨hstream, hfront', ?_, ?_⟩
        · show (buf ++ (c :: r)).length < conn'.bufsize
          omega
        · show (buf ++ (c :: r)).length + conn'.next.length ≤ conn'.bufsize
          rw [hnext, List.length_nil]
          omega

/-- **A line** that is on the way is read whole, and the stream goes on behind it. -/
theorem getln_spec {sock : Socket} (hsock : ∀ i, (sock i).isSome = true) {conn : Conn}
    (hkept : conn.Kept) {line rest : Str} (hline : '\n' ∉ line)
    (h : conn.stream = line ++ '\n' :: rest) :
    ∃ conn', getln sock conn = (some line, conn') ∧ conn'.stream = rest ∧ conn'.Kept := by
  have hstart : ∀ conn : Conn, conn.Kept → conn.stream = line ++ '\n' :: rest →
      0 < conn.bufsize → Getting line rest ([], conn) := fun conn hkept h hpos =>
    ⟨h, by simp, hpos, by simpa [Conn.Kept] using hkept⟩
  have hrun : ∀ conn : Conn, Getting line rest ([], conn) →
      ∃ conn', Loop.run (getlnMeasure sock) ([], conn) = (some line, conn') ∧
        conn'.stream = rest ∧ conn'.Kept := fun conn hget => by
    have hgot : Got line rest (.inr (Loop.run (getlnMeasure sock) ([], conn))) := by
      refine Loop.run_induction (Q := fun r => Got line rest (.inr r)) (fun s s' hs hturn => ?_)
        (fun s r hs hturn => ?_) hget
      · have hgot := got_turn hsock hline hs
        rw [hturn] at hgot
        exact hgot
      · have hgot := got_turn hsock hline hs
        rw [hturn] at hgot
        exact hgot
    obtain ⟨hr, hstream, hk⟩ := hgot
    exact ⟨_, Prod.ext hr rfl, hstream, hk⟩
  rw [getln]
  split
  · rename_i hzero
    have hpos : 0 < minBufSize := by decide
    refine hrun _ (hstart _ ?_ h hpos)
    rw [Conn.Kept, hzero] at hkept
    show conn.next.length ≤ minBufSize
    omega
  · exact hrun _ (hstart _ hkept h (by omega))

end Flappy.Http
