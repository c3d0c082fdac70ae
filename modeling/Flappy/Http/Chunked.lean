/-
A body in chunks.

A chunk is a line with its size, as many bytes, and a line end; the last one has the size
zero, and one more line stands behind it.  The size is taken for an `int`, so some sizes
mean the end of the body, and some an error.

* `newChunk_spec`, `fillChunk_spec` — a size, and what comes behind it;
* `readAll_chunked` — the bytes of the chunks, one after the other;
* `readAll_unread` — a body that is taken for empty.
-/
import Flappy.Http.Readfn

open CStr

namespace Flappy.Http

/-- The line in front of a chunk: the size in hexadecimal digits, and what may stand behind
it. -/
structure SizeLine (n : Nat) where
  size : Str
  ext : Str
  digits : ∀ c ∈ size, isDigitOf 16 c = true
  value : digitsValue 16 size = n
  size_ne_nil : size ≠ []
  head_ext : ∀ c ∈ ext.head?, c = '\x00' ∨ isspace c = true ∨ c = ';'
  line_ext : '\n' ∉ ext
  long : 2 ≤ size.length + ext.length

def SizeLine.line {n : Nat} (l : SizeLine n) : Str := l.size ++ l.ext

/-- A chunk.  As an `int`, its size is neither the one of the last chunk nor an error. -/
structure Chunk where
  data : Str
  size : SizeLine data.length
  small : data.length < 18446744073709551616
  ne_zero : toInt data.length ≠ 0
  ne_error : toInt data.length ≠ -1

def Chunk.write (c : Chunk) : Str := c.size.line ++ '\n' :: (c.data ++ ['\r', '\n'])

/-- A body in chunks: the last line may hold one line of a trailer. -/
structure Body where
  chunks : List Chunk
  last : SizeLine 0
  trailer : Str
  line_trailer : '\n' ∉ trailer

def Body.data (b : Body) : Str := b.chunks.flatMap Chunk.data

def Body.ending (b : Body) : Str := b.last.line ++ '\n' :: (b.trailer ++ ['\n'])

def Body.write (b : Body) : Str := b.chunks.flatMap Chunk.write ++ b.ending

/-! ### A size -/

theorem not_digit {c : Char} (h : c = '\x00' ∨ isspace c = true ∨ c = ';') :
    isDigitOf 16 c = false := by
  rcases h with rfl | h | rfl
  · rfl
  · simp only [isspace, decide_eq_true_eq, List.mem_cons, List.not_mem_nil, or_false] at h
    rcases h with rfl | rfl | rfl | rfl | rfl | rfl <;> rfl
  · rfl

theorem scanSize_digits {ds : Str} (hds : ∀ c ∈ ds, isDigitOf 16 c = true) {ext : Str}
    (hext : ∀ c ∈ ext.head?, c = '\x00' ∨ isspace c = true ∨ c = ';') (n : Nat) :
    scanSize (n % 18446744073709551616) (ds ++ ext) =
      (ds.foldl (fun n c => 16 * n + (digitValue c).getD 0) n % 18446744073709551616, true) := by
  induction ds generalizing n with
  | nil =>
    rcases ext with _ | ⟨c, ext⟩
    · rfl
    · rw [List.nil_append, scanSize, if_pos (hext c rfl), List.foldl_nil]
  | cons c ds ih =>
    have hc := hds c List.mem_cons_self
    have hstop : ¬ (c = '\x00' ∨ isspace c = true ∨ c = ';') := by
      intro hstop
      rw [not_digit hstop] at hc
      cases hc
    rw [List.cons_append, scanSize, if_neg hstop, if_neg (by rw [hc]; simp), List.foldl_cons,
      ← ih (fun c hc => hds c (List.mem_cons_of_mem _ hc))]
    congr 1
    omega

theorem SizeLine.not_mem {n : Nat} (l : SizeLine n) : '\n' ∉ l.line := by
  rw [SizeLine.line, List.mem_append]
  rintro (h | h)
  · exact absurd (l.digits _ h) (by decide)
  · exact l.line_ext h

/-- **The line in front of a chunk.** -/
theorem newChunk_spec {sock : Socket} (hsock : ∀ i, (sock i).isSome = true) {io : Httpio}
    (hkept : io.conn.Kept) (hzero : io.chunksize = 0) {n : Nat} (l : SizeLine n)
    (hn : n < 18446744073709551616) {rest : Str} (h : io.conn.stream = l.line ++ '\n' :: rest) :
    ∃ conn, newChunk sock io = (toInt n, { io with conn, chunksize := n }) ∧
      conn.stream = rest ∧ conn.Kept := by
  obtain ⟨conn, hgetln, hrest, hkept'⟩ := getln_spec hsock hkept l.not_mem h
  have hscan : scanSize io.chunksize l.line = (n, true) := by
    have hdigits := scanSize_digits l.digits l.head_ext 0
    rw [Nat.zero_mod, ← digitsValue, l.value, Nat.mod_eq_of_lt hn] at hdigits
    rw [hzero]
    exact hdigits
  have hhead : ¬ (l.line.length < 2 ∨ l.line.head?.any (isDigitOf 16) = false) := by
    obtain ⟨c, ds, hsize⟩ := List.exists_cons_of_ne_nil l.size_ne_nil
    have hc := l.digits c (hsize ▸ List.mem_cons_self)
    have hlong := l.long
    rintro (hshort | hdigit)
    · rw [SizeLine.line, List.length_append] at hshort
      omega
    · rw [SizeLine.line, hsize, List.cons_append, List.head?_cons, Option.any_some, hc] at hdigit
      cases hdigit
  refine ⟨conn, ?_, hrest, hkept'⟩
  rw [newChunk, hgetln]
  simp only
  rw [if_neg hhead, hscan]

/-! ### A chunk -/

theorem ReadResult.kept {sock : Socket} {conn conn' : Conn} {len : Nat} {r : Str}
    (h : ReadResult sock conn len r conn') (hkept : conn.Kept) : conn'.Kept := by
  rw [Conn.Kept] at hkept ⊢
  rw [h.next, h.bufsize, List.length_drop]
  omega

/-- **The line end behind a chunk**, in one read or in two. -/
theorem readEndl_spec {sock : Socket} (hsock : ∀ i, (sock i).isSome = true) {conn : Conn}
    (hkept : conn.Kept) {rest : Str} (h : conn.stream = '\r' :: '\n' :: rest) :
    ∃ conn', readEndl sock conn = (true, conn') ∧ conn'.stream = rest ∧ conn'.Kept := by
  obtain ⟨endl, conn₁, hread⟩ := exists_fetchRead hsock conn 2
  have hres := fetchRead_spec hread
  have hstream := hres.stream
  have hlen := hres.length
  have hne := hres.some_of_pos (by omega) (by rw [h]; simp)
  rw [h] at hstream
  rw [readEndl, hread]
  simp only
  rcases endl with _ | ⟨c, _ | ⟨c', _ | ⟨c'', endl⟩⟩⟩
  · exact absurd rfl hne
  · -- only the carriage return has come: there is a second read
    simp only [List.cons_append, List.nil_append, List.cons.injEq] at hstream
    obtain ⟨rfl, hstream⟩ := hstream
    obtain ⟨endl', conn₂, hread'⟩ := exists_fetchRead hsock conn₁ 1
    have hres' := fetchRead_spec hread'
    have hstream' := hres'.stream
    have hlen' := hres'.length
    have hne' := hres'.some_of_pos (by omega) (by rw [← hstream]; simp)
    rw [← hstream] at hstream'
    rw [if_pos List.length_singleton, hread']
    simp only
    rcases endl' with _ | ⟨c', _ | ⟨c'', endl'⟩⟩
    · exact absurd rfl hne'
    · simp only [List.cons_append, List.nil_append, List.cons.injEq] at hstream'
      obtain ⟨rfl, hstream'⟩ := hstream'
      exact ⟨conn₂, rfl, hstream'.symm, hres'.kept (hres.kept hkept)⟩
    · simp only [List.length_cons] at hlen'
      omega
  · simp only [List.cons_append, List.nil_append, List.cons.injEq] at hstream
    obtain ⟨rfl, rfl, hstream⟩ := hstream
    exact ⟨conn₁, rfl, hstream.symm, hres.kept hkept⟩
  · simp only [List.length_cons] at hlen
    omega

/-- What stands on the connection from within a chunk to the next one. -/
def behind (data : Str) : Str := if data = [] then [] else data ++ ['\r', '\n']

/-- **A read within a chunk**: some of its bytes, and behind the last one its line end. -/
theorem fillChunk_spec {sock : Socket} (hsock : ∀ i, (sock i).isSome = true) {io : Httpio}
    (hkept : io.conn.Kept) {data rest : Str} (hdata : data ≠ []) (hsize : io.chunksize = data.length)
    (h : io.conn.stream = behind data ++ rest) {len : Nat} (hlen : 0 < len) :
    ∃ buf data' conn, data = buf ++ data' ∧ buf ≠ [] ∧ buf.length ≤ len ∧
      fillChunk sock io len = ((buf.length : Int), { io with
        conn, buf
        chunksize := data'.length
        contentlength := if io.contentlength ≥ 0 then io.contentlength - buf.length
          else io.contentlength
        bufpos := 0 }) ∧
      conn.stream = behind data' ++ rest ∧ conn.Kept := by
  have hpos := List.length_pos_iff.mpr hdata
  rw [behind, if_neg hdata] at h
  obtain ⟨buf, conn₁, hread⟩ := exists_fetchRead hsock io.conn (min len io.chunksize)
  have hres := fetchRead_spec hread
  have hstream := hres.stream
  have hlength := hres.length
  have hne := hres.some_of_pos (by omega) (by rw [h]; simp)
  have hkept₁ := hres.kept hkept
  rw [h, List.append_assoc] at hstream
  -- the read does not go beyond the chunk
  obtain ⟨data', rfl, hbehind⟩ : ∃ data', data = buf ++ data' ∧
      data' ++ ['\r', '\n'] ++ rest = conn₁.stream := by
    rcases List.append_eq_append_iff.mp hstream with ⟨d, rfl, hd⟩ | ⟨data', rfl, hd⟩
    · rw [List.length_append] at hlength
      obtain rfl := List.eq_nil_of_length_eq_zero (l := d) (by omega)
      exact ⟨[], by simp, by simpa using hd⟩
    · exact ⟨data', rfl, by rw [List.append_assoc]; exact hd.symm⟩
  have hleft : io.chunksize - buf.length = data'.length := by
    rw [hsize, List.length_append]
    omega
  rw [fillChunk, hread]
  simp only
  rw [hleft]
  split
  · -- the chunk is at its end, and the line end behind it is read
    rename_i hzero
    obtain rfl := List.eq_nil_of_length_eq_zero hzero
    obtain ⟨conn, hendl, hrest, hkept'⟩ := readEndl_spec hsock hkept₁ hbehind.symm
    rw [hendl]
    exact ⟨buf, [], conn, rfl, hne, by omega, rfl, hrest, hkept'⟩
  · rename_i hzero
    refine ⟨buf, data', conn₁, rfl, hne, by omega, rfl, ?_, hkept₁⟩
    rw [behind, if_neg (by rintro rfl; exact hzero rfl)]
    exact hbehind.symm

/-! ### The body -/

/-- What comes next on the connection when `fillbuf` is called: the rest of a chunk, the chunks
behind it and the end, or what comes behind the body. -/
structure Chunked (b : Body) (after : Str) (io : Httpio) (a : Str) : Prop where
  chunked : io.chunked = true
  kept : io.conn.Kept
  length : 0 ≤ io.contentlength → (a.length : Int) ≤ io.contentlength
  ended : io.eof = true → io.conn.stream = after
  ahead : io.eof = false → ∃ (data : Str) (chunks : List Chunk),
    io.chunksize = data.length ∧ a = data ++ chunks.flatMap Chunk.data ∧
      io.conn.stream = behind data ++ (chunks.flatMap Chunk.write ++ (b.ending ++ after))

/-- Within a chunk, `fillbuf` gives the next bytes. -/
theorem fillChunk_chunked {sock : Socket} {b : Body} {after : Str} (io : Httpio)
    (hsock : ∀ i, (sock i).isSome = true) (hchunked : io.chunked = true) (hkept : io.conn.Kept)
    (herror : io.error = false) (heof : io.eof = false) {data : Str} {chunks : List Chunk}
    (hdata : data ≠ []) (hsize : io.chunksize = data.length)
    (hlength : 0 ≤ io.contentlength →
      ((data ++ chunks.flatMap Chunk.data).length : Int) ≤ io.contentlength)
    (hstream : io.conn.stream =
      behind data ++ (chunks.flatMap Chunk.write ++ (b.ending ++ after)))
    {len : Nat} (hlen : 0 < len) :
    ∃ buf a' io', fillChunk sock io len = ((buf.length : Int), io') ∧ buf ≠ [] ∧
      data ++ chunks.flatMap Chunk.data = buf ++ a' ∧ io'.buf = buf ∧ io'.bufpos = 0 ∧
      io'.error = false ∧ io'.eof = false ∧ Chunked b after io' a' := by
  obtain ⟨buf, data', conn, rfl, hbuf, -, hfill, hrest, hkept'⟩ :=
    fillChunk_spec hsock hkept hdata hsize hstream hlen
  refine ⟨buf, data' ++ chunks.flatMap Chunk.data, _, hfill, hbuf, List.append_assoc _ _ _, rfl,
    rfl, herror, heof, hchunked, hkept', ?_, fun h => ?_, fun _ => ⟨data', chunks, rfl, rfl, hrest⟩⟩
  simp only [List.length_append, Int.natCast_add] at hlength ⊢
  split
  · rename_i hnonneg
    have := hlength hnonneg
    omega
  · omega
  · rw [heof] at h
    cases h

theorem Chunked.fills {sock : Socket} (hsock : ∀ i, (sock i).isSome = true) (b : Body)
    (after : Str) : Fills sock (Chunked b after) fun io => io.conn.stream = after := by
  refine ⟨?_, fun h => ⟨h.chunked, h.kept, h.length, h.ended, h.ahead⟩, fun h => h.ended⟩
  intro io a len ⟨hchunked, hkept, hlength, _, hahead⟩ herror heof hempty hlen
  obtain ⟨data, chunks, hsize, rfl, hstream⟩ := hahead heof
  obtain ⟨n, hn, hpos⟩ : ∃ n, (if io.contentlength ≥ 0 ∧ (len : Int) > io.contentlength then
      io.contentlength.toNat else len) = n ∧ (data ++ chunks.flatMap Chunk.data ≠ [] → 0 < n) := by
    refine ⟨_, rfl, fun hne => ?_⟩
    have := List.length_pos_iff.mpr hne
    split
    · have := hlength (by omega)
      omega
    · exact hlen
  rw [fillbuf, if_neg (by simp [herror]), if_neg (by simp [heof])]
  simp only
  rw [hn, if_neg (by simp [hchunked])]
  split
  · rename_i hzero
    obtain rfl := List.eq_nil_of_length_eq_zero (hsize.symm.trans hzero)
    rw [behind, if_pos rfl, List.nil_append] at hstream
    rcases chunks with _ | ⟨c, chunks⟩
    · -- the last chunk, and the line behind it
      have hlast : io.conn.stream = b.last.line ++ '\n' :: (b.trailer ++ '\n' :: after) := by
        rw [hstream, Body.ending]
        simp
      obtain ⟨conn, hnew, hrest, hkept'⟩ := newChunk_spec hsock hkept hzero b.last (by omega) hlast
      obtain ⟨conn', hgetln, hrest', hkept''⟩ := getln_spec hsock hkept' b.line_trailer hrest
      rw [hnew]
      simp only
      rw [if_neg (by decide), if_pos (by decide), hgetln]
      exact .inr ⟨_, _, rfl, by simp, rfl, hempty, herror,
        ⟨hchunked, hkept'', hlength, fun _ => hrest', fun h => Bool.noConfusion h⟩, hrest'⟩
    · -- the next chunk begins, and its first bytes are read
      have hnext : io.conn.stream = c.size.line ++ '\n' ::
          (c.data ++ ['\r', '\n'] ++ (chunks.flatMap Chunk.write ++ (b.ending ++ after))) := by
        rw [hstream, List.flatMap_cons, Chunk.write]
        simp
      obtain ⟨conn, hnew, hrest, hkept'⟩ := newChunk_spec hsock hkept hzero c.size c.small hnext
      have hdata : c.data ≠ [] := by
        intro hnil
        exact c.ne_zero (by rw [hnil]; decide)
      rw [hnew]
      simp only
      rw [if_neg c.ne_error, if_neg c.ne_zero]
      exact .inl (fillChunk_chunked { io with conn, chunksize := c.data.length } hsock
        hchunked hkept' herror heof hdata rfl hlength
        (hrest.trans (by rw [behind, if_neg hdata])) (hpos (by simp [hdata])))
  · rename_i hzero
    have hdata : data ≠ [] := by
      rintro rfl
      exact hzero hsize
    exact .inl (fillChunk_chunked io hsock hchunked hkept herror heof hdata hsize hlength hstream
      (hpos (by simp [hdata])))

/-- **A body in chunks**: whatever the reads of the socket give and whatever the caller asks
for, it gets the bytes of the chunks in pieces; when it has asked for more than there are, the
connection stands behind the body. -/
theorem readAll_chunked {sock : Socket} (hsock : ∀ i, (sock i).isSome = true) {conn : Conn}
    (hkept : conn.Kept) (b : Body) {after : Str} (hstream : conn.stream = b.write ++ after)
    {clength : Int} (hlength : 0 ≤ clength → (b.data.length : Int) ≤ clength) (lens : List Nat) :
    ∃ io, readAll sock (funopen conn true clength) lens = some ((slices lens b.data).map some, io) ∧
      (b.data.length < lens.sum → io.conn.stream = after) := by
  have hahead : Chunked b after (funopen conn true clength) b.data :=
    ⟨rfl, hkept, hlength, fun h => Bool.noConfusion h, fun _ => ⟨[], b.chunks, rfl, rfl, by
      rw [behind, if_pos rfl, List.nil_append, ← List.append_assoc]
      exact hstream⟩⟩
  obtain ⟨io, hread, -, hend, -⟩ := readAll_spec (Chunked.fills hsock b after) lens
    (⟨rfl, Nat.le_refl _, ⟨_, hahead, rfl⟩, fun h => Bool.noConfusion h⟩ :
      Todo (Chunked b after) (funopen conn true clength) b.data)
  exact ⟨io, hread, hend⟩

/-- What is left of a body in chunks of which the length says that it is empty: no byte of it is
given. -/
structure Unread (b : Body) (after : Str) (io : Httpio) (a : Str) : Prop where
  nothing : a = []
  chunked : io.chunked = true
  kept : io.conn.Kept
  length : io.contentlength = 0
  ahead : io.eof = false → io.chunksize ≠ 0 ∨
    (io.chunksize = 0 ∧ io.conn.stream = b.write ++ after)

/-- In a chunk, nothing is read. -/
theorem Unread.fillChunk (sock : Socket) (b : Body) (after : Str) (io : Httpio)
    (hchunked : io.chunked = true) (hkept : io.conn.Kept) (hlength : io.contentlength = 0)
    (herror : io.error = false) (hsize : io.chunksize ≠ 0) :
    ∃ io', fillChunk sock io 0 = (0, io') ∧ io'.bufpos = io'.buf.length ∧ io'.error = false ∧
      Unread b after io' [] := by
  have hread : fetchRead sock io.conn (min 0 io.chunksize) = (some [], io.conn) := by
    rw [Nat.zero_min, fetchRead, if_pos rfl]
  refine ⟨{ io with
    conn := io.conn, buf := [], chunksize := io.chunksize, contentlength := 0, bufpos := 0 }, ?_,
    rfl, herror, rfl, hchunked, hkept, rfl, fun _ => .inl hsize⟩
  rw [Http.fillChunk, hread]
  simp only [List.length_nil, Nat.sub_zero]
  rw [if_neg hsize, hlength]
  rfl

theorem Unread.fills {sock : Socket} (hsock : ∀ i, (sock i).isSome = true) (b : Body)
    (after : Str) : Fills sock (Unread b after) fun _ => True := by
  refine ⟨?_, fun h => ⟨h.nothing, h.chunked, h.kept, h.length, h.ahead⟩, fun _ _ => trivial⟩
  rintro io a len ⟨rfl, hchunked, hkept, hlength, hahead⟩ herror heof hempty hlen
  -- the length that is left is zero, so that every read is for no bytes
  have hnone : (if io.contentlength ≥ 0 ∧ (len : Int) > io.contentlength then
      io.contentlength.toNat else len) = 0 := by
    rw [hlength, if_pos ⟨Int.le_refl 0, by omega⟩]
    rfl
  right
  rw [fillbuf, if_neg (by simp [herror]), if_neg (by simp [heof])]
  simp only
  rw [hnone, if_neg (by simp [hchunked])]
  rcases hahead heof with hsize | ⟨hzero, hstream⟩
  · rw [if_neg hsize]
    obtain ⟨io', hfill, hpos, herror', hunread⟩ :=
      Unread.fillChunk sock b after io hchunked hkept hlength herror hsize
    exact ⟨0, io', hfill, Int.zero_lt_one, trivial, hpos, herror', hunread, trivial⟩
  · rw [if_pos hzero]
    rw [Body.write] at hstream
    rcases hchunks : b.chunks with _ | ⟨c, chunks⟩
    · have hlast : io.conn.stream = b.last.line ++ '\n' :: (b.trailer ++ '\n' :: after) := by
        rw [hstream, hchunks, Body.ending]
        simp
      obtain ⟨conn, hnew, hrest, hkept'⟩ := newChunk_spec hsock hkept hzero b.last (by omega) hlast
      obtain ⟨conn', hgetln, -, hkept''⟩ := getln_spec hsock hkept' b.line_trailer hrest
      rw [hnew]
      simp only
      rw [if_neg (by decide), if_pos (by decide), hgetln]
      exact ⟨_, _, rfl, by simp, trivial, hempty, herror,
        ⟨rfl, hchunked, hkept'', hlength, fun h => Bool.noConfusion h⟩, trivial⟩
    · have hnext : io.conn.stream = c.size.line ++ '\n' ::
          (c.data ++ ['\r', '\n'] ++ (chunks.flatMap Chunk.write ++ (b.ending ++ after))) := by
        rw [hstream, hchunks, List.flatMap_cons, Chunk.write]
        simp
      obtain ⟨conn, hnew, -, hkept'⟩ := newChunk_spec hsock hkept hzero c.size c.small hnext
      have hdata : c.data.length ≠ 0 := by
        intro hnil
        exact c.ne_zero (by rw [hnil]; decide)
      rw [hnew]
      simp only
      rw [if_neg c.ne_error, if_neg c.ne_zero]
      obtain ⟨io', hfill, hpos, herror', hunread⟩ := Unread.fillChunk sock b after
        { io with conn, chunksize := c.data.length } hchunked hkept' hlength herror hdata
      exact ⟨0, io', hfill, Int.zero_lt_one, trivial, hpos, herror', hunread, trivial⟩

/-- A body in chunks of which the length says that it is empty is not read. -/
theorem readAll_unread {sock : Socket} (hsock : ∀ i, (sock i).isSome = true) {conn : Conn}
    (hkept : conn.Kept) (b : Body) {after : Str} (hstream : conn.stream = b.write ++ after)
    (lens : List Nat) :
    ∃ io, readAll sock (funopen conn true 0) lens = some ((slices lens []).map some, io) := by
  obtain ⟨io, hread, -⟩ := readAll_spec (Unread.fills hsock b after) lens
    (⟨rfl, Nat.le_refl _, ⟨[], ⟨rfl, rfl, hkept, rfl, fun _ => .inr ⟨rfl, hstream⟩⟩, rfl⟩,
      fun h => Bool.noConfusion h⟩ : Todo (Unread b after) (funopen conn true 0) [])
  exact ⟨io, hread⟩

theorem readAll_chunked_hello :
    ∃ io, readAll (fun i => some (i % 3)) (funopen
        { wire := ['5', '\r', '\n', 'h', 'e', 'l', 'l', 'o', '\r', '\n', '0', '\r', '\n', '\r',
          '\n', 'H'] }
        true (-1)) [3, 9] = some ([some ['h', 'e', 'l'], some ['l', 'o']], io) ∧
      io.conn.stream = ['H'] := by
  have hsock : ∀ i, ((fun i => some (i % 3) : Socket) i).isSome = true := fun _ => rfl
  have hdigit : ∀ d, isDigitOf 16 d = true → ∀ c ∈ [d], isDigitOf 16 c = true := by
    intro d hd c hc
    rwa [List.mem_singleton.mp hc]
  have hext : ∀ c ∈ ['\r'].head?, c = '\x00' ∨ isspace c = true ∨ c = ';' := fun c hc => by
    obtain rfl := Option.some.inj hc
    exact .inr (.inl rfl)
  have hline : '\n' ∉ ['\r'] := by simp
  obtain ⟨chunk, hchunk⟩ : ∃ chunk : Chunk, chunk.data = ['h', 'e', 'l', 'l', 'o'] ∧
      chunk.write = ['5', '\r', '\n', 'h', 'e', 'l', 'l', 'o', '\r', '\n'] :=
    ⟨⟨['h', 'e', 'l', 'l', 'o'], ⟨['5'], ['\r'], hdigit _ rfl, rfl, by simp, hext, hline, by simp⟩,
      by simp, by decide, by decide⟩, rfl, rfl⟩
  obtain ⟨body, hbody⟩ : ∃ body : Body, body.data = ['h', 'e', 'l', 'l', 'o'] ∧
      body.write = ['5', '\r', '\n', 'h', 'e', 'l', 'l', 'o', '\r', '\n', '0', '\r', '\n', '\r',
        '\n'] :=
    ⟨⟨[chunk], ⟨['0'], ['\r'], hdigit _ rfl, rfl, by simp, hext, hline, by simp⟩, ['\r'], hline⟩,
      by rw [Body.data, List.flatMap_singleton, hchunk.1],
      by rw [Body.write, List.flatMap_singleton, hchunk.2]; rfl⟩
  have hlength : 0 ≤ (-1 : Int) → (body.data.length : Int) ≤ -1 := fun h => absurd h (by decide)
  have hstream : Conn.stream { wire := ['5', '\r', '\n', 'h', 'e', 'l', 'l', 'o', '\r', '\n', '0',
      '\r', '\n', '\r', '\n', 'H'] } = body.write ++ ['H'] := by
    rw [hbody.2]
    rfl
  obtain ⟨io, hread, hend⟩ := readAll_chunked hsock (Nat.le_refl _) body hstream hlength [3, 9]
  rw [hbody.1] at hread hend
  exact ⟨io, hread, hend (by decide)⟩

end Flappy.Http
