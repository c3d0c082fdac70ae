/-
Downloads over HTTP, one after another.

A call that is cut short leaves a `.part` file, and the next one asks for what is missing.  The
answers are about one file, each of them gives what was asked for, and anything may go wrong on
the way.

* `Outcome.Gives` — what comes to the caller of `fetchXGet` from a request and the reads;
* `Outcome.Describes.exists_gives` — there is always something that comes;
* `FetchCall.fetch_resumable` — a call keeps the `.part` file a beginning of the remote file;
* `fetchAll_whole` — over any number of calls the local file is the old one or the remote one.
-/
import Flappy.Http.Truthful

open CStr

namespace Flappy.Http

open Download

variable {remote : Str}

/-! ### What `fetchXGet` answers -/

/-- The bytes of a text. -/
def bytes (s : Str) : Bytes := s.map fun c => UInt8.ofNat c.toNat

/-- `sizeof(buf)`. -/
def bufSize : Nat := 4096

/-- The arguments are the ones for this request. -/
structure Args.For (args : Args) (req : FetchRequest) : Prop where
  offset : args.offset = req.offset
  noredirect : args.noredirect = req.flags.contains 'A'
  verbose : args.verbose = req.flags.contains 'v'

/-- What is answered when a request comes to this.  A stream has what is read until a read fails
or gives nothing. -/
inductive Outcome.Gives : Outcome → Reply (bytes remote) → Prop
  | failed (lastErrCode : Nat) (size : Int) :
    Gives (.failed lastErrCode size) (.failed lastErrCode size)
  | stream {a : Answered} {s : Stream (bytes remote)} (hsize : s.size = a.size)
    (hoffset : (s.offset : Int) = a.offset) (chunks : List Str) (io : Httpio)
    (hchunks : s.chunks = chunks.map bytes)
    (hread : readAll a.sock a.io (List.replicate (chunks.length + 1) bufSize) =
      some (chunks.map some ++ [if s.readError then none else some []], io)) :
    Gives (.stream a) (.stream s)

theorem length_bytes (s : Str) : (bytes s).length = s.length := List.length_map _

theorem bytes_flatten (chunks : List Str) : (chunks.map bytes).flatten = bytes chunks.flatten :=
  List.map_flatten.symm

/-- Pieces of one length, up to the first one that is empty, are all of a text. -/
theorem flatten_of_slices {n : Nat} (hn : 0 < n) {chunks : List Str} {d : Str}
    (h : slices (List.replicate (chunks.length + 1) n) d = chunks ++ [[]]) :
    chunks.flatten = d := by
  induction chunks generalizing d with
  | nil =>
    have htake : d.take n = [] := (List.cons.inj h).1
    rcases List.take_eq_nil_iff.mp htake with hzero | hnil
    · omega
    · exact hnil.symm
  | cons c chunks ih =>
    obtain ⟨htake, hrest⟩ := List.cons.inj h
    rw [List.flatten_cons, ih hrest, ← htake, List.take_append_drop]

/-- A stream that gives what the answer has: no read fails, and the bytes are those of the
answer. -/
theorem Outcome.Gives.stream_spec {a : Answered} {s : Stream (bytes remote)}
    (h : (Outcome.stream a).Gives (.stream s)) {sends : Nat → Str → Prop} {args : Args} {k : Nat}
    {d : Str} (hs : a.Streams remote sends args k d) :
    s.size = a.size ∧ s.offset = k ∧ s.chunks.flatten = bytes d := by
  cases h with
  | stream hsize hoffset chunks io hchunks hread =>
    refine ⟨hsize, ?_, ?_⟩
    · have hk := hs.offset
      omega
    · obtain ⟨io', hslices⟩ := hs.read (List.replicate (chunks.length + 1) bufSize)
      rw [hread] at hslices
      have hpieces := (Prod.mk.inj (Option.some.inj hslices)).1
      have hend : (if s.readError then none else some ([] : Str)) = some [] := by
        split at hpieces
        · -- what is read of the answer are pieces of it
          have hnone : (none : Option Str) ∈ (slices _ d).map some :=
            hpieces ▸ List.mem_append_right _ List.mem_cons_self
          obtain ⟨piece, -, hpiece⟩ := List.mem_map.mp hnone
          cases hpiece
        · rename_i hno
          rw [if_neg hno]
      rw [hend, ← List.map_singleton, ← List.map_append] at hpieces
      have hall := List.map_injective_iff.mpr (fun _ _ => Option.some.inj) hpieces
      rw [hchunks, bytes_flatten, flatten_of_slices (by decide) hall.symm]

theorem exists_chunks {n : Nat} (hn : 0 < n) (d : Str) : ∃ chunks : List Str,
    (∀ c ∈ chunks, c ≠ []) ∧
      slices (List.replicate (chunks.length + 1) n) d = chunks ++ [[]] := by
  induction hlen : d.length using Nat.strong_induction_on generalizing d with
  | h len ih =>
    cases d with
    | nil => exact ⟨[], fun c hc => absurd hc List.not_mem_nil, by simp [slices]⟩
    | cons x xs =>
      have hlt : ((x :: xs).drop n).length < len := by
        rw [← hlen, List.length_drop, List.length_cons]
        omega
      obtain ⟨chunks, hne, hslices⟩ := ih _ hlt _ rfl
      refine ⟨(x :: xs).take n :: chunks, fun c hc => ?_, ?_⟩
      · rcases List.mem_cons.mp hc with rfl | hc
        · rw [Ne, List.take_eq_nil_iff]
          rintro (h | h)
          · omega
          · cases h
        · exact hne c hc
      · exact congrArg ((x :: xs).take n :: ·) hslices

/-- Whatever a request comes to, if it is about the file, `fetchXGet` has an answer. -/
theorem Outcome.Describes.exists_gives {sends : Nat → Str → Prop} {args : Args} {o : Outcome}
    (h : o.Describes remote sends args) (hftp : ∀ url, o ≠ .ftp url) :
    ∃ reply : Reply (bytes remote), o.Gives reply := by
  cases o with
  | failed lastErrCode size => exact ⟨_, .failed lastErrCode size⟩
  | ftp url => exact absurd rfl (hftp url)
  | stream a =>
    obtain ⟨k, d, hs⟩ := h
    obtain ⟨chunks, hne, hslices⟩ := exists_chunks (show 0 < bufSize by decide) d
    obtain ⟨io, hread⟩ := hs.read (List.replicate (chunks.length + 1) bufSize)
    have hflatten : (chunks.map bytes).flatten = bytes d := by
      rw [bytes_flatten, flatten_of_slices (by decide) hslices]
    let s : Stream (bytes remote) := {
      size := a.size
      offset := k
      chunks := chunks.map bytes
      chunks_ne := fun buf hbuf => by
        obtain ⟨c, hc, rfl⟩ := List.mem_map.mp hbuf
        exact fun hnil => hne c hc (List.map_eq_nil_iff.mp hnil)
      size_eq := by rw [length_bytes]; exact hs.size
      delivers := by
        rw [hflatten, bytes, bytes, ← List.map_drop]
        exact hs.bytes.map _ }
    -- the reads never fail
    refine ⟨.stream s, .stream rfl hs.offset.symm chunks io rfl ?_⟩
    rw [hread, hslices, List.map_append]
    rfl

/-! ### A call -/

/-- What a server sends that is asked for the bytes from this offset on: all of them. -/
def Honours (remote : Str) (offset k : Nat) (body : Str) : Prop :=
  k = offset ∧ body = remote.drop offset

/-- A call of `flappy_fetch_file_dest_sha256`. -/
structure FetchCall (remote : Str) where
  env : FetchEnv (bytes remote)
  digestlen : Option Nat := none
  flags : Option Str := none

/-- The requests of a call go over HTTP, and what is sent is what was asked for. -/
structure FetchCall.OverHttp (call : FetchCall remote) : Prop where
  quiet : 'v' ∉ call.flags.getD []
  answers : ∀ files, ∃ env args cs o,
    Args.For args (fetchRequest call.env call.flags files) ∧
    (∀ c ∈ cs, Connect.Describes remote (Honours remote args.offset) c) ∧
    httpRequest env args cs = some o ∧
      o.Gives (call.env.fetchXGet (fetchRequest call.env call.flags files))

section
variable (sha256 : Bytes → Digest)

def FetchCall.fetch (call : FetchCall remote) (files : Files) : Fetched :=
  fetchFileDestSha256 sha256 call.env call.digestlen call.flags files

theorem stpSize_of_restart {files : Files} (h : files.restart = true) :
    files.stpSize = (files.part.getD []).length := by
  rw [Files.stpSize, h]
  cases files.dest <;> rfl

/-- What is missing is asked for. -/
theorem fetchRequest_offset (env : FetchEnv (bytes remote)) (flags : Option Str) (files : Files) :
    (fetchRequest env flags files).offset = (files.part.getD []).length := by
  rw [fetchRequest]
  cases hr : files.restart with
  | true => cases files.dest <;> exact stpSize_of_restart hr
  | false =>
    have hnil : files.part.getD [] = [] := by simpa [Files.restart] using hr
    cases hdest : files.dest with
    | some dest => simp [hnil]
    | none => simp [Files.stpSize, hdest]

/-- Only the flag `i` is added. -/
theorem fetchRequest_flags (env : FetchEnv (bytes remote)) {flags : Option Str} (files : Files)
    {c : Char} (hc : c ≠ 'i') (h : c ∉ flags.getD []) :
    (fetchRequest env flags files).flags.contains c = false := by
  have htake : c ∉ (flags.getD []).take 6 := fun hmem => h (List.mem_of_mem_take hmem)
  rw [fetchRequest]
  cases files.dest <;> cases files.restart <;> simp [htake, hc]

/-- A stream from the end of the `.part` file on fits. -/
theorem fits_of_streams {files : Files} (hpart : files.part.getD [] <+: bytes remote)
    {s : Stream (bytes remote)} (hoffset : s.offset = (files.part.getD []).length)
    (hunknown : s.size = -1 → s.offset = 0 ∧ s.chunks.flatten = bytes remote) :
    Download.Fits files s := by
  rw [Download.Fits]
  by_cases hr : resumes files s
  · rw [if_pos hr]
    exact ⟨hoffset, hpart⟩
  rw [if_neg hr]
  refine ⟨.inl ?_, fun hsize => ?_⟩
  · by_cases hsize : s.size = -1
    · exact (hunknown hsize).1
    cases hrestart : files.restart with
    | false =>
      have hnil : files.part.getD [] = [] := by simpa [Files.restart] using hrestart
      rw [hoffset, hnil, List.length_nil]
    | true =>
      -- the `.part` file is not larger than the remote one
      have hle := hpart.length_le
      have hlen : s.size = (bytes remote).length := s.size_eq.resolve_left hsize
      have hstp := stpSize_of_restart hrestart
      simp only [resumes, hrestart, Bool.true_and, Bool.and_eq_true, decide_eq_true_eq,
        not_and] at hr
      exact absurd (by omega) (hr hsize)
  · rw [(hunknown hsize).1, List.drop_zero]
    exact (hunknown hsize).2

/-- A call keeps the `.part` file a beginning of the remote file. -/
theorem FetchCall.fetch_resumable (hremote : remote.length < 9223372036854775808)
    {call : FetchCall remote} (h : call.OverHttp) {files : Files}
    (hpart : files.part.getD [] <+: bytes remote) :
    Resumable (bytes remote) (call.fetch sha256 files) := by
  rw [FetchCall.fetch]
  by_cases hb : Begins call.env call.digestlen
  swap
  · rw [fetchFileDestSha256_not_begins sha256 call.env call.digestlen files call.flags hb]
    exact ⟨hpart, fun hrv => by cases hrv⟩
  rw [fetchFileDestSha256_begins sha256 call.env call.digestlen files call.flags hb]
  -- what the request comes to is about the file, whatever has happened on the way
  obtain ⟨env, args, cs, o, hargs, hcs, ho, hgives⟩ := h.answers files
  have hdesc := httpRequest_describes hremote hcs ho
  have hoffset := fetchRequest_offset call.env call.flags files
  rw [← hargs.offset] at hoffset
  have hverbose : args.verbose = false :=
    hargs.verbose.trans (fetchRequest_flags call.env files (by decide) h.quiet)
  have hle := hpart.length_le
  rw [length_bytes] at hle
  generalize call.env.fetchXGet (fetchRequest call.env call.flags files) = reply at hgives ⊢
  cases hgives with
  | failed lastErrCode size =>
    refine fetchFailed_resumable sha256 hpart fun hproto hsize part hsome => ?_
    rw [hsome, Option.getD_some] at hpart hoffset hle
    refine hpart.eq_of_length ?_
    rw [length_bytes]
    -- a size comes with an error only if there is nothing behind the offset
    rcases hdesc hproto hverbose with hnone | ⟨-, ⟨-, hall⟩ | ⟨k, body, ⟨rfl, rfl⟩, hother⟩⟩
    · omega
    · omega
    · rw [List.length_drop] at hother
      omega
  | stream hsize hoff chunks io hchunks hread =>
    rename_i a s
    obtain ⟨k, d, hs⟩ := hdesc
    obtain ⟨hsize, hk, hbytes⟩ :=
      Outcome.Gives.stream_spec (.stream hsize hoff chunks io hchunks hread) hs
    -- the bytes start where the `.part` file ends
    have hstart : k = args.offset := hs.sent.elim (fun ⟨_, h, _⟩ => h.1) And.left
    refine fetchStream_resumable sha256 hpart
      (fits_of_streams hpart (hk.trans (hstart.trans hoffset)) fun hneg => ?_)
    obtain ⟨hzero, hd⟩ := hs.unknown (hsize.symm.trans hneg)
    exact ⟨hk.trans hzero, by rw [hbytes, hd]⟩

/-! ### One call after another -/

/-- What each of the calls returns, with the files that the one before has left. -/
def fetchAll (files : Files) : List (FetchCall remote) → List Fetched
  | [] => []
  | call :: calls => call.fetch sha256 files :: fetchAll (call.fetch sha256 files).files calls

/-- **Resumed downloads**: the answers are about the file `remote`, and each gives what was asked
for, but connections break, writes fall short and files cannot be renamed.  After each call what
is there of the file can be resumed, the file itself is the old one or the remote one, and it is
the remote one after a call that returns 1. -/
theorem fetchAll_whole (hremote : remote.length < 9223372036854775808)
    {calls : List (FetchCall remote)} (hcalls : ∀ call ∈ calls, call.OverHttp) {files : Files}
    (hpart : files.part.getD [] <+: bytes remote) :
    ∀ res ∈ fetchAll sha256 files calls, Resumable (bytes remote) res ∧
      (res.files.dest = files.dest ∨ res.files.dest = some (bytes remote)) := by
  induction calls generalizing files with
  | nil => exact fun res hres => by cases hres
  | cons call calls ih =>
    have hres := call.fetch_resumable sha256 hremote (hcalls call List.mem_cons_self) hpart
    have hdest : (call.fetch sha256 files).files.dest = files.dest ∨
        (call.fetch sha256 files).files.dest = some (bytes remote) := by
      -- only a call that returns 1 touches the file
      by_cases hrv : (call.fetch sha256 files).rv = 1
      · exact .inr (hres.dest hrv)
      · exact .inl (fetchFileDestSha256_dest sha256 call.env call.digestlen files call.flags hrv)
    intro res hmem
    rcases List.mem_cons.mp hmem with rfl | hmem
    · exact ⟨hres, hdest⟩
    · obtain ⟨hlast, hfile⟩ := ih (fun c hc => hcalls c (List.mem_cons_of_mem _ hc)) hres.part
        res hmem
      exact ⟨hlast, hfile.elim (fun h => h ▸ hdest) .inr⟩

end

/-! ### Two calls for one file -/

/-- A call that gets this stream if it asks for the bytes from there on, and else no
connection. -/
def FetchCall.resuming (s : Stream (bytes remote)) : FetchCall remote where
  env := { fetchXGet := fun req => if req.offset = s.offset then .stream s else .failed 17 (-1) }

/-- It goes over HTTP if an answer with a range gives this stream, before the connection is
closed. -/
theorem FetchCall.resuming_overHttp (s : Stream (bytes remote)) (env : Env) (url : Url)
    {sock : Socket} (hsock : ∀ i, (sock i).isSome = true) (head : Head)
    (hcode : (statusLine head.status).2 = 206)
    (hsaid : said head.lines =
      ⟨-1, some ⟨s.offset, (remote.drop s.offset).length, remote.length⟩, false⟩)
    (chunks : List Str) (hchunks : s.chunks = chunks.map bytes)
    (hsent : chunks.flatten <+: remote.drop s.offset) (hne : remote.drop s.offset ≠ [])
    (hread : ((httpRequest env { url, offset := s.offset }
        [.conn sock { wire := head.write ++ chunks.flatten } false]).bind Outcome.answered).any
      (fun a => decide (s.size = a.size ∧ (s.offset : Int) = a.offset) &&
        decide ((readAll a.sock a.io (List.replicate (chunks.length + 1) bufSize)).map Prod.fst =
          some (chunks.map some ++ [if s.readError then none else some []]))) = true) :
    (FetchCall.resuming s).OverHttp := by
  refine ⟨List.not_mem_nil, fun files => ?_⟩
  have hflags : ∀ c ≠ 'i',
      (fetchRequest (resuming s).env (resuming s).flags files).flags.contains c = false :=
    fun c hc => fetchRequest_flags (resuming s).env files hc List.not_mem_nil
  have hA := hflags 'A' (by decide)
  have hv := hflags 'v' (by decide)
  generalize fetchRequest (resuming s).env (resuming s).flags files = req at hA hv ⊢
  have hreply : (resuming s).env.fetchXGet req =
      if req.offset = s.offset then .stream s else .failed 17 (-1) := rfl
  rw [hreply]
  -- a request at another offset fails
  by_cases hoffset : req.offset = s.offset
  · rw [if_pos hoffset]
    obtain ⟨a, ha, hcheck⟩ := (Option.any_eq_true _ _).mp hread
    rw [Bool.and_eq_true, decide_eq_true_eq, decide_eq_true_eq] at hcheck
    obtain ⟨⟨hsize, hoff⟩, hall⟩ := hcheck
    obtain ⟨o, ho, ha⟩ := Option.bind_eq_some_iff.mp ha
    obtain ⟨⟨reads, io⟩, hio, rfl⟩ := Option.map_eq_some_iff.mp hall
    cases o with
    | failed code size => cases ha
    | ftp url => cases ha
    | stream a' =>
      obtain rfl := Option.some.inj ha
      refine ⟨env, { url, offset := s.offset }, _, _, ⟨hoffset.symm, hA.symm, hv.symm⟩,
        fun c hc => ?_, ho, .stream hsize hoff chunks io hchunks hio⟩
      obtain rfl := List.mem_singleton.mp hc
      -- the answer is the part from the offset to the end
      refine .answer hsock (Nat.zero_le _) head rfl ?_ (.closed (by rw [hsaid]) hsent ?_)
      · rw [hcode, hsaid]
        exact ⟨fun _ => .inl rfl, fun h => absurd h (by decide),
          fun _ => ⟨s.offset, rfl, hne, List.prefix_rfl, rfl, rfl⟩, fun h => absurd h (by decide),
          fun h => absurd h (by decide)⟩
      · rw [hsaid]
        exact .inr (.inr (by simp))
  · rw [if_neg hoffset]
    refine ⟨env, { url := ⟨schemeHttp, [], [], [], 0, []⟩, offset := req.offset }, [.failed 17], _,
      ⟨rfl, hA.symm, hv.symm⟩, fun c hc => ?_, rfl, .failed 17 (-1)⟩
    obtain rfl := List.mem_singleton.mp hc
    exact .failed 17

/-- The remote file. -/
def hello : Str := ['h', 'e', 'l', 'l', 'o']

/-- The connection breaks after one more of its characters. -/
def oneMore : Stream (bytes hello) where
  size := 5
  offset := 2
  chunks := [bytes ['l']]
  size_eq := by decide
  delivers := by decide

def theRest : Stream (bytes hello) where
  size := 5
  offset := 3
  chunks := [bytes ['l', 'o']]
  size_eq := by decide
  delivers := by decide

theorem fetchAll_whole_resumed :
    let calls := [FetchCall.resuming oneMore, FetchCall.resuming theRest]
    let files : Files := { part := some (bytes ['h', 'e']), dest := none }
    (fetchAll (fun _ => []) files calls).map Fetched.rv = [-1, 1] ∧
    ∀ res ∈ fetchAll (fun _ => []) files calls, Resumable (bytes hello) res ∧
      (res.files.dest = none ∨ res.files.dest = some (bytes hello)) := by
  intro calls files
  let url : Url := ⟨schemeHttp, [], [], ['h'], 0, ['/']⟩
  let env : Env := ⟨fun _ => none, 17, false, fun _ => 0⟩
  have hsock : ∀ i, ((fun i => some (i % 3) : Socket) i).isSome = true := fun _ => rfl
  let fromTwo : Head := ⟨"HTTP/1.1 206 OK\r".toList, ["Content-Range: bytes 2-4/5\r".toList],
    ['\r'], by decide +kernel, by decide +kernel, by decide +kernel⟩
  let fromThree : Head := ⟨"HTTP/1.1 206 OK\r".toList, ["Content-Range: bytes 3-4/5\r".toList],
    ['\r'], by decide +kernel, by decide +kernel, by decide +kernel⟩
  refine ⟨by decide +kernel, fetchAll_whole _ (by decide) (fun call hcall => ?_) (by decide)⟩
  simp only [calls, List.mem_cons, List.not_mem_nil, or_false] at hcall
  rcases hcall with rfl | rfl
  · exact FetchCall.resuming_overHttp oneMore env url hsock fromTwo (by decide +kernel)
      (by decide +kernel) [['l']] rfl (by decide) (by decide) (by decide +kernel)
  · exact FetchCall.resuming_overHttp theRest env url hsock fromThree (by decide +kernel)
      (by decide +kernel) [['l', 'o']] rfl (by decide) (by decide) (by decide +kernel)

end Flappy.Http
