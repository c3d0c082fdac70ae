/-
Downloading a file (`flappy_fetch_file_dest_sha256` in `lib/download.c`).

The bytes are written to a `.part` file, which is renamed to its place at the end.  If there
is a `.part` file already, the request asks for what is missing and the stream is appended;
the hash is fed with the file first and then with the stream.

The server, the disk and the hash function are parameters.

* `download_ok`, `download_fails` — the loop stores the stream, or a write falls short;
* `fetchFileDestSha256_dest` — the old file is left alone by every call that does not return 1;
* `fetchStream_digest` — what comes out of a stream is hashed as it is stored;
* `fetchStream_resumable` — after a stream that fits, the next call can take up what is there;
* `fetchFileDestSha256_whole_iff` — when a return value of 1 means that the file is the
  remote one, and the hash is the hash of it.
-/
import Flappy.Fetch

open CStr

namespace Flappy.Download

/-- The contents of a file. -/
abbrev Bytes := List UInt8

/-! ### What is outside -/

/-- What of the `struct url` and the flags goes into a request. -/
structure FetchRequest where
  offset : Nat
  lastModified : Int
  flags : Str

/-- A stream: some bytes of the remote file, from the offset on that is reported. -/
structure Stream (remote : Bytes) where
  /-- `url_st.size`; `-1` if it is unknown. -/
  size : Int
  /-- `url->offset` after the request. -/
  offset : Nat
  /-- What the reads return; one that returns nothing is the last. -/
  chunks : List Bytes
  chunks_ne : ∀ buf ∈ chunks, buf ≠ [] := by decide
  /-- The last read fails. -/
  readError : Bool := false
  /-- A size that is reported is the one of the remote file. -/
  size_eq : size = -1 ∨ size = remote.length
  delivers : chunks.flatten <+: remote.drop offset

/-- What `fetchXGet` answers. -/
inductive Reply (remote : Bytes) where
  | failed (lastErrCode : Nat) (size : Int)
  | stream (s : Stream remote)

/-- What a call depends on besides its arguments and the two files. -/
structure FetchEnv (remote : Bytes) where
  /-- There is a file name, and `fetchParseURL` knows the URI. -/
  parseURL : Bool := true
  /-- `stat` succeeds, or fails with `ENOENT`. -/
  statPart : Bool := true
  statDest : Bool := true
  destMtime : Int := 0
  fetchXGet : FetchRequest → Reply remote
  remove : Bool := true
  openPart : Bool := true
  readPart : Bool := true
  /-- How far the write that comes after so many bytes gets, if it falls short. -/
  write : Nat → Option Nat := fun _ => none
  futimens : Bool := true
  rename : Bool := true

/-- The `.part` file and the file itself. -/
structure Files where
  part : Option Bytes
  dest : Option Bytes

/-- The return value, the files afterwards, and what is in the buffer of the caller. -/
structure Fetched where
  rv : Int
  files : Files
  digest : Option Digest := none

/-- `FETCH_PROTO`. -/
def fetchProto : Nat := 11

/-- `FLAPPY_SHA256_DIGEST_SIZE`. -/
def sha256DigestSize : Nat := 32

/-! ### The call -/

/-- `restart`, as it is set first: there is something in the `.part` file. -/
def Files.restart (files : Files) : Bool := files.part.getD [] ≠ []

/-- `stp->st_size`. -/
def Files.stpSize (files : Files) : Nat :=
  match files.dest, files.restart with
  | some dest, false => dest.length
  | _, _ => (files.part.getD []).length

section
variable (sha256 : Bytes → Digest) {remote : Bytes} (env : FetchEnv remote)
  (digestlen : Option Nat)

/-- What is asked for. -/
def fetchRequest (flags : Option Str) (files : Files) : FetchRequest :=
  let fetchFlags := (flags.getD []).take 6
  match files.dest, files.restart with
  | some _, false => { offset := 0, lastModified := env.destMtime, flags := fetchFlags ++ ['i'] }
  | some _, true =>
    { offset := files.stpSize, lastModified := env.destMtime, flags := fetchFlags ++ ['i'] }
  | none, _ => { offset := files.stpSize, lastModified := 0, flags := fetchFlags }

/-- What the loop changes: the `.part` file, what was fed into the hash, and `bytes_dload`. -/
structure Transfer where
  part : Bytes
  fed : Bytes
  bytesDload : Nat

/-- The loop that fetches the file; `false` if a write falls short. -/
def download : List Bytes → Transfer → Transfer × Bool
  | [], t => (t, true)
  | buf :: chunks, t =>
    let fed := if digestlen.isSome then t.fed ++ buf else t.fed
    match env.write t.bytesDload with
    | some n => ({ t with part := t.part ++ buf.take n, fed }, false)
    | none =>
      download chunks { part := t.part ++ buf, fed, bytesDload := t.bytesDload + buf.length }

/-- What follows the label `rename_file`. -/
def renameFile (fed : Bytes) (files : Files) : Fetched :=
  match files.part with
  | none => { rv := -1, files }
  | some part =>
    if env.rename = false then { rv := -1, files }
    else
      { rv := 1
        files := { part := none, dest := some part }
        digest := if digestlen.isSome then some (sha256 fed) else none }

/-- What is done when there is no stream. -/
def fetchFailed (files : Files) (lastErrCode : Nat) (size : Int) : Fetched :=
  if lastErrCode = fetchUnchanged then { rv := 0, files }
  else if lastErrCode = fetchProto ∧ size = files.stpSize then
    -- nothing was fed into the hash
    renameFile sha256 env digestlen [] files
  else { rv := -1, files }

/-- `restart`, as it is when the `.part` file is opened. -/
def resumes (files : Files) (s : Stream remote) : Bool :=
  files.restart && s.size ≠ -1 && files.stpSize ≤ s.size

/-- What is in the `.part` file when it has been opened: it is cut unless it is resumed. -/
def kept (files : Files) (s : Stream remote) : Bytes :=
  if resumes files s then files.part.getD [] else []

/-- What is done with a stream. -/
def fetchStream (files : Files) (s : Stream remote) : Fetched :=
  let restart := resumes files s
  let kept := kept files s
  -- a local file that is larger than the remote one is removed
  let files :=
    if s.size ≠ -1 ∧ s.size < files.stpSize ∧ env.remove then { files with part := none }
    else files
  if env.openPart = false then { rv := -1, files }
  else if restart ∧ digestlen.isSome ∧ env.readPart = false then
    { rv := -1, files := { files with part := some kept } }
  else
    let fed := if digestlen.isSome then kept else []
    match download env digestlen s.chunks { part := kept, fed, bytesDload := 0 } with
    | (t, false) => { rv := -1, files := { files with part := some t.part } }
    | (t, true) =>
      let files := { files with part := some t.part }
      if s.readError then { rv := -1, files }
      else if 0 < s.size ∧ ((t.bytesDload + s.offset : Nat) : Int) ≠ s.size then
        { rv := -1, files }
      else if env.futimens = false then { rv := -1, files }
      else renameFile sha256 env digestlen t.fed files

/-- `flappy_fetch_file_dest_sha256`. -/
def fetchFileDestSha256 (flags : Option Str) (files : Files) : Fetched :=
  if ∃ len ∈ digestlen, len < sha256DigestSize then { rv := -1, files }
  else if env.parseURL = false then { rv := -1, files }
  else if env.statPart = false then { rv := -1, files }
  else if env.statDest = false then { rv := -1, files }
  else
    match env.fetchXGet (fetchRequest env flags files) with
    | .failed lastErrCode size => fetchFailed sha256 env digestlen files lastErrCode size
    | .stream s => fetchStream sha256 env digestlen files s

/-! ### The loop -/

/-- Every write of the loop stores what it is given. -/
def WritesAll : List Bytes → Nat → Prop
  | [], _ => True
  | buf :: chunks, n => env.write n = none ∧ WritesAll chunks (n + buf.length)

theorem download_ok {chunks : List Bytes} {t : Transfer}
    (h : WritesAll env chunks t.bytesDload) :
    download env digestlen chunks t =
      ({ part := t.part ++ chunks.flatten
         fed := if digestlen.isSome then t.fed ++ chunks.flatten else t.fed
         bytesDload := t.bytesDload + chunks.flatten.length }, true) := by
  induction chunks generalizing t with
  | nil => cases t; simp [download]
  | cons buf chunks ih =>
    obtain ⟨hw, hrest⟩ := h
    rw [download, hw]
    simp only
    rw [ih hrest]
    by_cases hd : digestlen.isSome <;> simp [hd, Nat.add_assoc]

theorem download_fails {chunks : List Bytes} {t : Transfer}
    (h : ¬ WritesAll env chunks t.bytesDload) : (download env digestlen chunks t).2 = false := by
  induction chunks generalizing t with
  | nil => exact absurd trivial h
  | cons buf chunks ih =>
    rw [download]
    cases hw : env.write t.bytesDload with
    | some n => rfl
    | none => exact ih fun hrest => h ⟨hw, hrest⟩

/-- However far the loop gets, it adds the first bytes of the stream to the `.part` file. -/
theorem download_part (chunks : List Bytes) (t : Transfer) :
    ∃ got, got <+: chunks.flatten ∧
      (download env digestlen chunks t).1.part = t.part ++ got := by
  induction chunks generalizing t with
  | nil => exact ⟨[], List.prefix_rfl, (List.append_nil _).symm⟩
  | cons buf chunks ih =>
    rw [download, List.flatten_cons]
    cases env.write t.bytesDload with
    | some n => exact ⟨buf.take n, (List.take_prefix n buf).trans (List.prefix_append _ _), rfl⟩
    | none =>
      obtain ⟨got, hgot, hpart⟩ := ih
        { part := t.part ++ buf
          fed := if digestlen.isSome then t.fed ++ buf else t.fed
          bytesDload := t.bytesDload + buf.length }
      refine ⟨buf ++ got, (List.prefix_append_right_inj buf).mpr hgot, ?_⟩
      rw [← List.append_assoc]
      exact hpart

/-! ### No stream -/

/-- The `.part` file is taken for complete, and renamed. -/
theorem fetchFailed_complete {files : Files} {part : Bytes} (hpart : files.part = some part)
    (hren : env.rename = true) :
    fetchFailed sha256 env digestlen files fetchProto files.stpSize =
      { rv := 1
        files := { part := none, dest := some part }
        digest := if digestlen.isSome then some (sha256 []) else none } := by
  rw [fetchFailed, if_neg (by decide), if_pos ⟨rfl, rfl⟩, renameFile, hpart, hren]
  rfl

theorem fetchFailed_not_complete {files : Files} {lastErrCode : Nat} {size : Int}
    (h : ¬ ((lastErrCode = fetchProto ∧ size = files.stpSize) ∧ env.rename = true ∧
      files.part.isSome)) :
    (fetchFailed sha256 env digestlen files lastErrCode size).rv ≠ 1 ∧
    (fetchFailed sha256 env digestlen files lastErrCode size).files = files := by
  have hneg : (-1 : Int) ≠ 1 := by decide
  rw [fetchFailed]
  by_cases hun : lastErrCode = fetchUnchanged
  · rw [if_pos hun]
    exact ⟨Int.zero_ne_one, rfl⟩
  rw [if_neg hun]
  by_cases hproto : lastErrCode = fetchProto ∧ size = files.stpSize
  swap
  · rw [if_neg hproto]
    exact ⟨hneg, rfl⟩
  rw [if_pos hproto, renameFile]
  cases hpart : files.part with
  | none => exact ⟨hneg, rfl⟩
  | some part =>
    have hren : env.rename = false := by
      by_contra hno
      exact h ⟨hproto, by simpa using hno, by rw [hpart]; rfl⟩
    simp only
    rw [if_pos hren]
    exact ⟨hneg, rfl⟩

/-! ### A stream -/

/-- The call gets through to the renaming, and renames. -/
structure StoredToEnd (files : Files) (s : Stream remote) : Prop where
  openPart : env.openPart = true
  readPart : resumes files s → digestlen.isSome → env.readPart = true
  writes : WritesAll env s.chunks 0
  noError : s.readError = false
  /-- No byte is missing, as far as the sizes tell. -/
  size : 0 < s.size → ((s.chunks.flatten.length + s.offset : Nat) : Int) = s.size
  futimens : env.futimens = true
  rename : env.rename = true

variable {env digestlen} {files : Files} {s : Stream remote}

theorem fetchStream_stored (h : StoredToEnd env digestlen files s) :
    fetchStream sha256 env digestlen files s =
      { rv := 1
        files := { part := none, dest := some (kept files s ++ s.chunks.flatten) }
        digest := if digestlen.isSome then some (sha256 (kept files s ++ s.chunks.flatten))
          else none } := by
  have hread : ¬ (resumes files s ∧ digestlen.isSome ∧ env.readPart = false) := by
    rintro ⟨hr, hd, hno⟩
    rw [h.readPart hr hd] at hno
    cases hno
  have hsize : ¬ (0 < s.size ∧
      ((0 + s.chunks.flatten.length + s.offset : Nat) : Int) ≠ s.size) := by
    rw [Nat.zero_add]
    exact fun ⟨hpos, hne⟩ => hne (h.size hpos)
  rw [fetchStream]
  simp only
  rw [h.openPart, if_neg (by decide), if_neg hread, download_ok env digestlen h.writes]
  simp only
  rw [h.noError, if_neg (by decide), if_neg hsize, h.futimens, if_neg (by decide), renameFile]
  simp only
  rw [h.rename, if_neg (by decide)]
  by_cases hd : digestlen.isSome
  · simp only [if_pos hd]
  · simp only [if_neg hd]

/-- A stream that is not stored to its end leaves the file as it is. -/
theorem fetchStream_not_stored (h : ¬ StoredToEnd env digestlen files s) :
    (fetchStream sha256 env digestlen files s).rv = -1 ∧
    (fetchStream sha256 env digestlen files s).files.dest = files.dest := by
  have hdest : (if s.size ≠ -1 ∧ s.size < files.stpSize ∧ env.remove then
      { files with part := none } else files).dest = files.dest := by
    split <;> rfl
  rw [fetchStream]
  simp only
  by_cases hopen : env.openPart = false
  · rw [if_pos hopen]
    exact ⟨rfl, hdest⟩
  rw [if_neg hopen]
  by_cases hread : resumes files s ∧ digestlen.isSome ∧ env.readPart = false
  · rw [if_pos hread]
    exact ⟨rfl, hdest⟩
  rw [if_neg hread]
  by_cases hw : WritesAll env s.chunks 0
  swap
  · have hfail : (download env digestlen s.chunks
        ⟨kept files s, if digestlen.isSome then kept files s else [], 0⟩).2 = false :=
      download_fails env digestlen hw
    revert hfail
    generalize download env digestlen s.chunks _ = r
    obtain ⟨t, ok⟩ := r
    rintro rfl
    exact ⟨rfl, hdest⟩
  rw [download_ok env digestlen hw]
  simp only
  by_cases herr : s.readError = true
  · rw [if_pos herr]
    exact ⟨rfl, hdest⟩
  rw [if_neg herr, Nat.zero_add]
  by_cases hsize : 0 < s.size ∧ ((s.chunks.flatten.length + s.offset : Nat) : Int) ≠ s.size
  · rw [if_pos hsize]
    exact ⟨rfl, hdest⟩
  rw [if_neg hsize]
  by_cases hfut : env.futimens = false
  · rw [if_pos hfut]
    exact ⟨rfl, hdest⟩
  rw [if_neg hfut, renameFile]
  simp only
  by_cases hren : env.rename = false
  · rw [if_pos hren]
    exact ⟨rfl, hdest⟩
  -- every step has succeeded, so the stream is stored to its end
  have hreads : resumes files s → digestlen.isSome → env.readPart = true := by
    intro hr hd
    by_contra hno
    exact hread ⟨hr, hd, by simpa using hno⟩
  have hsizes : 0 < s.size → ((s.chunks.flatten.length + s.offset : Nat) : Int) = s.size := by
    intro hpos
    by_contra hne
    exact hsize ⟨hpos, hne⟩
  exact absurd ⟨by simpa using hopen, hreads, hw, by simpa using herr, hsizes,
    by simpa using hfut, by simpa using hren⟩ h

/-- Whatever goes wrong with a stream, the `.part` file is as it was, or it is gone, or it has what
is kept and the first bytes of the stream. -/
theorem fetchStream_part :
    (fetchStream sha256 env digestlen files s).files.part = files.part ∨
    (fetchStream sha256 env digestlen files s).files.part = none ∨
    ∃ got, got <+: s.chunks.flatten ∧
      (fetchStream sha256 env digestlen files s).files.part = some (kept files s ++ got) := by
  rw [fetchStream]
  simp only
  by_cases hopen : env.openPart = false
  · rw [if_pos hopen]
    split
    · exact .inr (.inl rfl)
    · exact .inl rfl
  rw [if_neg hopen]
  -- the part that is there cannot be read for its digest
  by_cases hread : resumes files s ∧ digestlen.isSome ∧ env.readPart = false
  · rw [if_pos hread]
    exact .inr (.inr ⟨[], List.nil_prefix, by rw [List.append_nil]⟩)
  rw [if_neg hread]
  obtain ⟨got, hgot, hpart⟩ := download_part env digestlen s.chunks
    ⟨kept files s, if digestlen.isSome then kept files s else [], 0⟩
  revert hpart
  generalize download env digestlen s.chunks _ = r
  obtain ⟨t, ok⟩ := r
  intro hpart
  have hstored : some t.part = some (kept files s ++ got) := congrArg some hpart
  cases ok with
  | false => exact .inr (.inr ⟨got, hgot, hstored⟩)
  | true =>
    simp only
    -- all that came is stored; from here on only the rename takes the part away
    by_cases herr : s.readError = true
    · rw [if_pos herr]
      exact .inr (.inr ⟨got, hgot, hstored⟩)
    rw [if_neg herr]
    by_cases hsize : 0 < s.size ∧ ((t.bytesDload + s.offset : Nat) : Int) ≠ s.size
    · rw [if_pos hsize]
      exact .inr (.inr ⟨got, hgot, hstored⟩)
    rw [if_neg hsize]
    by_cases hfut : env.futimens = false
    · rw [if_pos hfut]
      exact .inr (.inr ⟨got, hgot, hstored⟩)
    rw [if_neg hfut, renameFile]
    simp only
    by_cases hren : env.rename = false
    · rw [if_pos hren]
      exact .inr (.inr ⟨got, hgot, hstored⟩)
    rw [if_neg hren]
    exact .inr (.inl rfl)

/-- What comes out of a stream is hashed as it is stored. -/
theorem fetchStream_digest (hd : digestlen.isSome)
    (h : (fetchStream sha256 env digestlen files s).rv = 1) :
    ∃ dest, (fetchStream sha256 env digestlen files s).files.dest = some dest ∧
      (fetchStream sha256 env digestlen files s).digest = some (sha256 dest) := by
  by_cases hs : StoredToEnd env digestlen files s
  · rw [fetchStream_stored sha256 hs, if_pos hd]
    exact ⟨_, rfl, rfl⟩
  · rw [(fetchStream_not_stored sha256 hs).1] at h
    cases h

/-! ### The whole file -/

/-- A stream with a size that has no byte missing goes to the end of the remote file. -/
theorem Stream.flatten_eq_drop (hsize : s.size ≠ -1)
    (h : 0 < s.size → ((s.chunks.flatten.length + s.offset : Nat) : Int) = s.size) :
    s.chunks.flatten = remote.drop s.offset := by
  have hlen : s.size = remote.length := s.size_eq.resolve_left hsize
  refine s.delivers.eq_of_length ?_
  rw [List.length_drop]
  obtain hzero | hpos := Nat.eq_zero_or_pos remote.length
  · have hle := s.delivers.length_le
    rw [List.length_drop] at hle
    omega
  · have hall := h (by omega)
    omega

/-- A stream that is appended takes up where the `.part` file ends, and that file is the
beginning of the remote one.  Otherwise the stream starts with the first byte, and it is not cut
short if its size is unknown. -/
def Fits (files : Files) (s : Stream remote) : Prop :=
  if resumes files s then
    s.offset = (files.part.getD []).length ∧ files.part.getD [] <+: remote
  else
    (s.offset = 0 ∨ remote = []) ∧ (s.size = -1 → s.chunks.flatten = remote.drop s.offset)

theorem drop_eq_self_iff {α : Type} {l : List α} {n : Nat} :
    l.drop n = l ↔ n = 0 ∨ l = [] := by
  constructor
  · intro h
    have hlen := congrArg List.length h
    rw [List.length_drop] at hlen
    obtain hzero | hpos := Nat.eq_zero_or_pos l.length
    · exact Or.inr (List.eq_nil_of_length_eq_zero hzero)
    · exact Or.inl (by omega)
  · rintro (rfl | rfl)
    · exact List.drop_zero
    · exact List.drop_nil

/-- When the bytes that are kept and those of the stream make up the remote file. -/
theorem kept_append_iff
    (h : 0 < s.size → ((s.chunks.flatten.length + s.offset : Nat) : Int) = s.size) :
    kept files s ++ s.chunks.flatten = remote ↔ Fits files s := by
  rw [kept, Fits]
  by_cases hr : resumes files s
  · obtain ⟨hpart, hsize⟩ : files.part.getD [] ≠ [] ∧ s.size ≠ -1 := by
      simp only [resumes, Files.restart, Bool.and_eq_true, decide_eq_true_eq] at hr
      exact hr.1
    have hpos := List.length_pos_of_ne_nil hpart
    have hlen : s.size = remote.length := s.size_eq.resolve_left hsize
    have hdrop := s.flatten_eq_drop hsize h
    rw [if_pos hr, if_pos hr, hdrop]
    constructor
    · -- the length of the remote file tells where the stream starts
      intro happ
      have hpre : files.part.getD [] <+: remote := happ ▸ List.prefix_append _ _
      have hsum := congrArg List.length happ
      rw [List.length_append, List.length_drop] at hsum
      have hall := h (by have := hpre.length_le; omega)
      rw [hdrop, List.length_drop] at hall
      exact ⟨by omega, hpre⟩
    · rintro ⟨hoff, hpre⟩
      rw [hoff]
      obtain ⟨rest, hrest⟩ := hpre
      rw [← hrest, List.drop_left]
  · rw [if_neg hr, if_neg hr, List.nil_append]
    -- nothing is kept: the stream is the whole file, or its length would say so
    by_cases hsize : s.size = -1
    · constructor
      · intro hdata
        have hsub : remote.Sublist (remote.drop s.offset) := by
          have hsub := s.delivers.sublist
          rwa [hdata] at hsub
        have hall : remote.drop s.offset = remote := (List.drop_sublist _ _).antisymm hsub
        exact ⟨drop_eq_self_iff.mp hall, fun _ => hdata.trans hall.symm⟩
      · rintro ⟨hstart, hdata⟩
        rw [hdata hsize, drop_eq_self_iff.mpr hstart]
    · rw [s.flatten_eq_drop hsize h, drop_eq_self_iff]
      exact (and_iff_left fun h => absurd h hsize).symm

/-! ### What can be resumed -/

/-- What a call leaves can be resumed, and one that returns 1 leaves the remote file. -/
structure Resumable (remote : Bytes) (res : Fetched) : Prop where
  part : res.files.part.getD [] <+: remote
  dest : res.rv = 1 → res.files.dest = some remote

/-- What is kept and the first bytes of a stream that fits are a beginning of the remote file. -/
theorem kept_append_prefix (hfits : Fits files s) {got : Bytes} (hgot : got <+: s.chunks.flatten) :
    kept files s ++ got <+: remote := by
  have hdel : got <+: remote.drop s.offset := hgot.trans s.delivers
  rw [Fits] at hfits
  rw [kept]
  by_cases hr : resumes files s
  · rw [if_pos hr] at hfits ⊢
    obtain ⟨hoff, rest, hrest⟩ := hfits
    rw [hoff, ← hrest, List.drop_left] at hdel
    rw [← hrest]
    exact (List.prefix_append_right_inj _).mpr hdel
  · rw [if_neg hr] at hfits ⊢
    rwa [drop_eq_self_iff.mpr hfits.1] at hdel

theorem fetchStream_resumable (hpart : files.part.getD [] <+: remote) (hfits : Fits files s) :
    Resumable remote (fetchStream sha256 env digestlen files s) := by
  constructor
  · rcases @fetchStream_part sha256 remote env digestlen files s with h | h | h
    · rwa [h]
    · rw [h]
      exact List.nil_prefix
    · obtain ⟨got, hgot, h⟩ := h
      rw [h]
      exact kept_append_prefix hfits hgot
  · intro hrv
    by_cases hs : StoredToEnd env digestlen files s
    · rw [fetchStream_stored sha256 hs]
      exact congrArg some ((kept_append_iff hs.size).mpr hfits)
    · rw [(fetchStream_not_stored sha256 hs).1] at hrv
      cases hrv

theorem fetchFailed_resumable (hpart : files.part.getD [] <+: remote) {lastErrCode : Nat}
    {size : Int} (hwhole : lastErrCode = fetchProto → size = files.stpSize →
      ∀ part ∈ files.part, part = remote) :
    Resumable remote (fetchFailed sha256 env digestlen files lastErrCode size) := by
  by_cases hc : (lastErrCode = fetchProto ∧ size = files.stpSize) ∧ env.rename = true ∧
      files.part.isSome
  · obtain ⟨⟨rfl, rfl⟩, hren, hsome⟩ := hc
    obtain ⟨part, hsome⟩ := Option.isSome_iff_exists.mp hsome
    rw [fetchFailed_complete sha256 env digestlen hsome hren]
    exact ⟨List.nil_prefix, fun _ => congrArg some (hwhole rfl rfl part hsome)⟩
  · obtain ⟨hrv, hfiles⟩ := fetchFailed_not_complete sha256 env digestlen hc
    exact ⟨by rwa [hfiles], fun h => absurd h hrv⟩

variable (env digestlen files) (flags : Option Str)

/-- The request is made: the buffer is large enough, the URI is one, and both files can be
looked at. -/
def Begins : Prop :=
  (∀ len ∈ digestlen, sha256DigestSize ≤ len) ∧ env.parseURL = true ∧ env.statPart = true ∧
    env.statDest = true

theorem fetchFileDestSha256_begins (h : Begins env digestlen) :
    fetchFileDestSha256 sha256 env digestlen flags files =
      match env.fetchXGet (fetchRequest env flags files) with
      | .failed lastErrCode size => fetchFailed sha256 env digestlen files lastErrCode size
      | .stream s => fetchStream sha256 env digestlen files s := by
  obtain ⟨hlen, hurl, hpart, hdest⟩ := h
  have hno : ¬ ∃ len ∈ digestlen, len < sha256DigestSize :=
    fun ⟨len, hmem, hlt⟩ => Nat.not_lt.mpr (hlen len hmem) hlt
  rw [fetchFileDestSha256, if_neg hno, hurl, if_neg (by decide), hpart, if_neg (by decide), hdest,
    if_neg (by decide)]

theorem fetchFileDestSha256_not_begins (h : ¬ Begins env digestlen) :
    fetchFileDestSha256 sha256 env digestlen flags files = { rv := -1, files } := by
  rw [fetchFileDestSha256]
  by_cases hlen : ∃ len ∈ digestlen, len < sha256DigestSize
  · rw [if_pos hlen]
  rw [if_neg hlen]
  by_cases hurl : env.parseURL = false
  · rw [if_pos hurl]
  rw [if_neg hurl]
  by_cases hpart : env.statPart = false
  · rw [if_pos hpart]
  rw [if_neg hpart]
  by_cases hdest : env.statDest = false
  · rw [if_pos hdest]
  refine absurd ⟨fun len hmem => ?_, by simpa using hurl, by simpa using hpart,
    by simpa using hdest⟩ h
  exact Nat.not_lt.mp fun hlt => hlen ⟨len, hmem, hlt⟩

/-- Only a call that returns 1 touches the file. -/
theorem fetchFileDestSha256_dest
    (h : (fetchFileDestSha256 sha256 env digestlen flags files).rv ≠ 1) :
    (fetchFileDestSha256 sha256 env digestlen flags files).files.dest = files.dest := by
  by_cases hb : Begins env digestlen
  swap
  · rw [fetchFileDestSha256_not_begins sha256 env digestlen files flags hb]
  rw [fetchFileDestSha256_begins sha256 env digestlen files flags hb] at h ⊢
  generalize env.fetchXGet (fetchRequest env flags files) = reply at h ⊢
  cases reply with
  | failed lastErrCode size =>
    simp only at h ⊢
    by_cases hc : (lastErrCode = fetchProto ∧ size = files.stpSize) ∧ env.rename = true ∧
        files.part.isSome
    · obtain ⟨⟨rfl, rfl⟩, hren, hsome⟩ := hc
      obtain ⟨part, hpart⟩ := Option.isSome_iff_exists.mp hsome
      exact absurd (by rw [fetchFailed_complete sha256 env digestlen hpart hren]) h
    · rw [(fetchFailed_not_complete sha256 env digestlen hc).2]
  | stream s =>
    simp only at h ⊢
    by_cases hs : StoredToEnd env digestlen files s
    · exact absurd (by rw [fetchStream_stored sha256 hs]) h
    · exact (fetchStream_not_stored sha256 hs).2

/-- A call that returns 1 has the remote file, and its hash where one is asked for. -/
def FetchedWhole : Prop :=
  let res := fetchFileDestSha256 sha256 env digestlen flags files
  res.rv = 1 →
    res.files.dest = some remote ∧ (digestlen.isSome → res.digest = some (sha256 remote))

/-- A `.part` file that is taken for complete, because of an error and a size, is the remote file,
and no hash is asked for, unless it is the one of no bytes. -/
def CompleteFits : Prop :=
  env.fetchXGet (fetchRequest env flags files) = .failed fetchProto files.stpSize →
    env.rename = true → ∀ part ∈ files.part,
      part = remote ∧ (digestlen.isSome → sha256 [] = sha256 remote)

/-- A stream that is stored to its end fits to what is kept. -/
def StreamFits : Prop :=
  ∀ s, env.fetchXGet (fetchRequest env flags files) = .stream s →
    StoredToEnd env digestlen files s → Fits files s

/-- The file is whole if and only if, when the request is made, a `.part` file taken for
complete is the remote file and not to be hashed, and a stream that is stored to its end fits. -/
theorem fetchFileDestSha256_whole_iff :
    FetchedWhole sha256 env digestlen files flags ↔
      (Begins env digestlen → CompleteFits sha256 env digestlen files flags ∧
        StreamFits env digestlen files flags) := by
  by_cases hb : Begins env digestlen
  swap
  · rw [FetchedWhole, fetchFileDestSha256_not_begins sha256 env digestlen files flags hb]
    exact iff_of_true (fun h => by cases h) (fun h => absurd h hb)
  rw [FetchedWhole, fetchFileDestSha256_begins sha256 env digestlen files flags hb, CompleteFits,
    StreamFits, forall_prop_of_true hb]
  cases env.fetchXGet (fetchRequest env flags files) with
  | failed lastErrCode size =>
    simp only [reduceCtorEq, false_implies, implies_true, and_true, Reply.failed.injEq]
    by_cases hc : (lastErrCode = fetchProto ∧ size = files.stpSize) ∧ env.rename = true ∧
        files.part.isSome
    · obtain ⟨⟨rfl, rfl⟩, hren, hsome⟩ := hc
      obtain ⟨part, hpart⟩ := Option.isSome_iff_exists.mp hsome
      rw [fetchFailed_complete sha256 env digestlen hpart hren, hpart]
      simp +contextual [hren]
    · -- the failure is passed on
      have hres := (fetchFailed_not_complete sha256 env digestlen hc).1
      refine iff_of_true (fun h => absurd h hres) fun hproto hren part hpart => ?_
      exact absurd ⟨hproto, hren, Option.isSome_iff_exists.mpr ⟨part, hpart⟩⟩ hc
  | stream s =>
    simp only [reduceCtorEq, false_implies, true_and, Reply.stream.injEq, forall_eq']
    by_cases hs : StoredToEnd env digestlen files s
    · rw [fetchStream_stored sha256 hs, forall_prop_of_true hs, ← kept_append_iff hs.size]
      simp +contextual
    · rw [(fetchStream_not_stored sha256 hs).1]
      exact iff_of_true (fun h => by cases h) (fun h => absurd h hs)

end

/-! ### Two downloads that are not whole -/

/-- The remote file. -/
def threeBytes : Bytes := [1, 2, 3]

/-- Two of its bytes are there. -/
def twoThere : Files := { part := some [1, 2], dest := none }

/-- The range is ignored: the stream starts with the first byte, and it says so. -/
def rangeIgnored : FetchEnv threeBytes where
  fetchXGet _ := .stream
    { size := 3, offset := 0, chunks := [[1, 2, 3]], size_eq := by decide, delivers := by decide }

/-- All of its bytes are there. -/
def allThere : Files := { part := some threeBytes, dest := none }

/-- The range is not satisfiable, and the size of the file is sent along. -/
def rangeNotSatisfiable : FetchEnv threeBytes where
  fetchXGet _ := .failed fetchProto 3

/-- SHA256, of no bytes and of the three. -/
def sha256Three (bytes : Bytes) : Digest :=
  if bytes = [] then
    [227, 176, 196, 66, 152, 252, 28, 20, 154, 251, 244, 200, 153, 111, 185, 36,
      39, 174, 65, 228, 100, 155, 147, 76, 164, 149, 153, 27, 120, 82, 184, 85]
  else if bytes = threeBytes then
    [3, 144, 88, 198, 242, 192, 203, 73, 44, 83, 59, 10, 77, 20, 239, 119,
      204, 15, 120, 171, 204, 206, 213, 40, 125, 132, 161, 162, 1, 28, 251, 129]
  else []

/-- A stream from the first byte on is appended to what is there, and a `.part` file that was
complete is not hashed. -/
theorem fetchFileDestSha256_not_whole :
    (∀ sha256, ¬ FetchedWhole sha256 rangeIgnored none twoThere none) ∧
    ¬ FetchedWhole sha256Three rangeNotSatisfiable (some 32) allThere none := by
  constructor
  · intro sha256 h
    have hdest : some ([1, 2, 1, 2, 3] : Bytes) = some threeBytes := (h rfl).1
    exact absurd hdest (by decide)
  · intro h
    have hdigest := (h (by decide)).2 rfl
    exact absurd hdigest (by decide)

end Flappy.Download
