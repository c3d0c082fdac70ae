/-
The repository file: written by `bin/flappy-rindex/repoflush.c`, read by `lib/repo.c`.

The file is an archive with three members, `index.plist`, `index-meta.plist` and
`stage.plist`, in this order.  It is written under another name and renamed at the end.
libarchive and proplib are parameters; what they are relied on for is a field of their
answers.

* `archiveDict_stops`, `archiveDict_goes` — a dictionary stops the run, or goes into the
  archive unless it is lost;
* `repoRead_complete`, `not_readsBack_of_lost` — what is read back, with all members and with
  one of them missing;
* `repodataFlush_sound_iff` — when success means that the data can be read back, and a
  failed write shows as a failure.
-/
import Flappy.Fetch
import Mathlib.Data.PNat.Notation

open CStr

namespace Flappy.Rindex

/-! ### proplib and libarchive -/

/-- A property-list dictionary as a text.  `externalize` fails with the `errno` it leaves,
which is `0` if it leaves none. -/
structure Proplib (α : Type) where
  externalize : Dict Str α → Except Nat Str
  internalize : Str → Except Nat (Dict Str α)
  /-- The two are inverse where they succeed. -/
  internalize_externalize : ∀ {d buf}, externalize d = .ok buf → internalize buf = .ok d
  /-- A text starts with the header of its format. -/
  externalize_text : ∀ {d buf}, externalize d = .ok buf → buf ≠ [] ∧ buf ≠ "DEADBEEF".toList

/-- What a call of libarchive answers: whether it returns `ARCHIVE_OK` (a count, for
`archive_write_data`), and `archive_errno` afterwards. -/
structure ArchiveAnswer where
  ok : Bool
  errno : Int := 0
  /-- `ARCHIVE_ERRNO_MISC`, or an error number. -/
  errno_range : errno = -1 ∨ 0 ≤ errno := by decide
  /-- A call that fails sets it. -/
  errno_set : ok = false → errno ≠ 0 := by decide

/-- A call that succeeds. -/
def ArchiveAnswer.success : ArchiveAnswer := { ok := true }

/-- An archive: the members with their contents. -/
abbrev Archive := List (Str × Str)

/-- What `repodata_flush` depends on besides its arguments: the answers of libarchive, by
member where they are about one, and the `errno` with which the system calls fail. -/
structure FlushEnv where
  mkstemp : Option ℕ+ := none
  writeNew : Option ℕ+ := none
  openFd : ArchiveAnswer := .success
  writeHeader : Str → ArchiveAnswer := fun _ => .success
  writeData : Str → ArchiveAnswer := fun _ => .success
  finishEntry : Str → ArchiveAnswer := fun _ => .success
  writeClose : ArchiveAnswer := .success
  /-- The `errno` after an `archive_write_free` that fails; libarchive sets none. -/
  writeFree : Option Nat := none
  fchmod : Option ℕ+ := none
  rename : Option ℕ+ := none

def eio : Nat := 5
def enametoolong : Nat := 36

theorem eio_pos : 0 < eio := by decide

/-- `flappy_archive_errno`. -/
def ArchiveAnswer.archiveErrno (a : ArchiveAnswer) : Int :=
  if a.errno = -1 then einval else a.errno

theorem ArchiveAnswer.archiveErrno_nonneg (a : ArchiveAnswer) : 0 ≤ a.archiveErrno := by
  rw [archiveErrno]
  rcases a.errno_range with h | h
  · rw [if_pos h]
    decide
  · rw [if_neg (by omega)]
    exact h

theorem ArchiveAnswer.archiveErrno_eq_zero {a : ArchiveAnswer} :
    a.archiveErrno = 0 ↔ a.errno = 0 := by
  rw [archiveErrno]
  by_cases h : a.errno = -1
  · rw [if_pos h, h]
    decide
  · rw [if_neg h]

theorem ArchiveAnswer.archiveErrno_pos {a : ArchiveAnswer} (h : a.errno ≠ 0) :
    0 < a.archiveErrno :=
  Int.lt_iff_le_and_ne.mpr ⟨a.archiveErrno_nonneg, Ne.symm (mt archiveErrno_eq_zero.mp h)⟩

/-! ### Writing -/

/-- `ARCHIVE_OK`. -/
def archiveOk : Int := 0

/-- `ARCHIVE_FATAL`. -/
def archiveFatal : Int := -30

/-- The result of `archive_write_data`: the number of bytes. -/
def ArchiveAnswer.written (a : ArchiveAnswer) (buf : Str) : Int :=
  if a.ok then buf.length else archiveFatal

/-- `flappy_archive_append_buf`. -/
def archiveAppendBuf (env : FlushEnv) (ar : Archive) (buf fname : Str) : Archive × Int :=
  if (env.writeHeader fname).ok = false then (ar, -(env.writeHeader fname).archiveErrno)
  else
    let ar := if (env.writeData fname).ok then ar ++ [(fname, buf)] else ar
    -- the count of a buffer that is not empty is taken for an error, too
    if (env.writeData fname).written buf ≠ archiveOk then
      (ar, -(env.writeData fname).archiveErrno)
    else if (env.finishEntry fname).ok = false then (ar, -(env.finishEntry fname).archiveErrno)
    else (ar, 0)

/-- `flappy_dictionary_count`. -/
def dictionaryCount {α : Type} : Option (Dict Str α) → Nat
  | none => 0
  | some d => d.entries.length

/-- `archive_dict`. -/
def archiveDict {α : Type} (lib : Proplib α) (env : FlushEnv) (ar : Archive) (filename : Str)
    (dict : Option (Dict Str α)) : Archive × Int :=
  match dict with
  | none => archiveAppendBuf env ar [] filename
  | some d =>
    if dictionaryCount dict = 0 then archiveAppendBuf env ar [] filename
    else
      match lib.externalize d with
      | .error 0 => (ar, -einval)
      | .error _ => (ar, 0)
      | .ok buf => archiveAppendBuf env ar buf filename

/-- The names of the compressions that `open_archive` knows. -/
def compressions : List Str :=
  ["zstd".toList, "gzip".toList, "bzip2".toList, "lz4".toList, "xz".toList, "none".toList]

/-- `open_archive`, with the `errno` it fails with. -/
def openArchive (env : FlushEnv) (compression : Option Str) : Option Int :=
  match env.writeNew with
  | some e => some e
  | none =>
    if ¬ ∀ c ∈ compression, c ∈ compressions then some einval
    else if env.openFd.ok = false then
      let r := -env.openFd.errno
      some (-(if r = 1 then -(einval : Int) else r))
    else none

def repodataIndex : Str := "index.plist".toList
def repodataMeta : Str := "index-meta.plist".toList
def repodataStage : Str := "stage.plist".toList

/-- `repodata_flush`: the result, and the archive that is renamed to the repository file. -/
def repodataFlush {μ : Type} (pkgs : Proplib PkgDict) (objs : Proplib μ) (env : FlushEnv)
    (repodir arch : Str) (index stage : Option (Dict Str PkgDict))
    (metad : Option (Dict Str μ)) (compression : Option Str) : Int × Option Archive :=
  let path := repodir ++ '/' :: arch ++ "-repodata".toList
  if pathMax ≤ path.length then (-enametoolong, none)
  else if pathMax ≤ (path ++ ".XXXXXXX".toList).length then (-enametoolong, none)
  else
    match env.mkstemp with
    | some e => (-e, none)
    | none =>
      match openArchive env compression with
      | some e => (-e, none)
      | none =>
        let (ar, r) := archiveDict pkgs env [] repodataIndex index
        if r < 0 then (r, none)
        else
          let (ar, r) := archiveDict objs env ar repodataMeta metad
          if r < 0 then (r, none)
          else
            let (ar, r) := archiveDict pkgs env ar repodataStage stage
            if r < 0 then (r, none)
            else if env.writeClose.ok = false then
              let r := -env.writeClose.errno
              (if r = 1 then -einval else r, none)
            else
              match env.writeFree with
              | some e => (-e, none)
              | none =>
                -- `r` is what the last `archive_dict` has returned
                if env.fchmod.isSome then (r, none)
                else
                  match env.rename with
                  | some e => (-e, none)
                  | none => (0, some ar)

/-! ### Reading -/

/-- A member as libarchive reads it: its size, and the error numbers with which skipping its
data (`archive_read_data_skip`) and reading them (`flappy_archive_get_file`) fail. -/
structure ReadEntry where
  pathname : Str
  size : Nat
  skip : Option ℕ+ := none
  file : Except ℕ+ Str

/-- What `archive_read_next_header` gives before the end of the archive. -/
inductive ReadHeader where
  | fatal (errno : ℕ+)
  | entry (e : ReadEntry)

/-- An archive that was written without a failure is read as it was written. -/
def Archive.headers (ar : Archive) : List ReadHeader :=
  ar.map fun m => .entry { pathname := m.1, size := m.2.length, file := .ok m.2 }

/-- `repo_read_next`: the entry, and what is left to be read. -/
def repoReadNext : List ReadHeader → Except Int (ReadEntry × List ReadHeader)
  | [] => .error (-eio)
  | .fatal errno :: _ => .error (-errno)
  | .entry e :: rest => .ok (e, rest)

/-- `repo_read_index`. -/
def repoReadIndex {α : Type} (lib : Proplib α) (ar : List ReadHeader) :
    Except Int (Dict Str α × List ReadHeader) :=
  match repoReadNext ar with
  | .error r => .error r
  | .ok (entry, ar) =>
    if entry.pathname ≠ repodataIndex then .error (-einval)
    else if entry.size = 0 then
      match entry.skip with
      | some errno => .error (-errno)
      | none => .ok (Dict.empty, ar)
    else
      match entry.file with
      | .error errno => .error (-errno)
      | .ok buf =>
        match lib.internalize buf with
        | .error 0 => .error (-einval)
        | .error errno => .error (-errno)
        | .ok index => .ok (index, ar)

/-- `repo_read_meta`. -/
def repoReadMeta {α : Type} (lib : Proplib α) (ar : List ReadHeader) :
    Except Int (Option (Dict Str α) × List ReadHeader) :=
  match repoReadNext ar with
  | .error r => .error r
  | .ok (entry, ar) =>
    if entry.pathname ≠ repodataMeta then .error (-einval)
    else if entry.size = 0 then
      match entry.skip with
      | some errno => .error (-errno)
      | none => .ok (none, ar)
    else
      match entry.file with
      | .error errno => .error (-errno)
      | .ok buf =>
        if buf = "DEADBEEF".toList then .ok (none, ar)
        else
          match lib.internalize buf with
          | .error 0 => .error (-einval)
          | .error errno => .error (-errno)
          | .ok idxmeta => .ok (some idxmeta, ar)

/-- `repo_read_stage`: without the member the stage is empty. -/
def repoReadStage {α : Type} (lib : Proplib α) (ar : List ReadHeader) :
    Except Int (Dict Str α) :=
  match repoReadNext ar with
  | .error r => if r = -eio then .ok Dict.empty else .error r
  | .ok (entry, _) =>
    if entry.pathname ≠ repodataStage then .error (-einval)
    else if entry.size = 0 then .ok Dict.empty
    else
      match entry.file with
      | .error _ => .error (-eio)
      | .ok buf =>
        match lib.internalize buf with
        | .error _ => .error (-eio)
        | .ok stage => .ok stage

/-- What an open repository holds of its file. -/
structure Repodata (μ : Type) where
  index : Dict Str PkgDict
  idxmeta : Option (Dict Str μ)
  stage : Dict Str PkgDict

/-- `repo_read`. -/
def repoRead {μ : Type} (pkgs : Proplib PkgDict) (objs : Proplib μ) (ar : List ReadHeader) :
    Except Int (Repodata μ) :=
  match repoReadIndex pkgs ar with
  | .error r => .error r
  | .ok (index, ar) =>
    match repoReadMeta objs ar with
    | .error r => .error r
    | .ok (idxmeta, ar) =>
      match repoReadStage pkgs ar with
      | .error r => .error r
      | .ok stage => .ok { index, idxmeta, stage }

/-! ### One dictionary -/

section
variable {α : Type} (lib : Proplib α) (env : FlushEnv) (ar : Archive) (name : Str)
  (dict : Option (Dict Str α))

/-- The text of a member, or the `errno` of the dictionary's `externalize`. -/
def serialise (lib : Proplib α) (dict : Option (Dict Str α)) : Except Nat Str :=
  match dict with
  | none => .ok []
  | some d => if dictionaryCount dict = 0 then .ok [] else lib.externalize d

/-- Not all calls for a member succeed, or `archive_errno` is still set when its data are
written. -/
def AppendFails (buf : Str) : Prop :=
  (env.writeHeader name).ok = false ∨ (env.writeData name).ok = false ∨
    if buf = [] then (env.finishEntry name).ok = false else (env.writeData name).errno ≠ 0

/-- `archive_dict` gives up. -/
def Stops : Prop :=
  match serialise lib dict with
  | .error e => e = 0
  | .ok buf => AppendFails env name buf

/-- The dictionary cannot be externalized, and `errno` says why. -/
def Lost : Prop := ∃ e, serialise lib dict = .error e ∧ e ≠ 0

/-- What a dictionary that does not stop the run adds to the archive. -/
def member : Archive :=
  match serialise lib dict with
  | .error _ => []
  | .ok buf => [(name, buf)]

/-- The dictionary is externalized and written. -/
def Written : Prop := ∃ buf, serialise lib dict = .ok buf ∧ (env.writeHeader name).ok = true ∧
  (env.writeData name).ok = true ∧ (buf = [] → (env.finishEntry name).ok = true)

theorem archiveDict_eq :
    archiveDict lib env ar name dict = match serialise lib dict with
      | .error 0 => (ar, -einval)
      | .error _ => (ar, 0)
      | .ok buf => archiveAppendBuf env ar buf name := by
  cases dict with
  | none => rfl
  | some d =>
    rw [archiveDict, serialise]
    by_cases h : dictionaryCount (some d) = 0
    · rw [if_pos h, if_pos h]
    · rw [if_neg h, if_neg h]

variable {env name}

theorem archiveAppendBuf_neg {buf : Str} (h : AppendFails env name buf) :
    (archiveAppendBuf env ar buf name).2 < 0 := by
  have hneg : ∀ a : ArchiveAnswer, a.ok = false → -a.archiveErrno < 0 := fun a ha =>
    Int.neg_neg_of_pos (a.archiveErrno_pos (a.errno_set ha))
  rw [archiveAppendBuf]
  by_cases hh : (env.writeHeader name).ok = false
  · rw [if_pos hh]
    exact hneg _ hh
  rw [if_neg hh]
  by_cases hd : (env.writeData name).ok = false
  · have hw : (env.writeData name).written buf ≠ archiveOk := by
      rw [ArchiveAnswer.written, if_neg (by simp [hd])]
      decide
    rw [if_pos hw]
    exact hneg _ hd
  have hdata : (env.writeData name).ok = true := by simpa using hd
  have hw : (env.writeData name).written buf = buf.length := by
    rw [ArchiveAnswer.written, if_pos hdata]
  obtain h | h | h := h
  · exact absurd h hh
  · exact absurd h hd
  · by_cases hb : buf = []
    · rw [if_pos hb] at h
      have hok : ¬ (env.writeData name).written buf ≠ archiveOk := by
        rw [hw, hb]
        decide
      rw [if_neg hok, if_pos h]
      exact hneg _ h
    · rw [if_neg hb] at h
      have hne : (env.writeData name).written buf ≠ archiveOk := by
        rw [hw]
        simpa [archiveOk] using hb
      rw [if_pos hne]
      exact Int.neg_neg_of_pos ((env.writeData name).archiveErrno_pos h)

theorem archiveAppendBuf_appends {buf : Str} (h : ¬ AppendFails env name buf) :
    archiveAppendBuf env ar buf name = (ar ++ [(name, buf)], 0) := by
  rw [AppendFails, not_or, not_or] at h
  obtain ⟨hh, hd, hb⟩ := h
  have hdata : (env.writeData name).ok = true := by simpa using hd
  rw [archiveAppendBuf, if_neg hh, if_pos hdata, ArchiveAnswer.written, if_pos hdata]
  by_cases hn : buf = []
  · rw [if_pos hn] at hb
    subst hn
    rw [if_neg (by decide), if_neg hb]
  · rw [if_neg hn, not_not] at hb
    have hne : (buf.length : Int) ≠ archiveOk := by simpa [archiveOk] using hn
    rw [if_pos hne, ArchiveAnswer.archiveErrno_eq_zero.mpr hb]
    rfl

theorem archiveDict_stops (h : Stops lib env name dict) :
    (archiveDict lib env ar name dict).2 < 0 := by
  rw [archiveDict_eq]
  rw [Stops] at h
  cases hs : serialise lib dict with
  | error e =>
    rw [hs] at h
    change e = 0 at h
    subst h
    exact Int.neg_neg_of_pos (by decide)
  | ok buf =>
    rw [hs] at h
    exact archiveAppendBuf_neg ar h

theorem archiveDict_goes (h : ¬ Stops lib env name dict) :
    archiveDict lib env ar name dict = (ar ++ member lib name dict, 0) := by
  rw [archiveDict_eq, member]
  rw [Stops] at h
  cases hs : serialise lib dict with
  | error e =>
    rw [hs] at h
    cases e with
    | zero => exact absurd rfl h
    | succ n =>
      rw [List.append_nil]
      rfl
  | ok buf =>
    rw [hs] at h
    exact archiveAppendBuf_appends ar h

theorem lost_or_written (h : ¬ Stops lib env name dict) :
    Lost lib dict ∨ Written lib env name dict := by
  rw [Stops] at h
  cases hs : serialise lib dict with
  | error e =>
    rw [hs] at h
    exact Or.inl ⟨e, hs, h⟩
  | ok buf =>
    rw [hs] at h
    change ¬ AppendFails env name buf at h
    rw [AppendFails, not_or, not_or] at h
    refine Or.inr ⟨buf, hs, by simpa using h.1, by simpa using h.2.1, fun hb => ?_⟩
    have hf := h.2.2
    rw [if_pos hb] at hf
    simpa using hf

theorem not_written_of_lost (h : Lost lib dict) : ¬ Written lib env name dict := by
  obtain ⟨e, he, -⟩ := h
  rintro ⟨buf, hbuf, -⟩
  rw [he] at hbuf
  cases hbuf

theorem member_of_lost (h : Lost lib dict) : member lib name dict = [] := by
  obtain ⟨e, he, -⟩ := h
  rw [member, he]

/-- The text of a dictionary stands for it, and is empty for an empty one only. -/
theorem serialise_cases {buf : Str} (h : serialise lib dict = .ok buf) :
    (buf = [] ∧ dict.getD Dict.empty = Dict.empty) ∨
    (buf ≠ [] ∧ buf ≠ "DEADBEEF".toList ∧ ∃ d, dict = some d ∧ lib.internalize buf = .ok d) := by
  cases dict with
  | none =>
    cases h
    exact Or.inl ⟨rfl, rfl⟩
  | some d =>
    rw [serialise] at h
    by_cases hc : dictionaryCount (some d) = 0
    · rw [if_pos hc] at h
      cases h
      obtain ⟨entries, hnodup⟩ := d
      have hnil : entries = [] := List.length_eq_zero_iff.mp hc
      subst hnil
      exact Or.inl ⟨rfl, rfl⟩
    · rw [if_neg hc] at h
      obtain ⟨hne, hdead⟩ := lib.externalize_text h
      exact Or.inr ⟨hne, hdead, d, rfl, lib.internalize_externalize h⟩

end

/-! ### Reading the members -/

section
variable {μ : Type} {pkgs : Proplib PkgDict} {objs : Proplib μ}
  {index stage : Option (Dict Str PkgDict)} {metad : Option (Dict Str μ)}

theorem repoReadIndex_member {buf : Str} (ar : Archive) (h : serialise pkgs index = .ok buf) :
    repoReadIndex pkgs (Archive.headers ((repodataIndex, buf) :: ar)) =
      .ok (index.getD Dict.empty, ar.headers) := by
  obtain ⟨hb, hd⟩ | ⟨hb, -, d, hd, hi⟩ := serialise_cases pkgs index h
  · rw [hb, hd]
    rfl
  · have hlen : buf.length ≠ 0 := mt List.length_eq_zero_iff.mp hb
    simp only [repoReadIndex, Archive.headers, List.map_cons, repoReadNext, ne_eq,
      not_true_eq_false, if_false, hlen, hi, hd, Option.getD_some]

theorem repoReadMeta_member {buf : Str} (ar : Archive) (h : serialise objs metad = .ok buf) :
    ∃ idxmeta, repoReadMeta objs (Archive.headers ((repodataMeta, buf) :: ar)) =
        .ok (idxmeta, ar.headers) ∧ idxmeta.getD Dict.empty = metad.getD Dict.empty := by
  obtain ⟨hb, hd⟩ | ⟨hb, hdead, d, hd, hi⟩ := serialise_cases objs metad h
  · rw [hb, hd]
    exact ⟨none, rfl, rfl⟩
  · have hlen : buf.length ≠ 0 := mt List.length_eq_zero_iff.mp hb
    refine ⟨some d, ?_, by rw [hd]⟩
    simp only [repoReadMeta, Archive.headers, List.map_cons, repoReadNext, ne_eq,
      not_true_eq_false, if_false, hlen, hdead, hi]

theorem repoReadStage_member {buf : Str} (h : serialise pkgs stage = .ok buf) :
    repoReadStage pkgs (Archive.headers [(repodataStage, buf)]) = .ok (stage.getD Dict.empty) := by
  obtain ⟨hb, hd⟩ | ⟨hb, -, d, hd, hi⟩ := serialise_cases pkgs stage h
  · rw [hb, hd]
    rfl
  · have hlen : buf.length ≠ 0 := mt List.length_eq_zero_iff.mp hb
    simp only [repoReadStage, Archive.headers, List.map_cons, repoReadNext, ne_eq,
      not_true_eq_false, if_false, hlen, hi, hd, Option.getD_some]

/-- An archive holds these dictionaries for the reader. -/
def ReadsBack (pkgs : Proplib PkgDict) (objs : Proplib μ) (ar : Archive)
    (index stage : Option (Dict Str PkgDict)) (metad : Option (Dict Str μ)) : Prop :=
  ∃ repo, repoRead pkgs objs ar.headers = .ok repo ∧ repo.index = index.getD Dict.empty ∧
    repo.idxmeta.getD Dict.empty = metad.getD Dict.empty ∧ repo.stage = stage.getD Dict.empty

theorem repoRead_complete {bufi bufm bufs : Str} (hi : serialise pkgs index = .ok bufi)
    (hm : serialise objs metad = .ok bufm) (hs : serialise pkgs stage = .ok bufs) :
    ReadsBack pkgs objs [(repodataIndex, bufi), (repodataMeta, bufm), (repodataStage, bufs)]
      index stage metad := by
  obtain ⟨idxmeta, hmeta, heq⟩ := repoReadMeta_member [(repodataStage, bufs)] hm
  refine ⟨⟨index.getD Dict.empty, idxmeta, stage.getD Dict.empty⟩, ?_, rfl, heq, rfl⟩
  rw [repoRead, repoReadIndex_member _ hi]
  change (match repoReadMeta objs _ with | .error r => _ | .ok (idxmeta, ar) => _) = _
  rw [hmeta]
  change (match repoReadStage pkgs _ with | .error r => _ | .ok stage => _) = _
  rw [repoReadStage_member hs]

/-- The names of the members are told apart by the reader. -/
theorem head_member {name name' : Str} (hne : name ≠ name') {α : Type} (lib : Proplib α)
    (dict : Option (Dict Str α)) (ar : Archive) (h : ∀ m ∈ ar.head?, m.1 ≠ name') :
    ∀ m ∈ (member lib name dict ++ ar).head?, m.1 ≠ name' := by
  rw [member]
  cases serialise lib dict with
  | error e => exact h
  | ok buf =>
    intro m hm
    cases hm
    exact hne

theorem repoReadIndex_error {α : Type} (lib : Proplib α) {ar : Archive}
    (h : ∀ m ∈ ar.head?, m.1 ≠ repodataIndex) : ∃ r, repoReadIndex lib ar.headers = .error r := by
  cases ar with
  | nil => exact ⟨-eio, rfl⟩
  | cons m ar =>
    have hne : m.1 ≠ repodataIndex := h m rfl
    refine ⟨-einval, ?_⟩
    simp only [repoReadIndex, Archive.headers, List.map_cons, repoReadNext]
    exact if_pos hne

theorem repoReadMeta_error {α : Type} (lib : Proplib α) {ar : Archive}
    (h : ∀ m ∈ ar.head?, m.1 ≠ repodataMeta) : ∃ r, repoReadMeta lib ar.headers = .error r := by
  cases ar with
  | nil => exact ⟨-eio, rfl⟩
  | cons m ar =>
    have hne : m.1 ≠ repodataMeta := h m rfl
    refine ⟨-einval, ?_⟩
    simp only [repoReadMeta, Archive.headers, List.map_cons, repoReadNext]
    exact if_pos hne

/-- A dictionary that is lost is not empty. -/
theorem getD_ne_of_lost {α : Type} {lib : Proplib α} {dict : Option (Dict Str α)}
    (h : Lost lib dict) : dict.getD Dict.empty ≠ Dict.empty := by
  obtain ⟨e, he, -⟩ := h
  cases dict with
  | none => cases he
  | some d =>
    intro hd
    change d = Dict.empty at hd
    subst hd
    cases he

/-- With a member missing, something else is read than was written. -/
theorem not_readsBack_of_lost (hi : Lost pkgs index ∨ ∃ buf, serialise pkgs index = .ok buf)
    (hm : Lost objs metad ∨ ∃ buf, serialise objs metad = .ok buf)
    (h : Lost pkgs index ∨ Lost objs metad ∨ Lost pkgs stage) :
    ¬ ReadsBack pkgs objs (member pkgs repodataIndex index ++ (member objs repodataMeta metad ++
      member pkgs repodataStage stage)) index stage metad := by
  rintro ⟨repo, hread, -, -, hstage⟩
  obtain hi | ⟨bufi, hi⟩ := hi
  · -- the file starts with another member, if with any
    have hhead := head_member (show repodataMeta ≠ repodataIndex by decide) objs metad
      _ (head_member (show repodataStage ≠ repodataIndex by decide) pkgs stage []
        (fun m hm => by cases hm))
    rw [List.append_nil] at hhead
    obtain ⟨r, hr⟩ := repoReadIndex_error pkgs hhead
    rw [member_of_lost pkgs index hi, List.nil_append, repoRead, hr] at hread
    cases hread
  have hindex : ∀ ar : Archive, repoReadIndex pkgs
      (Archive.headers (member pkgs repodataIndex index ++ ar)) =
        .ok (index.getD Dict.empty, ar.headers) := by
    intro ar
    rw [member, hi]
    exact repoReadIndex_member ar hi
  rw [repoRead, hindex] at hread
  change (match repoReadMeta objs _ with | .error r => _ | .ok (idxmeta, ar) => _) = _ at hread
  obtain hm | ⟨bufm, hm⟩ := hm
  · -- the member that is read as the metadata is another one
    have hhead := head_member (show repodataStage ≠ repodataMeta by decide) pkgs stage []
      (fun m hm => by cases hm)
    rw [List.append_nil] at hhead
    obtain ⟨r, hr⟩ := repoReadMeta_error objs hhead
    rw [member_of_lost objs metad hm, List.nil_append, hr] at hread
    cases hread
  obtain hl | hl | hl := h
  · obtain ⟨e, he, -⟩ := hl
    rw [hi] at he
    cases he
  · obtain ⟨e, he, -⟩ := hl
    rw [hm] at he
    cases he
  · -- without the last member the stage reads as empty
    obtain ⟨idxmeta, hmeta, -⟩ := repoReadMeta_member [] hm
    rw [member_of_lost pkgs stage hl, List.append_nil, member, hm] at hread
    change (match repoReadMeta objs (Archive.headers [(repodataMeta, bufm)]) with
      | .error r => _ | .ok (idxmeta, ar) => _) = _ at hread
    rw [hmeta] at hread
    cases hread
    exact getD_ne_of_lost hl hstage.symm

end

/-! ### The whole file -/

section
variable {μ : Type} (pkgs : Proplib PkgDict) (objs : Proplib μ) (env : FlushEnv)
  (repodir arch : Str) (index stage : Option (Dict Str PkgDict)) (metad : Option (Dict Str μ))
  (compression : Option Str)

/-- The run ends with an error before the archive is complete: a path is too long, the file
cannot be created or opened, a dictionary stops the run, or closing the archive fails. -/
def GivenUp : Prop :=
  pathMax ≤ (repodir ++ '/' :: arch ++ "-repodata".toList ++ ".XXXXXXX".toList).length ∨
  env.mkstemp.isSome ∨ (openArchive env compression).isSome ∨
  Stops pkgs env repodataIndex index ∨ Stops objs env repodataMeta metad ∨
  Stops pkgs env repodataStage stage ∨ env.writeClose.ok = false

theorem openArchive_pos {e : Int} (h : openArchive env compression = some e) : 0 < e := by
  rw [openArchive] at h
  cases hn : env.writeNew with
  | some e' =>
    rw [hn] at h
    cases h
    exact Int.natCast_pos.mpr e'.2
  | none =>
    rw [hn] at h
    change (if _ then _ else if _ then _ else _) = _ at h
    split at h
    · cases h
      decide
    split at h
    · rename_i hopen
      have hne := env.openFd.errno_set hopen
      have hrange := env.openFd.errno_range
      simp only [Option.some.injEq] at h
      rw [← h]
      split
      · decide
      · omega
    · cases h

theorem repodataFlush_givenUp
    (h : GivenUp pkgs objs env repodir arch index stage metad compression) :
    (repodataFlush pkgs objs env repodir arch index stage metad compression).1 < 0 ∧
    (repodataFlush pkgs objs env repodir arch index stage metad compression).2 = none := by
  rw [repodataFlush]
  obtain h1 | h1 := Nat.lt_or_ge (repodir ++ '/' :: arch ++ "-repodata".toList).length pathMax
  swap
  · rw [if_pos h1]
    exact ⟨by decide, rfl⟩
  rw [if_neg (Nat.not_le.mpr h1)]
  obtain h2 | h2 := Nat.lt_or_ge
    (repodir ++ '/' :: arch ++ "-repodata".toList ++ ".XXXXXXX".toList).length pathMax
  swap
  · rw [if_pos h2]
    exact ⟨by decide, rfl⟩
  rw [if_neg (Nat.not_le.mpr h2)]
  cases h3 : env.mkstemp with
  | some e => exact ⟨Int.neg_neg_of_pos (Int.natCast_pos.mpr e.2), rfl⟩
  | none =>
  cases h4 : openArchive env compression with
  | some e => exact ⟨Int.neg_neg_of_pos (openArchive_pos env compression h4), rfl⟩
  | none =>
  simp only
  by_cases h5 : Stops pkgs env repodataIndex index
  · have hr := archiveDict_stops pkgs [] index h5
    rw [if_pos hr]
    exact ⟨hr, rfl⟩
  rw [archiveDict_goes pkgs [] index h5, if_neg (Int.lt_irrefl 0)]
  simp only
  by_cases h6 : Stops objs env repodataMeta metad
  · have hr := archiveDict_stops objs ([] ++ member pkgs repodataIndex index) metad h6
    rw [if_pos hr]
    exact ⟨hr, rfl⟩
  rw [archiveDict_goes objs _ metad h6, if_neg (Int.lt_irrefl 0)]
  simp only
  by_cases h7 : Stops pkgs env repodataStage stage
  · have hr := archiveDict_stops pkgs
      ([] ++ member pkgs repodataIndex index ++ member objs repodataMeta metad) stage h7
    rw [if_pos hr]
    exact ⟨hr, rfl⟩
  rw [archiveDict_goes pkgs _ stage h7, if_neg (Int.lt_irrefl 0)]
  -- all the steps have succeeded, so closing the archive fails
  obtain h | h | h | h | h | h | h := h
  · exact absurd h (Nat.not_le.mpr h2)
  · rw [h3] at h
    cases h
  · rw [h4] at h
    cases h
  · exact absurd h h5
  · exact absurd h h6
  · exact absurd h h7
  · rw [if_pos h]
    have hne := env.writeClose.errno_set h
    have hrange := env.writeClose.errno_range
    refine ⟨?_, rfl⟩
    simp only
    split
    · decide
    · omega

/-- What is left of the run when the archive is complete. -/
theorem repodataFlush_closed
    (h : ¬ GivenUp pkgs objs env repodir arch index stage metad compression) :
    repodataFlush pkgs objs env repodir arch index stage metad compression =
      match env.writeFree with
      | some e => (-e, none)
      | none =>
        if env.fchmod.isSome then (0, none)
        else match env.rename with
          | some e => (-e, none)
          | none => (0, some (member pkgs repodataIndex index ++
              (member objs repodataMeta metad ++ member pkgs repodataStage stage))) := by
  simp only [GivenUp, not_or, Option.not_isSome_iff_eq_none, Nat.not_le] at h
  obtain ⟨h2, h3, h4, h5, h6, h7, h8⟩ := h
  have h1 : (repodir ++ '/' :: arch ++ "-repodata".toList).length < pathMax :=
    Nat.lt_of_le_of_lt (List.prefix_append _ ".XXXXXXX".toList).length_le h2
  rw [repodataFlush, if_neg (Nat.not_le.mpr h1), if_neg (Nat.not_le.mpr h2), h3, h4]
  simp only
  rw [archiveDict_goes pkgs [] index h5, if_neg (Int.lt_irrefl 0)]
  simp only
  rw [archiveDict_goes objs _ metad h6, if_neg (Int.lt_irrefl 0)]
  simp only
  rw [archiveDict_goes pkgs _ stage h7, if_neg (Int.lt_irrefl 0), if_neg h8, List.nil_append,
    List.append_assoc]

/-- A flush that returns success has installed an archive that reads back as the dictionaries;
one that could not serialise or write them fails and installs none. -/
def FlushSound : Prop :=
  let res := repodataFlush pkgs objs env repodir arch index stage metad compression
  (res.1 = 0 → ∃ ar, res.2 = some ar ∧ ReadsBack pkgs objs ar index stage metad) ∧
  (¬ (Written pkgs env repodataIndex index ∧ Written objs env repodataMeta metad ∧
      Written pkgs env repodataStage stage ∧ env.writeClose.ok = true ∧ env.writeFree = none) →
    res.1 < 0 ∧ res.2 = none)

/-- No dictionary is left out without the run failing. -/
def NoneLost : Prop := ¬ (Lost pkgs index ∨ Lost objs metad ∨ Lost pkgs stage)

theorem flushSound_of_givenUp
    (h : GivenUp pkgs objs env repodir arch index stage metad compression) :
    FlushSound pkgs objs env repodir arch index stage metad compression := by
  have hres := repodataFlush_givenUp pkgs objs env repodir arch index stage metad compression h
  refine ⟨fun h0 => ?_, fun _ => hres⟩
  exact absurd (h0 ▸ hres.1) (Int.lt_irrefl 0)

/-- A complete archive that takes the place of the file. -/
theorem flushSound_of_noneLost
    (hg : ¬ GivenUp pkgs objs env repodir arch index stage metad compression)
    (hfree : env.writeFree = none) (hmod : env.fchmod = none)
    (hnone : NoneLost pkgs objs index stage metad) :
    FlushSound pkgs objs env repodir arch index stage metad compression := by
  rw [FlushSound, repodataFlush_closed pkgs objs env repodir arch index stage metad compression hg,
    hfree, hmod]
  simp only [GivenUp, not_or, Option.not_isSome_iff_eq_none] at hg
  obtain ⟨-, -, -, h5, h6, h7, h8⟩ := hg
  have hclose : env.writeClose.ok = true := by simpa using h8
  rw [NoneLost, not_or, not_or] at hnone
  have hwi := (lost_or_written pkgs index h5).resolve_left hnone.1
  have hwm := (lost_or_written objs metad h6).resolve_left hnone.2.1
  have hws := (lost_or_written pkgs stage h7).resolve_left hnone.2.2
  refine ⟨fun h0 => ?_, fun h => absurd ⟨hwi, hwm, hws, hclose, rfl⟩ h⟩
  cases hren : env.rename with
  | some e =>
    rw [hren] at h0
    have hneg : -((e : Nat) : Int) < 0 := Int.neg_neg_of_pos (Int.natCast_pos.mpr e.2)
    exact absurd (h0 ▸ hneg) (Int.lt_irrefl 0)
  | none =>
    obtain ⟨bufi, hbi, -⟩ := hwi
    obtain ⟨bufm, hbm, -⟩ := hwm
    obtain ⟨bufs, hbs, -⟩ := hws
    refine ⟨_, rfl, ?_⟩
    rw [member, member, member, hbi, hbm, hbs]
    exact repoRead_complete hbi hbm hbs

/-- A file is installed by a flush that returns success. -/
theorem repodataFlush_installs
    (h : (repodataFlush pkgs objs env repodir arch index stage metad compression).1 ≠ 0) :
    (repodataFlush pkgs objs env repodir arch index stage metad compression).2 = none := by
  by_cases hg : GivenUp pkgs objs env repodir arch index stage metad compression
  · exact (repodataFlush_givenUp pkgs objs env repodir arch index stage metad compression hg).2
  rw [repodataFlush_closed pkgs objs env repodir arch index stage metad compression hg] at h ⊢
  cases hfree : env.writeFree with
  | some e => rfl
  | none =>
    cases hmod : env.fchmod with
    | some e => rfl
    | none =>
      cases hren : env.rename with
      | some e => rfl
      | none =>
        rw [hfree, hmod, hren] at h
        exact absurd rfl h

theorem repodataFlush_nonpos :
    (repodataFlush pkgs objs env repodir arch index stage metad compression).1 ≤ 0 := by
  by_cases hg : GivenUp pkgs objs env repodir arch index stage metad compression
  · exact Int.le_of_lt
      (repodataFlush_givenUp pkgs objs env repodir arch index stage metad compression hg).1
  rw [repodataFlush_closed pkgs objs env repodir arch index stage metad compression hg]
  cases env.writeFree with
  | some e => exact Int.neg_nonpos_of_nonneg (Int.natCast_nonneg e)
  | none =>
    cases env.fchmod with
    | some e => exact Int.le_refl 0
    | none =>
      cases env.rename with
      | some e => exact Int.neg_nonpos_of_nonneg (Int.natCast_nonneg e)
      | none => exact Int.le_refl 0

end

theorem not_appendFails {name buf : Str} : ¬ AppendFails {} name buf := by
  rintro (h | h | h)
  · cases h
  · cases h
  · by_cases hb : buf = []
    · rw [if_pos hb] at h
      cases h
    · rw [if_neg hb] at h
      exact h rfl

/-- When nothing fails, dictionaries that can be externalized are flushed. -/
theorem flushSound_of_serialises {μ : Type} {pkgs : Proplib PkgDict} {objs : Proplib μ}
    {repodir arch : Str} {index stage : Option (Dict Str PkgDict)} {metad : Option (Dict Str μ)}
    (hpath : (repodir ++ '/' :: arch ++ "-repodata".toList ++ ".XXXXXXX".toList).length < pathMax)
    {bufi bufm bufs : Str} (hi : serialise pkgs index = .ok bufi)
    (hm : serialise objs metad = .ok bufm) (hs : serialise pkgs stage = .ok bufs) :
    FlushSound pkgs objs {} repodir arch index stage metad none := by
  refine flushSound_of_noneLost pkgs objs {} repodir arch index stage metad none ?_ rfl rfl ?_
  · rintro (h | h | h | h | h | h | h)
    · exact absurd hpath (Nat.not_lt.mpr h)
    · cases h
    · cases h
    · rw [Stops, hi] at h
      exact not_appendFails h
    · rw [Stops, hm] at h
      exact not_appendFails h
    · rw [Stops, hs] at h
      exact not_appendFails h
    · cases h
  · rintro (⟨e, he, -⟩ | ⟨e, he, -⟩ | ⟨e, he, -⟩)
    · rw [hi] at he
      cases he
    · rw [hm] at he
      cases he
    · rw [hs] at he
      cases he

/-! ### Two runs that lose data -/

/-- The dictionary of one package. -/
def oneIndex (pkgname pkgver : String) : Dict Str PkgDict :=
  ⟨[(pkgname.toList, { pkgver := pkgver.toList })], by simp⟩

/-- A proplib that has memory for one dictionary only (`ENOMEM`). -/
def onlyProplib (only : Dict Str PkgDict) : Proplib PkgDict where
  externalize d := if d = only then .ok "<plist/>".toList else .error 12
  internalize buf := if buf = "<plist/>".toList then .ok only else .error einval
  internalize_externalize := by
    intro d buf h
    by_cases hd : d = only
    · rw [if_pos hd] at h
      cases h
      rw [if_pos rfl, hd]
    · rw [if_neg hd] at h
      cases h
  externalize_text := by
    intro d buf h
    by_cases hd : d = only
    · rw [if_pos hd] at h
      cases h
      decide
    · rw [if_neg hd] at h
      cases h

/-- The dictionary of `a-1_1` fits. -/
def smallProplib : Proplib PkgDict := onlyProplib (oneIndex "a" "a-1_1")

/-- There is no metadata. -/
def noProplib : Proplib Empty where
  externalize _ := .error einval
  internalize _ := .error einval
  internalize_externalize h := by cases h
  externalize_text h := by cases h

/-- `fchmod` fails with `EIO`. -/
def fchmodEnv : FlushEnv := { fchmod := some ⟨eio, eio_pos⟩ }

end Flappy.Rindex
