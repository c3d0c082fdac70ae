/-
Unpacking a binary package (`unpack_archive` and `flappy_unpack_binary_pkg` in
`lib/package_unpack.c`), and what becomes of the stored file list.

The list is `.<pkgname>-files.plist` in the metadata directory.  It is replaced by the
`files.plist` of the archive at the end, and removed if the archive's list is empty; the last
block of the function is reached by the runs that fail, too.  Where no list has been read, this block
removes the stored list as well, and then releases the list that is not there, which ends the
process.

The archive is a list of headers.  The disk answers for each of them anew, and a path that
is removed or unpacked may name the list itself.

* `readFilesd_listed`, `unpackLoop_unpacks`, `unpackLoop_stopsAt` — the two loops;
* `unpackArchive_listKept_iff` — when a run that fails leaves the list as it was, and one
  that succeeds leaves the list of the archive;
* `unpackBinaryPkg_stored` — around it, nothing touches the list.
-/
import Flappy.ConfigFiles
import Mathlib.Data.PNat.Notation

open CStr

namespace Flappy.Unpack

/-- The number of an error. -/
def errnoCode : Errno → Nat
  | .eacces => 13
  | .eagain => 11
  | .ebusy => 16
  | .eexist => 17
  | .einval => 22
  | .eloop => 40
  | .enodev => 19
  | .enoent => 2
  | .enoexec => 8
  | .enospc => 28
  | .enotempty => 39
  | .enotsup => 95
  | .enxio => 6
  | .eperm => 1
  | .erange => 34

/-- `ARCHIVE_FATAL`. -/
def archiveFatal : Int := -30

/-! ### The archive -/

/-- A file list with the keys of its dictionary. -/
structure FilesPlist where
  filesd : FilesDict
  keys : List Str
  eq_empty : keys = [] → filesd = {}

/-- A member of an archive. -/
structure Member where
  entry : ArchiveEntry
  /-- What `flappy_archive_get_dictionary` makes of its data. -/
  dictionary : Option FilesPlist := none
  /-- What is at its path after an extraction, complete or not. -/
  leaves : Option Str := none

/-- What `archive_read_next_header` gives before the end of the archive: `ARCHIVE_FATAL`, or
an entry, which has a pathname or not. -/
inductive NextHeader where
  | fatal
  | member (retry : Bool) (m : Option Member)

/-- Writing and reading a file list. -/
structure FilesProplib where
  /-- `flappy_dictionary_externalize_to_file`: the contents of the file, or the `errno` of a
  failure, which leaves the file alone. -/
  externalizeToFile : FilesPlist → Except Nat Str
  internalize : Str → Option FilesPlist
  internalize_externalize : ∀ {d text},
    externalizeToFile d = .ok text → internalize text = some d

/-- What a run depends on besides the archive and the stored list. -/
structure ArchiveEnv where
  plists : FilesProplib
  /-- What is found on the disk at each header. -/
  disk : Nat → UnpackEnv
  /-- Does a path name the stored list? -/
  names : Str → Bool := fun _ => false
  /-- `obsolete_files` of the transaction. -/
  obsd : Dict Str (List Str) := Dict.empty
  /-- Does `remove` succeed for an obsolete path? -/
  removeObsolete : Str → Bool := fun _ => true
  /-- `flappy_pkgdb_get_pkg_files`. -/
  pkgFilesd : Option FilesDict := none
  unlink : Bool := true

def installName : Str := "./INSTALL".toList
def removeName : Str := "./REMOVE".toList
def propsName : Str := "./props.plist".toList
def filesName : Str := "./files.plist".toList

def enodev : Nat := 19

/-! ### The run -/

/-- The loop that reads the metadata files, with the error that it ends in.  `none` if a
header has no pathname. -/
def readFilesd : Nat → List NextHeader → Option (Except Nat (FilesPlist × List NextHeader))
  | 0, _ => some (.error enodev)
  | _ + 1, [] => some (.error enodev)
  | _ + 1, .fatal :: _ => some (.error einval)
  | _ + 1, .member _ none :: _ => none
  | i + 1, .member _ (some m) :: ar =>
    if m.entry.pathname = installName ∨ m.entry.pathname = removeName ∨
        m.entry.pathname = propsName then readFilesd i ar
    else if m.entry.pathname = filesName then
      match m.dictionary with
      | none => some (.error einval)
      | some d => some (.ok (d, ar))
    else some (.error enodev)

section
variable (env : ArchiveEnv) (pkgRepod : PkgDict) (d : FilesPlist)

/-- What the removal of the obsolete files does to the list. -/
def removeObsoletes (pkgname : Str) (stored : Option Str) : Option Str :=
  if pkgRepod.preserve.getD false then stored
  else
    (obsoletesOf env.obsd pkgname).foldl
      (fun stored path => if env.names path && env.removeObsolete path then none else stored)
      stored

/-- What a change to the disk does to the list. -/
def opOnList (disk : UnpackEnv) (leaves stored : Option Str) : UnpackOp → Option Str
  | .remove path => if env.names path && disk.remove path then none else stored
  | .extract path => if env.names path then leaves else stored
  | .lchown _ => stored
  | .chmod _ => stored

/-- How the loop body ends; 0 if the loop goes on. -/
def entryRv : EntryRv → Int
  | .next => 0
  | .error => -1
  | .chmodFailed => einval
  | .extractFailed e => errnoCode e

/-- The loop body: what it does to the list, and how it ends. -/
def unpackHeader (n : Nat) (stored : Option Str) : NextHeader → Option (Option Str × Int)
  | .fatal => some (stored, archiveFatal)
  | .member true _ => some (stored, 0)
  | .member false none => none
  | .member false (some m) =>
    (unpackEntry (env.disk n) d.filesd env.pkgFilesd pkgRepod.pkgver m.entry).map fun r =>
      (r.1.foldl (opOnList env (env.disk n) m.leaves) stored, entryRv r.2)

/-- The loop that unpacks the files. -/
def unpackLoop : List NextHeader → Nat → Option Str → Option (Option Str × Int)
  | [], _, stored => some (stored, 0)
  | h :: ar, n, stored =>
    match unpackHeader env pkgRepod d n stored h with
    | none => none
    | some (stored, rv) => if rv ≠ 0 then some (stored, rv) else unpackLoop ar (n + 1) stored

/-- From the second loop to the label `out`. -/
def unpackFiles (ar : List NextHeader) (stored : Option Str) : Option (Option Str × Int) :=
  match unpackLoop env pkgRepod d ar 0 stored with
  | none => none
  | some (stored, rv) =>
    if rv ≠ 0 then some (stored, rv)
    else if d.keys = [] then some (stored, 0)
    else
      match env.plists.externalizeToFile d with
      | .ok text => some (some text, 0)
      | .error errno => some (stored, errno)

/-- What follows the label `out`: the stored list is removed if that of the archive is
empty. -/
def out (binpkgFilesd : FilesPlist) (stored : Option Str) : Option Str :=
  if binpkgFilesd.keys = [] then if env.unlink then none else stored else stored

/-- `unpack_archive`: the stored list afterwards, and the return value.  `none` if the run is
cut off by an assertion. -/
def unpackArchive (ar : List NextHeader) (stored : Option Str) : Option (Option Str × Int) :=
  match pkgRepod.pkgname with
  | none => some (stored, einval)
  | some pkgname =>
    let stored := removeObsoletes env pkgRepod pkgname stored
    match readFilesd 4 ar with
    | none => none
    -- `flappy_object_release` asserts that there is an object
    | some (.error _) => none
    | some (.ok (d, ar)) =>
      (unpackFiles env pkgRepod d ar stored).map fun r => (out env d r.1, r.2)

end

/-! ### The first loop -/

/-- A member that comes before the file list. -/
def NextHeader.IsMeta (h : NextHeader) : Prop :=
  ∃ retry m, h = .member retry (some m) ∧ (m.entry.pathname = installName ∨
    m.entry.pathname = removeName ∨ m.entry.pathname = propsName)

/-- The archive has a readable file list among the first members. -/
def Listed (i : Nat) (ar : List NextHeader) (d : FilesPlist) (rest : List NextHeader) : Prop :=
  ∃ pre retry m, ar = pre ++ .member retry (some m) :: rest ∧ pre.length < i ∧
    (∀ h ∈ pre, h.IsMeta) ∧ m.entry.pathname = filesName ∧ m.dictionary = some d

/-- The `files.plist` of an archive. -/
def filesPlist : List NextHeader → Option FilesPlist
  | .member _ (some m) :: ar =>
    if m.entry.pathname = filesName then m.dictionary else filesPlist ar
  | _ :: ar => filesPlist ar
  | [] => none

section
variable {i : Nat} {ar rest : List NextHeader} {d : FilesPlist} {retry : Bool} {m : Member}

theorem readFilesd_meta (h : NextHeader.IsMeta (.member retry (some m))) :
    readFilesd (i + 1) (.member retry (some m) :: ar) = readFilesd i ar := by
  obtain ⟨retry', m', heq, hmeta⟩ := h
  cases heq
  rw [readFilesd, if_pos hmeta]

theorem Listed.cons {h : NextHeader} (hmeta : h.IsMeta) (hl : Listed i ar d rest) :
    Listed (i + 1) (h :: ar) d rest := by
  obtain ⟨pre, retry, m, har, hlen, hpre, hm⟩ := hl
  refine ⟨h :: pre, retry, m, by rw [har]; rfl, Nat.succ_lt_succ hlen, ?_, hm⟩
  exact fun h' hmem => (List.mem_cons.mp hmem).elim (fun heq => heq ▸ hmeta) (hpre h')

/-- The members before `files.plist` use up a turn each. -/
theorem readFilesd_append {pre : List NextHeader} (hpre : ∀ h ∈ pre, h.IsMeta) :
    readFilesd (pre.length + i) (pre ++ ar) = readFilesd i ar := by
  induction pre with
  | nil => rw [List.length_nil, Nat.zero_add, List.nil_append]
  | cons h pre ih =>
    have hmeta := hpre h (List.mem_cons_self ..)
    obtain ⟨retry', m', rfl, -⟩ := id hmeta
    rw [List.length_cons, Nat.add_right_comm, List.cons_append, readFilesd_meta hmeta]
    exact ih fun h' hmem => hpre h' (List.mem_cons_of_mem _ hmem)

theorem readFilesd_listed (h : Listed i ar d rest) : readFilesd i ar = some (.ok (d, rest)) := by
  obtain ⟨pre, retry, m, rfl, hlen, hpre, hname, hd⟩ := h
  obtain ⟨n, rfl⟩ : ∃ n, i = pre.length + (n + 1) := ⟨i - pre.length - 1, by omega⟩
  rw [readFilesd_append hpre, readFilesd, hname, if_neg (by decide), if_pos rfl, hd]

/-- The other ways out of the loop are errors and an assertion. -/
theorem readFilesd_unlisted (hl : ∀ d rest, ¬ Listed i ar d rest) :
    readFilesd i ar = none ∨ ∃ rv, readFilesd i ar = some (.error rv) := by
  induction i generalizing ar with
  | zero => exact Or.inr ⟨enodev, rfl⟩
  | succ i ih =>
    match ar with
    | [] => exact Or.inr ⟨enodev, rfl⟩
    | .fatal :: _ => exact Or.inr ⟨einval, rfl⟩
    | .member _ none :: _ => exact Or.inl rfl
    | .member retry (some m) :: ar =>
      by_cases hmeta : NextHeader.IsMeta (.member retry (some m))
      · rw [readFilesd_meta hmeta]
        exact ih fun d rest h => hl d rest (h.cons hmeta)
      have hno : ¬ (m.entry.pathname = installName ∨ m.entry.pathname = removeName ∨
          m.entry.pathname = propsName) := fun h => hmeta ⟨retry, m, rfl, h⟩
      rw [readFilesd, if_neg hno]
      by_cases hname : m.entry.pathname = filesName
      swap
      · rw [if_neg hname]
        exact Or.inr ⟨enodev, rfl⟩
      rw [if_pos hname]
      cases hd : m.dictionary with
      | none => exact Or.inr ⟨einval, rfl⟩
      | some d =>
        exact absurd ⟨[], retry, m, rfl, Nat.succ_pos i, List.forall_mem_nil _, hname, hd⟩
          (hl d ar)

/-- The list that is read is the one of the archive. -/
theorem Listed.filesPlist (h : Listed i ar d rest) : filesPlist ar = some d := by
  obtain ⟨pre, retry, m, rfl, -, hpre, hname, hd⟩ := h
  induction pre with
  | nil => rw [List.nil_append, Unpack.filesPlist, if_pos hname, hd]
  | cons h pre ih =>
    obtain ⟨retry', m', rfl, hm'⟩ := hpre h (List.mem_cons_self ..)
    have hno : m'.entry.pathname ≠ filesName := by
      obtain hm' | hm' | hm' := hm' <;> rw [hm'] <;> decide
    rw [List.cons_append, Unpack.filesPlist, if_neg hno]
    exact ih fun h' hmem => hpre h' (List.mem_cons_of_mem _ hmem)

end

/-! ### The second loop -/

section
variable (env : ArchiveEnv) (pkgRepod : PkgDict) (d : FilesPlist)

/-- How the body ends for a header: 0 if the loop goes on, `none` if the run is cut off. -/
def headerRv (n : Nat) : NextHeader → Option Int
  | .fatal => some archiveFatal
  | .member true _ => some 0
  | .member false none => none
  | .member false (some m) =>
    (unpackEntry (env.disk n) d.filesd env.pkgFilesd pkgRepod.pkgver m.entry).map
      fun r => entryRv r.2

/-- What the body leaves of the list. -/
def headerLeaves (n : Nat) (stored : Option Str) : NextHeader → Option Str
  | .member false (some m) =>
    match unpackEntry (env.disk n) d.filesd env.pkgFilesd pkgRepod.pkgver m.entry with
    | none => stored
    | some (ops, _) => ops.foldl (opOnList env (env.disk n) m.leaves) stored
  | _ => stored

theorem unpackHeader_eq (n : Nat) (stored : Option Str) (h : NextHeader) :
    unpackHeader env pkgRepod d n stored h =
      (headerRv env pkgRepod d n h).map
        fun rv => (headerLeaves env pkgRepod d n stored h, rv) := by
  match h with
  | .fatal => rfl
  | .member true _ => rfl
  | .member false none => rfl
  | .member false (some m) =>
    rw [unpackHeader, headerRv, headerLeaves]
    cases unpackEntry (env.disk n) d.filesd env.pkgFilesd pkgRepod.pkgver m.entry with
    | none => rfl
    | some r => rfl

/-- What the loop leaves of the list when it goes through these headers. -/
def leaves : List NextHeader → Nat → Option Str → Option Str
  | [], _, stored => stored
  | h :: ar, n, stored => leaves ar (n + 1) (headerLeaves env pkgRepod d n stored h)

/-- Every file is unpacked. -/
def Unpacks : List NextHeader → Nat → Prop
  | [], _ => True
  | h :: ar, n => headerRv env pkgRepod d n h = some 0 ∧ Unpacks ar (n + 1)

/-- The loop stops with an error at the `k`th header. -/
def StopsAt : List NextHeader → Nat → Nat → Prop
  | [], _, _ => False
  | h :: _, n, 0 => ∃ rv, rv ≠ 0 ∧ headerRv env pkgRepod d n h = some rv
  | h :: ar, n, k + 1 => headerRv env pkgRepod d n h = some 0 ∧ StopsAt ar (n + 1) k

variable {env pkgRepod d} {ar : List NextHeader} {n k : Nat} {stored : Option Str}

theorem unpackLoop_next {h : NextHeader} (hrv : headerRv env pkgRepod d n h = some 0) :
    unpackLoop env pkgRepod d (h :: ar) n stored =
      unpackLoop env pkgRepod d ar (n + 1) (headerLeaves env pkgRepod d n stored h) := by
  rw [unpackLoop, unpackHeader_eq, hrv]
  rfl

theorem unpackLoop_unpacks (hu : Unpacks env pkgRepod d ar n) :
    unpackLoop env pkgRepod d ar n stored = some (leaves env pkgRepod d ar n stored, 0) := by
  induction ar generalizing n stored with
  | nil => rfl
  | cons h ar ih =>
    rw [unpackLoop_next hu.1]
    exact ih hu.2

theorem unpackLoop_stopsAt (hs : StopsAt env pkgRepod d ar n k) :
    ∃ rv, rv ≠ 0 ∧ unpackLoop env pkgRepod d ar n stored =
      some (leaves env pkgRepod d (ar.take (k + 1)) n stored, rv) := by
  induction ar generalizing n k stored with
  | nil => exact absurd hs id
  | cons h ar ih =>
    cases k with
    | zero =>
      obtain ⟨rv, hrv, hstop⟩ := hs
      refine ⟨rv, hrv, ?_⟩
      rw [unpackLoop, unpackHeader_eq, hstop]
      exact if_pos hrv
    | succ k =>
      rw [unpackLoop_next hs.1]
      exact ih hs.2

/-- The loop goes through the archive, or stops, or is cut off. -/
theorem unpackLoop_none (hu : ¬ Unpacks env pkgRepod d ar n)
    (hs : ∀ k, ¬ StopsAt env pkgRepod d ar n k) :
    unpackLoop env pkgRepod d ar n stored = none := by
  induction ar generalizing n stored with
  | nil => exact absurd trivial hu
  | cons h ar ih =>
    cases hrv : headerRv env pkgRepod d n h with
    | none =>
      rw [unpackLoop, unpackHeader_eq, hrv]
      rfl
    | some rv =>
      by_cases h0 : rv = 0
      · subst h0
        rw [unpackLoop_next hrv]
        exact ih (fun hu' => hu ⟨hrv, hu'⟩) fun k hk => hs (k + 1) ⟨hrv, hk⟩
      · exact absurd ⟨rv, h0, hrv⟩ (hs 0)

theorem StopsAt.not_unpacks (hs : StopsAt env pkgRepod d ar n k) :
    ¬ Unpacks env pkgRepod d ar n := by
  induction ar generalizing n k with
  | nil => exact absurd hs id
  | cons h ar ih =>
    rintro ⟨hrv, hu⟩
    cases k with
    | zero =>
      obtain ⟨rv, hne, hstop⟩ := hs
      rw [hrv] at hstop
      cases hstop
      exact hne rfl
    | succ k => exact ih hs.2 hu

theorem StopsAt.unique {k' : Nat} (hs : StopsAt env pkgRepod d ar n k)
    (hs' : StopsAt env pkgRepod d ar n k') : k = k' := by
  induction ar generalizing n k k' with
  | nil => exact absurd hs id
  | cons h ar ih =>
    have hno : ∀ rv, rv ≠ 0 → headerRv env pkgRepod d n h = some rv →
        headerRv env pkgRepod d n h ≠ some 0 := by
      rintro rv hne hstop hgo
      rw [hgo] at hstop
      cases hstop
      exact hne rfl
    cases k with
    | zero =>
      obtain ⟨rv, hne, hstop⟩ := hs
      cases k' with
      | zero => rfl
      | succ k' => exact absurd hs'.1 (hno rv hne hstop)
    | succ k =>
      cases k' with
      | zero =>
        obtain ⟨rv, hne, hstop⟩ := hs'
        exact absurd hs.1 (hno rv hne hstop)
      | succ k' => rw [ih hs.2 hs'.2]

end

/-! ### The stored list -/

section
variable (env : ArchiveEnv) (pkgRepod : PkgDict) (ar : List NextHeader) (stored : Option Str)

/-- The stored list is that of the dictionary: its text, or nothing if it is empty. -/
def ReadsAs (stored : Option Str) (d : FilesPlist) : Prop :=
  if d.keys = [] then stored = none
  else ∃ text, stored = some text ∧ env.plists.internalize text = some d

/-- What a run may leave: the list as it was if it fails, and the list of the archive if it
succeeds. -/
def Keeps (res : Option (Option Str × Int)) : Prop :=
  ∀ r ∈ res, (r.2 ≠ 0 → r.1 = stored) ∧
    (r.2 = 0 → ∃ d, filesPlist ar = some d ∧ ReadsAs env r.1 d)

/-- The list is the one that was there before a run that fails, and the one of the archive
after a run that succeeds. -/
def ListKept : Prop := Keeps env ar stored (unpackArchive env pkgRepod ar stored)

/-- The list, or what is left of it, is removed at the end; that changes nothing. -/
def RemovalSafe (stored left : Option Str) : Prop :=
  if env.unlink then stored = none else left = stored

/-- The list that is there is safe when the files of an archive with this list are unpacked;
`left` is what the obsolete files have left of it. -/
structure FilesSafe (d : FilesPlist) (rest : List NextHeader) (left : Option Str) : Prop where
  stops : ∀ k, StopsAt env pkgRepod d rest 0 k →
    let left := leaves env pkgRepod d (rest.take (k + 1)) 0 left
    if d.keys = [] then RemovalSafe env stored left else left = stored
  unpacks : Unpacks env pkgRepod d rest 0 →
    let left := leaves env pkgRepod d rest 0 left
    if d.keys = [] then env.unlink = true ∨ left = none
    else
      ∀ errno, env.plists.externalizeToFile d = .error errno →
        if errno = 0 then ReadsAs env left d else left = stored

/-- The list that is there is safe whenever a list is read from the archive. -/
def ListSafe : Prop :=
  ∀ pkgname ∈ pkgRepod.pkgname, ∀ d rest, Listed 4 ar d rest →
    FilesSafe env pkgRepod stored d rest (removeObsoletes env pkgRepod pkgname stored)

variable {env pkgRepod ar stored} {d : FilesPlist} {rest : List NextHeader} {left : Option Str}

theorem out_eq_iff : out env d left = stored ↔
    if d.keys = [] then RemovalSafe env stored left else left = stored := by
  rw [out]
  by_cases hk : d.keys = []
  · rw [if_pos hk, if_pos hk, RemovalSafe]
    by_cases hu : env.unlink = true
    · rw [if_pos hu, if_pos hu]
      exact eq_comm
    · rw [if_neg hu, if_neg hu]
  · rw [if_neg hk, if_neg hk]

theorem keeps_none : Keeps env ar stored none := fun _ h => by cases h

theorem keeps_failed {rv : Int} (hrv : rv ≠ 0) :
    Keeps env ar stored (some (left, rv)) ↔ left = stored := by
  constructor
  · intro h
    exact (h _ rfl).1 hrv
  · rintro h r ⟨⟩
    exact ⟨fun _ => h, fun h0 => absurd h0 hrv⟩

theorem keeps_succeeded (hd : filesPlist ar = some d) :
    Keeps env ar stored (some (left, 0)) ↔ ReadsAs env left d := by
  constructor
  · intro h
    obtain ⟨d', hd', hreads⟩ := (h _ rfl).2 rfl
    rw [hd] at hd'
    cases hd'
    exact hreads
  · rintro h r ⟨⟩
    exact ⟨fun h0 => absurd rfl h0, fun _ => ⟨d, hd, h⟩⟩

/-- Only a failure, with an `errno`, or with none, is left to be looked at when every file has
been unpacked. -/
theorem keeps_externalized (hd : filesPlist ar = some d) :
    Keeps env ar stored ((
      if d.keys = [] then some (left, 0)
      else
        match env.plists.externalizeToFile d with
        | .ok text => some (some text, 0)
        | .error errno => some (left, (errno : Int))).map fun r => (out env d r.1, r.2)) ↔
    if d.keys = [] then env.unlink = true ∨ left = none
    else
      ∀ errno, env.plists.externalizeToFile d = .error errno →
        if errno = 0 then ReadsAs env left d else left = stored := by
  have hout : ∀ s, d.keys ≠ [] → out env d s = s := fun s hk => by rw [out, if_neg hk]
  by_cases hk : d.keys = []
  · rw [if_pos hk, if_pos hk, Option.map_some, keeps_succeeded hd, ReadsAs, if_pos hk, out_eq_iff,
      if_pos hk, RemovalSafe]
    by_cases hu : env.unlink = true
    · rw [if_pos hu]
      exact iff_of_true rfl (Or.inl hu)
    · rw [if_neg hu, or_iff_right hu]
  rw [if_neg hk, if_neg hk]
  cases hext : env.plists.externalizeToFile d with
  | ok text =>
    rw [Option.map_some, hout _ hk, keeps_succeeded hd, ReadsAs, if_neg hk]
    refine iff_of_true ⟨text, rfl, env.plists.internalize_externalize hext⟩ fun errno h => ?_
    cases h
  | error errno =>
    rw [Option.map_some, hout _ hk]
    simp only [Except.error.injEq, forall_eq']
    -- a failure without an `errno` is taken for success
    by_cases h0 : errno = 0
    · subst h0
      rw [if_pos rfl]
      exact keeps_succeeded hd
    · rw [if_neg h0]
      exact keeps_failed (by exact_mod_cast h0)

theorem keeps_unpackFiles (hd : filesPlist ar = some d) :
    Keeps env ar stored
      ((unpackFiles env pkgRepod d rest left).map fun r => (out env d r.1, r.2)) ↔
    FilesSafe env pkgRepod stored d rest left := by
  rw [unpackFiles]
  by_cases hu : Unpacks env pkgRepod d rest 0
  · rw [unpackLoop_unpacks hu]
    refine (keeps_externalized hd).trans
      ⟨fun h => ⟨fun k hk => absurd hu hk.not_unpacks, fun _ => h⟩, fun h => h.unpacks hu⟩
  by_cases hs : ∃ k, StopsAt env pkgRepod d rest 0 k
  · obtain ⟨k, hk⟩ := hs
    obtain ⟨rv, hrv, hloop⟩ : ∃ rv, rv ≠ 0 ∧ unpackLoop env pkgRepod d rest 0 left =
        some (leaves env pkgRepod d (rest.take (k + 1)) 0 left, rv) := unpackLoop_stopsAt hk
    rw [hloop]
    simp only [if_pos hrv, Option.map_some]
    rw [keeps_failed hrv, out_eq_iff]
    refine ⟨fun h => ⟨fun k' hk' => ?_, fun h' => absurd h' hu⟩, fun h => h.stops k hk⟩
    rw [hk'.unique hk]
    exact h
  · rw [unpackLoop_none hu fun k hk => hs ⟨k, hk⟩]
    exact iff_of_true keeps_none ⟨fun k hk => absurd ⟨k, hk⟩ hs, fun h => absurd h hu⟩

/-- The list is kept if and only if: when an empty list is read and unpacking stops, it was
not there (or it cannot be removed, and none of the files changes it); when a list with keys
is read and unpacking stops, or writing the list fails, none of the files that are removed or
unpacked changes it; and when all is unpacked, it can be written or removed. -/
theorem unpackArchive_listKept_iff :
    ListKept env pkgRepod ar stored ↔ ListSafe env pkgRepod ar stored := by
  rw [ListKept, ListSafe, unpackArchive]
  cases pkgRepod.pkgname with
  | none => exact iff_of_true ((keeps_failed (by decide)).mpr rfl) fun _ h => by cases h
  | some pkgname =>
    simp only [Option.mem_def, Option.some.injEq, forall_eq']
    by_cases hl : ∃ d rest, Listed 4 ar d rest
    · obtain ⟨d, rest, hl⟩ := hl
      rw [readFilesd_listed hl]
      refine (keeps_unpackFiles hl.filesPlist).trans
        ⟨fun h d' rest' hl' => ?_, fun h => h d rest hl⟩
      have heq := (readFilesd_listed hl').symm.trans (readFilesd_listed hl)
      cases heq
      exact h
    · -- a run that reads no list does not return
      have hno : ∀ d rest, ¬ Listed 4 ar d rest := fun d rest h => hl ⟨d, rest, h⟩
      rcases readFilesd_unlisted hno with hread | ⟨rv, hread⟩ <;> rw [hread] <;>
        exact iff_of_true keeps_none fun d rest h => absurd h (hno d rest)

theorem removeObsoletes_unnamed {pkgname : Str} (hnames : ∀ path, env.names path = false) :
    removeObsoletes env pkgRepod pkgname stored = stored := by
  rw [removeObsoletes]
  split
  · rfl
  · induction obsoletesOf env.obsd pkgname with
    | nil => rfl
    | cons path paths ih =>
      rw [List.foldl_cons, hnames, Bool.false_and, if_neg Bool.false_ne_true]
      exact ih

theorem headerLeaves_unnamed {n : Nat} {h : NextHeader}
    (hnames : ∀ path, env.names path = false) :
    headerLeaves env pkgRepod d n stored h = stored := by
  have hop : ∀ disk leaves op, opOnList env disk leaves stored op = stored := by
    intro disk leaves op
    cases op <;> simp [opOnList, hnames]
  match h with
  | .fatal => rfl
  | .member true _ => rfl
  | .member false none => rfl
  | .member false (some m) =>
    rw [headerLeaves]
    cases unpackEntry (env.disk n) d.filesd env.pkgFilesd pkgRepod.pkgver m.entry with
    | none => rfl
    | some r =>
      obtain ⟨ops, rv⟩ := r
      show ops.foldl _ stored = stored
      induction ops with
      | nil => rfl
      | cons op ops ih => rw [List.foldl_cons, hop, ih]

theorem leaves_unnamed {n : Nat} (hnames : ∀ path, env.names path = false) :
    leaves env pkgRepod d ar n stored = stored := by
  induction ar generalizing n with
  | nil => rfl
  | cons h ar ih => rw [leaves, headerLeaves_unnamed hnames, ih]

/-- The list is kept when one with keys is read, no path names the stored one, and writing it
does not fail without an `errno`. -/
theorem listKept_of_unnamed (hnames : ∀ path, env.names path = false) (hl : Listed 4 ar d rest)
    (hkeys : d.keys ≠ []) (hext : env.plists.externalizeToFile d ≠ .error 0) :
    ListKept env pkgRepod ar stored := by
  rw [ListKept, unpackArchive]
  cases pkgRepod.pkgname with
  | none => exact (keeps_failed (by decide)).mpr rfl
  | some pkgname =>
    simp only
    rw [readFilesd_listed hl, removeObsoletes_unnamed hnames]
    refine (keeps_unpackFiles hl.filesPlist).mpr ⟨fun k _ => ?_, fun _ => ?_⟩
    · rw [leaves_unnamed hnames, if_neg hkeys]
    · rw [leaves_unnamed hnames, if_neg hkeys]
      intro errno h
      have hne : errno ≠ 0 := fun h0 => hext (h0 ▸ h)
      rw [if_neg hne]

end

/-! ### The binary package -/

/-- What `flappy_unpack_binary_pkg` depends on around the archive: the `errno` of the calls
that fail. -/
structure BinpkgEnv where
  cachedir : Str
  readNew : Bool := true
  openPkg : Option ℕ+ := none
  fstat : Option ℕ+ := none
  openFd : Option ℕ+ := none
  /-- `access` of the metadata directory. -/
  access : Option ℕ+ := none
  mkpath : Option ℕ+ := none
  /-- `flappy_alternatives_register`. -/
  alternativesRegister : Int := 0

def enoent : Nat := 2
def enomem : Nat := 12

/-- The error with which the metadata directory is not there. -/
def BinpkgEnv.metadir (env : BinpkgEnv) : Option ℕ+ :=
  env.access.bind fun errno => if (errno : Nat) ≠ enoent then some errno else env.mkpath

/-- `flappy_unpack_binary_pkg`: the stored list afterwards, and the return value. -/
def unpackBinaryPkg (benv : BinpkgEnv) (env : ArchiveEnv) (pkgRepod : PkgDict)
    (ar : List NextHeader) (stored : Option Str) : Option (Option Str × Int) :=
  match pkgPath benv.cachedir pkgRepod with
  | .error errno => some (stored, errno)
  | .ok _ =>
    if benv.readNew = false then some (stored, enomem)
    else
      match benv.openPkg with
      | some errno => some (stored, errno)
      | none =>
        match benv.fstat with
        | some errno => some (stored, errno)
        | none =>
          match benv.openFd with
          | some errno => some (stored, errno)
          | none =>
            match benv.metadir with
            | some errno => some (stored, errno)
            | none =>
              match unpackArchive env pkgRepod ar stored with
              | none => none
              | some (stored, rv) =>
                -- what setting the state returns is overwritten
                if rv ≠ 0 then some (stored, rv) else some (stored, benv.alternativesRegister)

/-- The list is as it was if the archive has not been looked at, which is a failure, and as the
archive leaves it otherwise; a failure of `unpack_archive` is passed on. -/
theorem unpackBinaryPkg_stored {benv : BinpkgEnv} {env : ArchiveEnv} {pkgRepod : PkgDict}
    {ar : List NextHeader} {stored stored' : Option Str} {rv : Int}
    (h : unpackBinaryPkg benv env pkgRepod ar stored = some (stored', rv)) :
    (stored' = stored ∧ rv ≠ 0) ∨
      ∃ rv', unpackArchive env pkgRepod ar stored = some (stored', rv') ∧
        (rv' ≠ 0 → rv = rv') := by
  have hpos : ∀ errno : ℕ+, ((errno : Nat) : Int) ≠ 0 := fun errno =>
    Int.natCast_ne_zero.mpr (Nat.ne_of_gt errno.2)
  rw [unpackBinaryPkg] at h
  -- up to `unpack_archive` a failure leaves the list as it is
  cases hpath : pkgPath benv.cachedir pkgRepod with
  | error errno =>
    rw [hpath] at h
    cases h
    exact Or.inl ⟨rfl, Int.natCast_ne_zero.mpr (pkgPath_error hpath)⟩
  | ok path =>
  rw [hpath] at h
  simp only at h
  by_cases hnew : benv.readNew = false
  · rw [if_pos hnew] at h
    cases h
    exact Or.inl ⟨rfl, by decide⟩
  rw [if_neg hnew] at h
  cases hopen : benv.openPkg with
  | some errno =>
    rw [hopen] at h
    cases h
    exact Or.inl ⟨rfl, hpos errno⟩
  | none =>
  cases hstat : benv.fstat with
  | some errno =>
    rw [hopen, hstat] at h
    cases h
    exact Or.inl ⟨rfl, hpos errno⟩
  | none =>
  cases hfd : benv.openFd with
  | some errno =>
    rw [hopen, hstat, hfd] at h
    cases h
    exact Or.inl ⟨rfl, hpos errno⟩
  | none =>
  cases hmeta : benv.metadir with
  | some errno =>
    rw [hopen, hstat, hfd, hmeta] at h
    cases h
    exact Or.inl ⟨rfl, hpos errno⟩
  | none =>
  rw [hopen, hstat, hfd, hmeta] at h
  simp only at h
  -- from here on the list is what `unpack_archive` leaves
  cases hrun : unpackArchive env pkgRepod ar stored with
  | none =>
    rw [hrun] at h
    cases h
  | some r =>
    obtain ⟨left, rv'⟩ := r
    rw [hrun] at h
    simp only at h
    by_cases hrv : rv' ≠ 0
    · rw [if_pos hrv] at h
      cases h
      exact Or.inr ⟨_, rfl, fun _ => rfl⟩
    · rw [if_neg hrv] at h
      cases h
      exact Or.inr ⟨_, rfl, fun hne => absurd hne hrv⟩

/-! ### A run that loses the list -/

/-- A root directory with nothing in it. -/
def emptyDisk : UnpackEnv where
  lstat _ := none
  sha256 _ := .error .enoent
  found _ _ h := by cases h

def emptyEnv : ArchiveEnv where
  plists :=
    { externalizeToFile := fun _ => .error enomem
      internalize := fun _ => none
      internalize_externalize := fun h => by cases h }
  disk _ := emptyDisk

def aRepod : PkgDict := { pkgver := "a-1_1".toList, pkgname := some "a".toList }

/-- The member `files.plist`, with what can be read from it. -/
def filesMember (dictionary : Option FilesPlist) : NextHeader :=
  .member false (some ⟨⟨filesName, ⟨.reg, 0o644, 0, 0⟩⟩, dictionary, none⟩)

/-- The list of the archive is empty, and the archive is damaged behind it: unpacking fails, and
the list of the installed package is gone. -/
theorem unpackArchive_not_listKept :
    unpackArchive emptyEnv aRepod [filesMember (some ⟨{}, [], fun _ => rfl⟩), .fatal]
        (some "<plist/>".toList) = some (none, archiveFatal) ∧
      ¬ ListKept emptyEnv aRepod [filesMember (some ⟨{}, [], fun _ => rfl⟩), .fatal]
        (some "<plist/>".toList) := by
  refine ⟨by decide, fun h => ?_⟩
  exact absurd ((h (none, archiveFatal) (by decide)).1 (by decide)) (by decide)

end Flappy.Unpack
