/-
Configuration files (`lib/package_config_files.c`, the loop of `unpack_archive`
in `lib/package_unpack.c`).

An archive entry that is listed in `conf_files` is not simply unpacked over the
file that is there: the hash the installed package has recorded, the hash of the
file and the hash of the new file decide whether it is replaced, kept, or joined
by a `.new-<version>`.  The decision is a function of the entry; the loop carries
it out.

* `mergeConf` — the three-way merge, over any kind of hash, and
  `compareConfFile_eq` — the comparison of the hashes is that merge;
* `unpackEntry_confKept_iff` — a configuration file the user may have changed
  stays as it is iff the installed package, if there is one, has recorded a hash
  for its path, or the path is passed over anyway.
-/
import Flappy.Fetch
import Flappy.Files.Obsoletes

open CStr

namespace Flappy

/-- `st_mode & S_IFMT`. -/
inductive FileKind where
  | reg
  | lnk
  | dir
  | fifo
  | sock
  | chr
  | blk
deriving DecidableEq, Repr

/-- What the loop reads of `struct stat`, on the disk and in the archive. -/
structure FileStat where
  kind : FileKind
  perm : Nat
  uid : Nat
  gid : Nat
deriving DecidableEq, Repr

/-- `struct archive_entry`. -/
structure ArchiveEntry where
  pathname : Str
  stat : FileStat
deriving DecidableEq, Repr

/-- What `unpack_archive` takes from outside; the root directory is the current one. -/
structure UnpackEnv where
  xhp : Handle := {}
  /-- `FLAPPY_FLAG_FORCE_UNPACK`. -/
  force : Bool := false
  /-- `FLAPPY_FLAG_KEEP_CONFIG`. -/
  keepConfig : Bool := false
  noextract : List Str := []
  /-- `geteuid () == 0`. -/
  root : Bool := true
  lstat : Str → Option FileStat
  /-- `flappy_file_sha256`, which follows links. -/
  sha256 : Str → Except Errno Str
  /-- A regular file that is there is not missing. -/
  found : ∀ path st, lstat path = some st → st.kind = .reg → sha256 path ≠ .error .enoent
  /-- Does `remove` succeed? -/
  remove : Str → Bool := fun _ => true
  /-- `chmod`; `none` is success. -/
  chmod : Str → Option Errno := fun _ => none
  /-- `archive_read_extract`; `none` is success. -/
  extract : Str → Option Errno := fun _ => none

/-- `snprintf` into a buffer of `PATH_MAX` bytes. -/
def pathBuf (s : Str) : Str := s.take (pathMax - 1)

/-- `flappy_patterns_match`. -/
def patternsMatch (patterns : List Str) (path : Str) : Bool :=
  patterns.foldl (fun isMatch pattern =>
    let negate := pattern.head? = some '!'
    let pattern := if negate ∨ pattern.head? = some '\\' then pattern.tail else pattern
    if fnmatchAux (pattern.length + path.length + 1) false pattern path then !negate
    else isMatch) false

/-- `match_preserved_file` of `package_unpack.c`. -/
def matchPreservedEntry (xhp : Handle) (entry : Str) : Bool :=
  matchStringInArray xhp.preservedFiles
    (if entry.head? = some '.' ∧ entry.tail ≠ [] then entry.tail else entry)

/-- `flappy_entry_is_a_conf_file`. -/
def entryIsAConfFile (filesd : FilesDict) (entryPname : Str) : Bool :=
  filesd.confFiles.any fun e => e.file = entryPname

/-- What becomes of an archive entry: the return values -1, 0 and 1 of
`flappy_entry_install_conf_file`, the last one with the pathname of the entry. -/
inductive EntryInstall where
  | error
  | keep
  | install (pathname : Str)
deriving DecidableEq, Repr

/-- An entry of `conf_files` for the pathname of an archive entry. -/
def FileEntry.isFor (entryPname : Str) (e : FileEntry) : Bool :=
  pathBuf ('.' :: e.file) = entryPname

/-- The hash that a file list has for a configuration file. -/
def confSha256 (filesd : FilesDict) (entryPname : Str) : Option Str :=
  (filesd.confFiles.find? (FileEntry.isFor entryPname)).bind FileEntry.sha256

/-- `<file>.new-<version>`. -/
def newConfFile (file version : Str) : Str := pathBuf (file ++ ".new-".toList ++ version)

/-- The second loop of `flappy_entry_install_conf_file`; `none` if a hash is
missing or the version is. -/
def compareConfFile (env : UnpackEnv) (entryPname pkgver orig : Str) :
    List FileEntry → Option EntryInstall
  | [] => some .keep
  | e :: es =>
    if !e.isFor entryPname then compareConfFile env entryPname pkgver orig es
    else
      match env.sha256 entryPname with
      | .error .enoent => some (.install entryPname)
      | .error _ => some .error
      | .ok cur =>
        match e.sha256 with
        | none => none
        | some new =>
          if orig = cur ∧ orig = new ∧ cur = new then some .keep
          else if orig = cur ∧ orig ≠ new ∧ cur ≠ new ∧ env.keepConfig = false then
            some (.install entryPname)
          else if orig = new ∧ cur ≠ new ∧ orig ≠ cur then some .keep
          else if cur = new ∧ orig ≠ new ∧ orig ≠ cur then some .keep
          else if (orig ≠ cur ∧ cur ≠ new ∧ orig ≠ new) ∨ env.keepConfig = true then
            (pkgVersion pkgver).map fun version => .install (newConfFile ('.' :: e.file) version)
          else compareConfFile env entryPname pkgver orig es

/-- `flappy_entry_install_conf_file`; `none` if the version is missing, or a hash. -/
def entryInstallConfFile (env : UnpackEnv) (binpkgFilesd : FilesDict)
    (pkgFilesd : Option FilesDict) (entryPname pkgver : Str) (mysymlink : Bool) :
    Option EntryInstall :=
  -- the array is there: the caller has found the entry in it
  if binpkgFilesd.confFiles = [] then some .error
  else
    match if mysymlink then none else pkgFilesd with
    | none => (pkgVersion pkgver).map fun version => .install (newConfFile entryPname version)
    | some filesd =>
      match confSha256 filesd entryPname with
      | none => some (.install entryPname)
      | some orig => compareConfFile env entryPname pkgver orig binpkgFilesd.confFiles

/-- `flappy_file_hash_check_dictionary` with the key `files`. -/
def fileHashCheck (sha256 : Except Errno Str) (filesd : FilesDict) (entryPname : Str) :
    EntryInstall :=
  match (filesd.files.find? fun e => e.file = entryPname.tail).bind FileEntry.sha256 with
  | none => .install entryPname
  | some recorded =>
    match sha256 with
    | .error .enoent => .install entryPname
    | .error _ => .error
    | .ok digest => if digest = recorded then .keep else .install entryPname

/-- A call of the loop that changes the disk. -/
inductive UnpackOp where
  | remove (path : Str)
  | lchown (path : Str)
  | chmod (path : Str)
  | extract (path : Str)
deriving DecidableEq, Repr

/-- How the loop body ends. -/
inductive EntryRv where
  | next
  /-- `goto out` with -1. -/
  | error
  /-- `goto out` with `EINVAL`. -/
  | chmodFailed
  | extractFailed (errno : Errno)
deriving DecidableEq, Repr

/-- The entries that the loop passes over. -/
def UnpackEnv.passesOver (env : UnpackEnv) (entry : ArchiveEntry) : Bool :=
  entry.stat.kind = .dir || entry.pathname.head? ≠ some '.' ||
    patternsMatch env.noextract entry.pathname.tail ||
    ((env.lstat entry.pathname).isSome && matchPreservedEntry env.xhp entry.pathname)

/-- `keep_conf_file`. -/
def UnpackEnv.keepConfFile (env : UnpackEnv) (filesd : FilesDict) (entry : ArchiveEntry) : Bool :=
  !env.force && entry.stat.kind = .reg && entryIsAConfFile filesd entry.pathname.tail

/-- Is the file on disk removed because its type differs? -/
def UnpackEnv.removesEntry (env : UnpackEnv) (filesd : FilesDict) (entry : ArchiveEntry) : Bool :=
  match env.lstat entry.pathname with
  | none => false
  | some st => !env.keepConfFile filesd entry && entry.stat.kind ≠ st.kind

/-- The checks on a regular file that is on disk. -/
def UnpackEnv.checkEntry (env : UnpackEnv) (binpkgFilesd : FilesDict)
    (pkgFilesd : Option FilesDict) (pkgver : Str) (entry : ArchiveEntry) : Option EntryInstall :=
  match env.lstat entry.pathname with
  | none => some (.install entry.pathname)
  | some st =>
    if env.force = true ∨ entry.stat.kind ≠ .reg ∨ (st.kind ≠ .reg ∧ st.kind ≠ .lnk) then
      some (.install entry.pathname)
    else if env.keepConfFile binpkgFilesd entry then
      entryInstallConfFile env binpkgFilesd pkgFilesd entry.pathname pkgver (st.kind = .lnk)
    else
      let gone := env.removesEntry binpkgFilesd entry && env.remove entry.pathname
      some (fileHashCheck (if gone then .error .enoent else env.sha256 entry.pathname)
        binpkgFilesd entry.pathname)

/-- The changes to a file that is not extracted. -/
def UnpackEnv.touchEntry (env : UnpackEnv) (entry : ArchiveEntry) : List UnpackOp × EntryRv :=
  match env.lstat entry.pathname with
  | none => ([], .next)
  | some st =>
    let chown := if env.root && (entry.stat.uid ≠ st.uid || entry.stat.gid ≠ st.gid) then
      [UnpackOp.lchown entry.pathname] else []
    if entry.stat.kind ≠ st.kind ∨ entry.stat.perm ≠ st.perm then
      (chown ++ [.chmod entry.pathname],
        if (env.chmod entry.pathname).isSome then .chmodFailed else .next)
    else (chown, .next)

/-- The loop body of `unpack_archive`: the changes to the disk, and how it ends. -/
def unpackEntry (env : UnpackEnv) (binpkgFilesd : FilesDict) (pkgFilesd : Option FilesDict)
    (pkgver : Str) (entry : ArchiveEntry) : Option (List UnpackOp × EntryRv) :=
  if env.passesOver entry then some ([], .next)
  else
    let ops := if env.removesEntry binpkgFilesd entry then [.remove entry.pathname] else []
    (env.checkEntry binpkgFilesd pkgFilesd pkgver entry).map fun
      | .error => (ops, .error)
      | .keep => (ops ++ (env.touchEntry entry).1, (env.touchEntry entry).2)
      | .install pathname =>
        (ops ++ [.extract pathname],
          match env.extract pathname with
          | none => .next
          | some e => .extractFailed e)

/-! ### What has to hold -/

/-- The hash of the file on disk, if it is a regular file that can be read. -/
def UnpackEnv.currentSha256 (env : UnpackEnv) (path : Str) (st : FileStat) : Option Str :=
  if st.kind = .reg then (env.sha256 path).toOption else none

/-- No configuration file is lost at an entry: it is overwritten in place only if
the hash on disk is the recorded one or the new one, and a file that has neither, or
for which none was recorded, gets a `<file>.new-<version>` at most. -/
structure ConfKept (ops : List UnpackOp) (path version : Str) (orig cur : Option Str)
    (new : Str) : Prop where
  stays : .remove path ∉ ops
  overwritten : .extract path ∈ ops → ∃ h, cur = some h ∧ (orig = some h ∨ new = h)
  renamed : (orig = none ∨ ∀ h, cur = some h → orig ≠ some h ∧ new ≠ h) →
    ∀ q, .extract q ∈ ops → q = path ++ ".new-".toList ++ version

/-- The buffer has room for `<file>.new-<version>`. -/
def NewConfFits (path version : Str) : Prop := path.length + 5 + version.length < pathMax

instance (path version : Str) : Decidable (NewConfFits path version) :=
  inferInstanceAs (Decidable (_ < _))

/-- The installed package has recorded a hash for the path, if it is installed at
all.  Without room for the new name no third version may be there. -/
def ConfRecorded (env : UnpackEnv) (pkgFilesd : Option FilesDict) (path version : Str)
    (st : FileStat) (new : Str) : Prop :=
  (NewConfFits path version ∧
      (st.kind = .lnk ∨ pkgFilesd = none ∨ (pkgFilesd.bind (confSha256 · path)).isSome)) ∨
    (¬NewConfFits path version ∧ st.kind = .reg ∧
      ∃ orig, pkgFilesd.bind (confSha256 · path) = some orig ∧
        ∀ h, env.currentSha256 path st = some h → h = orig ∨ h = new ∨ orig = new)

/-! ### The three-way merge -/

/-- What to do with a new version of a configuration file. -/
inductive ConfMerge where
  | keep
  | replace
  | beside
deriving DecidableEq, Repr

/-- The merge of the recorded, the current and the new hash: what changed on one side
only is taken over, if the configuration allows it. -/
def mergeConf {α : Type*} [DecidableEq α] (keepConfig : Bool) (orig cur new : α) : ConfMerge :=
  if orig = new ∨ cur = new then .keep
  else if orig = cur ∧ keepConfig = false then .replace
  else .beside

/-- The changes to the disk that a decision leads to. -/
def EntryInstall.ops (env : UnpackEnv) (entry : ArchiveEntry) : EntryInstall → List UnpackOp
  | .error => []
  | .keep => (env.touchEntry entry).1
  | .install path => [.extract path]

/-- The result of the comparison for a file that is there. -/
def ConfMerge.install (path version : Str) : ConfMerge → EntryInstall
  | .keep => .keep
  | .replace => .install path
  | .beside => .install (newConfFile path version)

theorem newConfFile_eq_iff {path version : Str} :
    newConfFile path version = path ++ ".new-".toList ++ version ↔ NewConfFits path version := by
  have hmax : pathMax = 4096 := rfl
  have hlen : (path ++ ".new-".toList ++ version).length = path.length + 5 + version.length := by
    rw [List.length_append, List.length_append]
    rfl
  rw [newConfFile, pathBuf, NewConfFits]
  constructor
  · intro h
    have hle := congrArg List.length h
    rw [List.length_take, hlen] at hle
    omega
  · intro h
    rw [List.take_of_length_le (by omega)]

theorem self_ne_newConf (path version : Str) : path ≠ path ++ ".new-".toList ++ version := by
  intro h
  have hlen := congrArg List.length h
  simp at hlen

/-- Without room for anything behind the path the name is the path itself. -/
theorem newConfFile_eq_self {path version : Str} (h : path.length + 1 = pathMax) :
    newConfFile path version = path := by
  rw [newConfFile, pathBuf, List.append_assoc, List.take_append_of_le_length (by omega),
    List.take_of_length_le (by omega)]

/-- The name does not depend on which of the matching entries it is made from. -/
theorem newConfFile_of_isFor {path version : Str} {e : FileEntry} (h : e.isFor path = true) :
    newConfFile ('.' :: e.file) version = newConfFile path version := by
  have hpath : path = ('.' :: e.file).take (pathMax - 1) := (of_decide_eq_true h).symm
  by_cases hlen : ('.' :: e.file).length ≤ pathMax - 1
  · rw [hpath, List.take_of_length_le hlen]
  · have hle : pathMax - 1 ≤ ('.' :: e.file).length := by omega
    have hfull : path.length + 1 = pathMax := by
      rw [hpath, List.length_take, Nat.min_eq_left hle]
      rfl
    rw [newConfFile_eq_self hfull, newConfFile, pathBuf, List.append_assoc,
      List.take_append_of_le_length hle, hpath]

/-- The comparison is the merge, at the first matching entry. -/
theorem compareConfFile_eq {env : UnpackEnv} {path pkgver orig new version : Str}
    {es : List FileEntry} {e : FileEntry} (hver : pkgVersion pkgver = some version)
    (he : es.find? (FileEntry.isFor path) = some e) (hnew : e.sha256 = some new) :
    compareConfFile env path pkgver orig es =
      some (match env.sha256 path with
        | .error .enoent => .install path
        | .error _ => .error
        | .ok cur => (mergeConf env.keepConfig orig cur new).install path version) := by
  induction es with
  | nil => cases he
  | cons e' es ih =>
    rw [compareConfFile]
    by_cases hfor : e'.isFor path = true
    · rw [List.find?_cons_of_pos hfor] at he
      cases he
      rw [if_neg (by simp [hfor]), hnew]
      rcases env.sha256 path with err | cur
      · cases err <;> rfl
      · -- the branches are the ways in which three hashes can agree
        by_cases hoc : orig = cur <;> by_cases hon : orig = new <;> by_cases hcn : cur = new <;>
          cases env.keepConfig <;>
          simp_all [mergeConf, ConfMerge.install, newConfFile_of_isFor hfor]
    · rw [List.find?_cons_of_neg hfor] at he
      rw [if_pos (by simp [hfor])]
      exact ih he

/-! ### An entry -/

section Entry

variable {env : UnpackEnv} {binpkg : FilesDict} {pkg : Option FilesDict} {pkgver version new : Str}
  {entry : ArchiveEntry} {st : FileStat}

/-- What becomes of a configuration file that is on disk as a file or as a link. -/
theorem checkEntry_conf (hver : pkgVersion pkgver = some version) (hforce : env.force = false)
    (hreg : entry.stat.kind = .reg) (hconf : entryIsAConfFile binpkg entry.pathname.tail = true)
    (hnew : confSha256 binpkg entry.pathname = some new)
    (hst : env.lstat entry.pathname = some st) (hkind : st.kind = .reg ∨ st.kind = .lnk) :
    env.checkEntry binpkg pkg pkgver entry =
      some (if st.kind = .lnk ∨ pkg = none then .install (newConfFile entry.pathname version)
        else match pkg.bind (confSha256 · entry.pathname) with
          | none => .install entry.pathname
          | some orig =>
            match env.sha256 entry.pathname with
            | .error _ => .error
            | .ok cur =>
              (mergeConf env.keepConfig orig cur new).install entry.pathname version) := by
  have hkeep : env.keepConfFile binpkg entry = true := by
    simp [UnpackEnv.keepConfFile, hforce, hreg, hconf]
  have hne : binpkg.confFiles ≠ [] := by
    intro hnil
    simp [entryIsAConfFile, hnil] at hconf
  obtain ⟨e, he, hsha⟩ := Option.bind_eq_some_iff.mp hnew
  -- the guard that passes an entry over does not hold of it
  have hguard : ¬ (env.force = true ∨ entry.stat.kind ≠ .reg ∨
      (st.kind ≠ .reg ∧ st.kind ≠ .lnk)) := by
    rcases hkind with h | h <;> simp [hforce, hreg, h]
  simp only [UnpackEnv.checkEntry, hst, if_neg hguard, if_pos hkeep]
  rw [entryInstallConfFile, if_neg hne]
  rcases hkind with hk | hk
  · rw [hk]
    cases pkg with
    | none => simp [hver]
    | some filesd =>
      simp only [reduceCtorEq, false_or, decide_false, if_false, Option.bind_some]
      cases confSha256 filesd entry.pathname with
      | none => rfl
      | some orig =>
        dsimp only
        -- the three digests decide
        rw [compareConfFile_eq hver he hsha]
        have hfound := env.found _ _ hst hk
        rcases hs : env.sha256 entry.pathname with err | cur
        · cases err <;> first | rfl | exact absurd hs hfound
        · rfl
  · simp [hk, hver]

/-- The changes that an entry that is not passed over makes to a configuration file. -/
theorem unpackEntry_conf {i : EntryInstall} (hpass : env.passesOver entry = false)
    (hremove : env.removesEntry binpkg entry = false)
    (hcheck : env.checkEntry binpkg pkg pkgver entry = some i) :
    ∃ rv, unpackEntry env binpkg pkg pkgver entry = some (i.ops env entry, rv) := by
  rw [unpackEntry, hpass, hcheck, hremove]
  cases i with
  | error => exact ⟨_, rfl⟩
  | keep => exact ⟨_, rfl⟩
  | install path => exact ⟨_, rfl⟩

theorem ConfKept.of_touch {ops : List UnpackOp} {path : Str} {orig cur : Option Str}
    (hremove : ∀ q, .remove q ∉ ops) (hextract : ∀ q, .extract q ∉ ops) :
    ConfKept ops path version orig cur new :=
  ⟨hremove path, fun h => absurd h (hextract path), fun _ q h => absurd h (hextract q)⟩

/-- A file may be overwritten in place if its hash is the new one or the recorded one,
and one was recorded. -/
theorem ConfKept.extract_self_iff {path : Str} {orig cur : Option Str} :
    ConfKept [.extract path] path version orig cur new ↔
      ∃ o h, orig = some o ∧ cur = some h ∧ (h = o ∨ h = new) := by
  constructor
  · intro hk
    obtain ⟨h, hcur, hor⟩ := hk.overwritten (by simp)
    have hnot : ¬ (orig = none ∨ ∀ h, cur = some h → orig ≠ some h ∧ new ≠ h) :=
      fun hc => self_ne_newConf path version (hk.renamed hc path (by simp))
    cases orig with
    | none => exact absurd (Or.inl rfl) hnot
    | some o => exact ⟨o, h, rfl, hcur, hor.imp (fun h => (Option.some.inj h).symm) Eq.symm⟩
  · rintro ⟨o, h, rfl, rfl, hor⟩
    refine ⟨by simp, fun _ => ⟨h, rfl, hor.imp (fun h => congrArg some h.symm) Eq.symm⟩, ?_⟩
    rintro (hc | hc)
    · cases hc
    · obtain ⟨h₁, h₂⟩ := hc h rfl
      rcases hor with rfl | rfl
      · exact absurd rfl h₁
      · exact absurd rfl h₂

/-- A file next to the configuration file may be written if there is room for its name. -/
theorem ConfKept.extract_beside_iff {path : Str} {orig cur : Option Str} :
    ConfKept [.extract (newConfFile path version)] path version orig cur new ↔
      NewConfFits path version ∨ ∃ o h, orig = some o ∧ cur = some h ∧ (h = o ∨ h = new) := by
  by_cases hroom : NewConfFits path version
  · have hname := newConfFile_eq_iff.mpr hroom
    have hne : newConfFile path version ≠ path :=
      fun h => self_ne_newConf path version (h.symm.trans hname)
    refine iff_of_true ⟨by simp, fun h => ?_, fun _ q h => ?_⟩ (Or.inl hroom)
    · simp only [List.mem_singleton, UnpackOp.extract.injEq] at h
      exact absurd h.symm hne
    · simp only [List.mem_singleton, UnpackOp.extract.injEq] at h
      exact h.trans hname
  · rw [or_iff_right hroom]
    constructor
    · intro hk
      -- a name that was cut is not the one that was to be written
      have hnot : ¬ (orig = none ∨ ∀ h, cur = some h → orig ≠ some h ∧ new ≠ h) :=
        fun hc => hroom (newConfFile_eq_iff.mp (hk.renamed hc _ (by simp)))
      obtain ⟨horig, hcur⟩ := not_or.mp hnot
      push Not at hcur
      obtain ⟨h, hh, hor⟩ := hcur
      obtain ⟨o, ho⟩ := Option.ne_none_iff_exists'.mp horig
      refine ⟨o, h, ho, hh, ?_⟩
      by_cases heq : h = o
      · exact Or.inl heq
      · refine Or.inr (hor ?_).symm
        rw [ho]
        exact fun hoh => heq (Option.some.inj hoh).symm
    · rintro ⟨o, h, rfl, rfl, hor⟩
      have hself : ConfKept [.extract path] path version (some o) (some h) new :=
        ConfKept.extract_self_iff.mpr ⟨o, h, rfl, rfl, hor⟩
      refine ⟨by simp, fun _ => hself.overwritten (by simp), fun hc => ?_⟩
      exact absurd (hself.renamed hc path (by simp)) (self_ne_newConf path version)

theorem touchEntry_ops (env : UnpackEnv) (entry : ArchiveEntry) (q : Str) :
    .remove q ∉ (env.touchEntry entry).1 ∧ .extract q ∉ (env.touchEntry entry).1 := by
  rw [UnpackEnv.touchEntry]
  cases env.lstat entry.pathname with
  | none => simp
  | some st =>
    dsimp only
    constructor <;> split <;> split <;> simp

theorem confRecorded_beside (h : st.kind = .lnk ∨ pkg = none) :
    (NewConfFits entry.pathname version ∨ ∃ o h, pkg.bind (confSha256 · entry.pathname) = some o ∧
      env.currentSha256 entry.pathname st = some h ∧ (h = o ∨ h = new)) ↔
      ConfRecorded env pkg entry.pathname version st new := by
  rcases h with h | h
  · simp [ConfRecorded, UnpackEnv.currentSha256, h]
  · simp [ConfRecorded, h]

theorem confRecorded_some {path orig : Str} (hk : st.kind = .reg)
    (horig : pkg.bind (confSha256 · path) = some orig) :
    ConfRecorded env pkg path version st new ↔ NewConfFits path version ∨
      ∀ h, env.currentSha256 path st = some h → h = orig ∨ h = new ∨ orig = new := by
  by_cases hroom : NewConfFits path version <;> simp [ConfRecorded, hk, horig, hroom]

/-- The merge loses no file unless there is no room for the name of a third version. -/
theorem mergeConf_kept {orig cur : Str} :
    ConfKept (((mergeConf env.keepConfig orig cur new).install entry.pathname version).ops env entry)
        entry.pathname version (some orig) (some cur) new ↔
      NewConfFits entry.pathname version ∨ cur = orig ∨ cur = new ∨ orig = new := by
  rw [mergeConf]
  by_cases hkeep : orig = new ∨ cur = new
  · rw [if_pos hkeep]
    exact iff_of_true (ConfKept.of_touch (fun q => (touchEntry_ops env entry q).1)
      fun q => (touchEntry_ops env entry q).2) (Or.inr (Or.inr hkeep.symm))
  · rw [if_neg hkeep]
    by_cases hreplace : orig = cur ∧ env.keepConfig = false
    · rw [if_pos hreplace, ConfMerge.install, EntryInstall.ops, ConfKept.extract_self_iff]
      exact iff_of_true ⟨orig, cur, rfl, rfl, Or.inl hreplace.1.symm⟩
        (Or.inr (Or.inl hreplace.1.symm))
    · rw [if_neg hreplace, ConfMerge.install, EntryInstall.ops, ConfKept.extract_beside_iff]
      obtain ⟨hon, hcn⟩ := not_or.mp hkeep
      simp [hon]

/-- Configuration files that are on disk as files or links are not lost iff their
hashes were recorded, or they are passed over. -/
theorem unpackEntry_confKept_iff (hver : pkgVersion pkgver = some version)
    (hforce : env.force = false) (hreg : entry.stat.kind = .reg)
    (hconf : entryIsAConfFile binpkg entry.pathname.tail = true)
    (hnew : confSha256 binpkg entry.pathname = some new)
    (hst : env.lstat entry.pathname = some st) (hkind : st.kind = .reg ∨ st.kind = .lnk) :
    ∃ ops rv, unpackEntry env binpkg pkg pkgver entry = some (ops, rv) ∧
      (ConfKept ops entry.pathname version (pkg.bind (confSha256 · entry.pathname))
          (env.currentSha256 entry.pathname st) new ↔
        env.passesOver entry = true ∨ ConfRecorded env pkg entry.pathname version st new) := by
  by_cases hpass : env.passesOver entry = true
  · refine ⟨[], .next, by rw [unpackEntry, if_pos hpass], ?_⟩
    exact iff_of_true (ConfKept.of_touch (by simp) (by simp)) (Or.inl hpass)
  · have hremove : env.removesEntry binpkg entry = false := by
      simp [UnpackEnv.removesEntry, hst, UnpackEnv.keepConfFile, hforce, hreg, hconf]
    have hcheck : env.checkEntry binpkg pkg pkgver entry = some _ :=
      checkEntry_conf hver hforce hreg hconf hnew hst hkind
    obtain ⟨rv, hunpack⟩ := unpackEntry_conf (eq_false_of_ne_true hpass) hremove hcheck
    refine ⟨_, rv, hunpack, ?_⟩
    rw [or_iff_right hpass]
    by_cases hbeside : st.kind = .lnk ∨ pkg = none
    · rw [if_pos hbeside, EntryInstall.ops, ConfKept.extract_beside_iff]
      exact confRecorded_beside hbeside
    · obtain ⟨hlnk, hpkg⟩ := not_or.mp hbeside
      have hk : st.kind = .reg := hkind.resolve_right hlnk
      rw [if_neg hbeside]
      cases horig : pkg.bind (confSha256 · entry.pathname) with
      | none =>
        rw [EntryInstall.ops, ConfKept.extract_self_iff]
        simp [ConfRecorded, hlnk, hpkg, horig]
      | some orig =>
        rw [confRecorded_some hk horig]
        rcases hs : env.sha256 entry.pathname with err | cur
        · refine iff_of_true (ConfKept.of_touch (by simp [EntryInstall.ops])
            (by simp [EntryInstall.ops])) ?_
          simp [UnpackEnv.currentSha256, hk, hs, Except.toOption]
        · have hcur : env.currentSha256 entry.pathname st = some cur := by
            simp [UnpackEnv.currentSha256, hk, hs, Except.toOption]
          rw [hcur]
          exact mergeConf_kept.trans (by simp)

end Entry

/-- `./cf1.conf` has been written by the user. -/
def cf1Env : UnpackEnv where
  lstat path := if path = "./cf1.conf".toList then some ⟨.reg, 0o644, 0, 0⟩ else none
  sha256 path := if path = "./cf1.conf".toList then .ok "userdata".toList else .error .enoent
  found path st h _ := by
    split at h
    · next hp => simp [hp]
    · cases h

def cf1Entry : ArchiveEntry := ⟨"./cf1.conf".toList, ⟨.reg, 0o644, 0, 0⟩⟩

def cf1New : FilesDict := { confFiles := [⟨"/cf1.conf".toList, some "backup".toList, 7⟩] }

/-- The installed version with the hash recorded for `/cf1.conf`. -/
def cf1Old (sha256 : String) : FilesDict :=
  { confFiles := [⟨"/cf1.conf".toList, some sha256.toList, 7⟩] }

theorem unpackEntry_confKept_cf1 :
    ∃ ops rv, unpackEntry cf1Env cf1New (some (cf1Old "old")) "a-0.2_1".toList cf1Entry =
        some (ops, rv) ∧
      ConfKept ops cf1Entry.pathname "0.2_1".toList (some "old".toList)
        (some "userdata".toList) "backup".toList := by
  have hst : cf1Env.lstat cf1Entry.pathname = some cf1Entry.stat := by decide
  have hnew : confSha256 cf1New cf1Entry.pathname = some "backup".toList := by decide +kernel
  have hver : pkgVersion "a-0.2_1".toList = some "0.2_1".toList := by decide
  obtain ⟨ops, rv, h, hiff⟩ :=
    unpackEntry_confKept_iff hver rfl rfl (by decide) hnew hst (Or.inl rfl)
  exact ⟨ops, rv, h, hiff.mpr (Or.inr (Or.inl ⟨by decide +kernel,
    Or.inr (Or.inr (by decide +kernel))⟩))⟩

/-- An update adds the configuration file to a package that had another file, and the
user's file is overwritten. -/
theorem unpackEntry_cf1_lost :
    unpackEntry cf1Env cf1New (some { files := [⟨"/usr/bin/a".toList, none, 1⟩] })
        "a-0.2_1".toList cf1Entry = some ([.extract cf1Entry.pathname], .next) ∧
      ¬ ConfKept [.extract cf1Entry.pathname] cf1Entry.pathname "0.2_1".toList none
        (some "userdata".toList) "backup".toList := by
  refine ⟨by decide +kernel, fun h => ?_⟩
  obtain ⟨_, _, ho, -⟩ := ConfKept.extract_self_iff.mp h
  cases ho

end Flappy
