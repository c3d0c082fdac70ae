/-
Reading configuration files (`parse_file`, `parse_files_glob` and the functions
that store a value, `lib/conf.c`).

A file is read line by line, and an included file by the same function, which
then ignores includes.  One variable holds the result: some lines assign it
only if they fail, `virtualpkg` and `include` lines assign it always.

* `parseFile_ne_zero_iff` — when the result is an error;
* `parseFile_remembers_iff` — when a failure is reported.
-/
import Flappy.Alternatives.Links
import Flappy.Conf.Options
import Flappy.Fetch
import Flappy.Lib.Verdict
import Flappy.Vpkgs

open CStr BSearch Verdict

namespace Flappy.Conf

/-! ### The world -/

/-- What `glob` returns. -/
inductive GlobResult where
  | noSpace
  | noMatch
  | aborted
  | paths (ps : List Str)

/-- What the parser takes from outside: files, patterns, memory. -/
structure Env where
  probe : Probe
  /-- The lines `getline` reads from a file, or the `errno` of `fopen`. -/
  fopen : Str → Except {e : Nat // e ≠ 0} (List Str)
  glob : Str → GlobResult
  realpath : Str → Option Str
  /-- Does the request for memory with this number fail? -/
  oom : Nat → Bool
  /-- What `alloc` of `vpkg_map_add` holds if it has not been set. -/
  alloc : Bool

/-- `FLAPPY_MAXPATH`. -/
def maxPath : Nat := 512

/-- The size of `native_arch`. -/
def archSize : Nat := 64

/-- `ENOMEM`. -/
def enomem : Nat := 12

/-- The handle, as far as the configuration fills it. -/
structure State where
  handle : Handle := {}
  rootdir : Str := []
  cachedir : Str := []
  nativeArch : Str := []
  useStage : Bool := false
  keepConfig : Bool := false
  disableSyslog : Bool := false
  ignoreConfRepos : Bool := false
  repositories : List Str := []
  noextract : List Str := []
  /-- The requests for memory that `vpkg_map_add` has made so far. -/
  requests : Nat := 0
  /-- A dictionary of providers has been released that a map still holds. -/
  released : Bool := false

/-! ### Storing a value -/

/-- `vpkg_map_add` after `n` requests for memory: the number of requests, the
map, and whether none of them failed. -/
def vpkgMapAddMem (oom : Nat → Bool) (n : Nat) (d : VpkgMap) (pkgname vpkgver provider : Str) :
    Nat × VpkgMap × Bool :=
  if (d.get pkgname).isSome then
    if oom n then (n + 1, d, false) else (n + 1, setProvider d pkgname vpkgver provider, true)
  else if oom n then (n + 1, d, false)
  else if oom (n + 1) then (n + 2, d, false)
  -- the new dictionary of providers is in the map already
  else if oom (n + 2) then (n + 3, d.set pkgname Dict.empty, false)
  else (n + 3, setProvider d pkgname vpkgver provider, true)

/-- `store_virtualpkg`, and whether it had the memory it asked for. -/
def storeVirtualpkgMem (env : Env) (st : State) (val : Str) : State × Bool :=
  match strchr ':' val with
  | none => (st, true)
  | some (_, []) => (st, true)
  | some (vpkg, provider) =>
    let (vpkgname, vpkgver) := vpkgNameVersion vpkg
    let (n, vpkgd, ok) :=
      vpkgMapAddMem env.oom st.requests st.handle.vpkgd vpkgname vpkgver provider
    let st :=
      { st with
        handle := { st.handle with vpkgd }
        requests := n
        released := st.released || releasesHeld env.alloc st.handle.vpkgd vpkgname }
    if !ok then (st, false)
    else
      let (n, vpkgdConf, ok) :=
        vpkgMapAddMem env.oom st.requests st.handle.vpkgdConf vpkgname vpkgver provider
      ({ st with
          handle := { st.handle with vpkgdConf }
          requests := n
          released := st.released || releasesHeld env.alloc st.handle.vpkgdConf vpkgname }, ok)

/-- One path of the loop of `store_preserved_file`. -/
def preservePath (rootdir : Str) (files : List Str) (path : Str) : List Str :=
  if matchStringInArray files path then files else files ++ [path.drop rootdir.length]

/-- `store_preserved_file`. -/
def storePreservedFile (env : Env) (st : State) (file : Str) : State :=
  let files := st.handle.preservedFiles
  let files :=
    match env.glob (st.rootdir ++ file) with
    | .noMatch => if matchStringInArray files file then files else files ++ [file]
    | .paths ps => ps.foldl (preservePath st.rootdir) files
    | _ => files
  { st with handle := { st.handle with preservedFiles := files } }

/-- `flappy_repo_store`. -/
def repoStore (env : Env) (st : State) (repo : Str) : State :=
  let url :=
    if !repositoryIsRemote repo ∧ repo.head? ≠ some '/' ∧ repo ≠ [] then
      (env.realpath repo).getD repo
    else repo
  if matchStringInArray st.repositories url then st
  else { st with repositories := st.repositories ++ [url] }

/-- `store_repo`. -/
def storeRepo (env : Env) (st : State) (repo : Str) : State :=
  if st.ignoreConfRepos then st else repoStore env st repo

/-- `store_ignored_pkg`. -/
def storeIgnoredPkg (st : State) (pkgname : Str) : State :=
  { st with handle := { st.handle with ignoredPkgs := st.handle.ignoredPkgs ++ [pkgname] } }

/-- `store_noextract`. -/
def storeNoextract (st : State) (value : Str) : State :=
  if value = [] then st else { st with noextract := st.noextract ++ [value] }

/-- `strcasecmp (val, "true") == 0`. -/
def isTrue (val : Str) : Bool := val.map Char.toLower = "true".toList

/-- `snprintf (buf, size, "%s", val)` into a field of the handle: what is in the
field, and what is assigned to the result. -/
def storeField (size : Nat) (val : Str) : Str × Option Nat :=
  (val.take (size - 1), if size ≤ val.length then some enomem else none)

/-! ### Lines and files -/

/-- The `switch` of `parse_file`: the state after the line and what it assigns
to the result. -/
def handleOption (env : Env) (parseInclude : State → Str → Str → State × Nat) (nested : Bool)
    (path : Str) (st : State) (key : Key) (val : Str) : State × Option Nat :=
  match key with
  | .rootdir =>
    let (rootdir, rv) := storeField maxPath val
    ({ st with rootdir }, rv)
  | .cachedir =>
    let (cachedir, rv) := storeField maxPath val
    ({ st with cachedir }, rv)
  | .architecture =>
    let (nativeArch, rv) := storeField archSize val
    ({ st with nativeArch }, rv)
  | .staging => ({ st with useStage := isTrue val }, none)
  | .syslog => ({ st with disableSyslog := !isTrue val }, none)
  | .repository => (storeRepo env st val, none)
  | .virtualpkg =>
    let (st, ok) := storeVirtualpkgMem env st val
    (st, some (if ok then 0 else enomem))
  | .preserve => (storePreservedFile env st val, none)
  | .keepconf => ({ st with keepConfig := isTrue val }, none)
  | .bestmatching =>
    let flags := { st.handle.flags with bestmatch := isTrue val }
    ({ st with handle := { st.handle with flags } }, none)
  | .ignorepkg => (storeIgnoredPkg st val, none)
  | .noextract => (storeNoextract st val, none)
  | .include_ =>
    if nested then (st, none)
    else
      let (st, rv) := parseInclude st (dirname path) val
      (st, some rv)

/-- The key and the value of a line; `none` for comments, empty lines and lines
that `parse_option` does not accept. -/
def lineOption (probe : Probe) (buf : Str) : Option (Key × Str) :=
  let (line, rd) := fileLine buf
  if line.head? = some '#' ∨ line = [] then none
  else (parseOption probe line rd).map fun r => (r.1, r.2.1)

/-- The body of the loop of `parse_file`. -/
def parseLine (env : Env) (parseInclude : State → Str → Str → State × Nat) (nested : Bool)
    (path : Str) (st : State) (buf : Str) : State × Option Nat :=
  match lineOption env.probe buf with
  | none => (st, none)
  | some (key, val) => handleOption env parseInclude nested path st key val

/-- `parse_file`, where `parseInclude` is the call for an `include` line. -/
def parseFileWith (env : Env) (parseInclude : State → Str → Str → State × Nat) (nested : Bool)
    (st : State) (path : Str) : State × Nat :=
  match env.fopen path with
  | .error e => (st, e)
  | .ok lines => verdict (parseLine env parseInclude nested path) st 0 lines

/-- The path that `parse_files_glob` hands to `glob`. -/
def globPath (st : State) (cwd pat : Str) : Str :=
  (if pat.head? = some '/' then st.rootdir else cwd) ++ '/' :: pat

/-- `basename`. -/
def basename (path : Str) : Str :=
  if path = [] then ['.']
  else
    let path := path.rdropWhile (· = '/')
    if path = [] then ['/']
    else
      match strrchr '/' path with
      | some (_, base) => base
      | none => path

/-- A file of the name was read before. -/
def Masked (seen : Option (List Str)) (path : Str) : Prop :=
  ∃ names, seen = some names ∧ basename path ∈ names

instance (seen : Option (List Str)) (path : Str) : Decidable (Masked seen path) :=
  decidable_of_iff (basename path ∈ seen.getD []) (by cases seen <;> simp [Masked])

/-- The body of the loop of `parse_files_glob`: a file that is read without an
error assigns nothing to the result. -/
def globStep (parse : State → Str → State × Nat) (s : State × Option (List Str)) (path : Str) :
    (State × Option (List Str)) × Option Nat :=
  if Masked s.2 path then (s, none)
  else
    let (st, rv2) := parse s.1 path
    ((st, s.2.map (basename path :: ·)), if rv2 ≠ 0 then some rv2 else none)

/-- `parse_files_glob`, where `parse` is the call for a file; `seen` is `none` for `NULL`. -/
def parseFilesGlobWith (env : Env) (parse : State → Str → State × Nat) (st : State)
    (seen : Option (List Str)) (cwd pat : Str) : (State × Option (List Str)) × Nat :=
  if pathMax ≤ (globPath st cwd pat).length then ((st, seen), enomem)
  else
    match env.glob (globPath st cwd pat) with
    | .noSpace => ((st, seen), enomem)
    | .noMatch => ((st, seen), 0)
    | .aborted => ((st, seen), 0)
    | .paths ps => verdict (globStep parse) (st, seen) 0 ps

/-- An `include` line of an included file is ignored. -/
def noInclude (st : State) (_ _ : Str) : State × Nat := (st, 0)

/-- `parse_file` on an included file. -/
def parseNested (env : Env) : State → Str → State × Nat := parseFileWith env noInclude true

/-- The call of `parse_files_glob` for an `include` line. -/
def parseInclude (env : Env) (st : State) (cwd pat : Str) : State × Nat :=
  let (s, rv) := parseFilesGlobWith env (parseNested env) st none cwd pat
  (s.1, rv)

/-- `parse_file`. -/
def parseFile (env : Env) (nested : Bool) : State → Str → State × Nat :=
  parseFileWith env (parseInclude env) nested

/-- `parse_files_glob`. -/
def parseFilesGlob (env : Env) (nested : Bool) :
    State → Option (List Str) → Str → Str → (State × Option (List Str)) × Nat :=
  parseFilesGlobWith env (parseFile env nested)

/-- One directory of `flappy_conf_init`; an empty path names none. -/
def readConfdir (env : Env) (st : State) (seen : Option (List Str)) (dir : Str) :
    (State × Option (List Str)) × Nat :=
  if dir = [] then ((st, seen), 0) else parseFilesGlob env false st seen dir "*.conf".toList

/-- `flappy_conf_init`. -/
def confInit (env : Env) (st : State) (confdir sysconfdir : Str) : State × Nat :=
  let (s, rv) := readConfdir env st (some []) confdir
  if rv ≠ 0 then (s.1, rv)
  else
    let (s, rv) := readConfdir env s.1 s.2 sysconfdir
    (s.1, rv)

/-- On an included file, `parse_file` does not reach the call for an `include` line. -/
theorem parseFile_nested (env : Env) : parseFile env true = parseNested env := by
  have hline : ∀ path st buf, parseLine env (parseInclude env) true path st buf =
      parseLine env noInclude true path st buf := by
    intro path st buf
    rw [parseLine, parseLine]
    rcases lineOption env.probe buf with _ | ⟨key, val⟩
    · rfl
    · cases key <;> rfl
  funext st path
  rw [parseFile, parseNested, parseFileWith, parseFileWith]
  have hfun : parseLine env (parseInclude env) true path = parseLine env noInclude true path :=
    funext fun st => funext fun buf => hline path st buf
  rw [hfun]

/-- With memory to spare, a `virtualpkg` line stores what it says if nothing is released that is
in use. -/
theorem storeVirtualpkgMem_enough (env : Env) (hoom : ∀ n, env.oom n = false) (st : State)
    (val : Str) :
    (storeVirtualpkgMem env st val).2 = true ∧
      ((storeVirtualpkgMem env st val).1.released = false →
        storeVirtualpkg env.alloc st.handle val =
          some (storeVirtualpkgMem env st val).1.handle) := by
  have hadd : ∀ n d name ver provider, ∃ m, vpkgMapAddMem env.oom n d name ver provider =
      (m, setProvider d name ver provider, true) := by
    intro n d name ver provider
    by_cases hd : (d.get name).isSome
    · exact ⟨n + 1, by simp [vpkgMapAddMem, hd, hoom]⟩
    · exact ⟨n + 3, by simp [vpkgMapAddMem, hd, hoom]⟩
  rw [storeVirtualpkgMem, storeVirtualpkg]
  rcases strchr ':' val with _ | ⟨vpkg, _ | ⟨c, provider⟩⟩
  · exact ⟨rfl, fun _ => rfl⟩
  · exact ⟨rfl, fun _ => rfl⟩
  · obtain ⟨m, hm⟩ := hadd st.requests st.handle.vpkgd (vpkgNameVersion vpkg).1
      (vpkgNameVersion vpkg).2 (c :: provider)
    obtain ⟨m', hm'⟩ := hadd m st.handle.vpkgdConf (vpkgNameVersion vpkg).1
      (vpkgNameVersion vpkg).2 (c :: provider)
    simp only [hm, hm', Bool.not_true, Bool.false_eq_true, if_false, Bool.or_eq_false_iff]
    refine ⟨trivial, ?_⟩
    rintro ⟨⟨-, hkept⟩, hkept'⟩
    simp [vpkgMapAdd, hkept, hkept']

/-! ### Failures -/

/-- Handling the line fails. -/
def LineFails (env : Env) (includeFails : State → Str → Str → Prop) (nested : Bool) (path : Str)
    (st : State) (buf : Str) : Prop :=
  match lineOption env.probe buf with
  | some (.rootdir, val) => maxPath ≤ val.length
  | some (.cachedir, val) => maxPath ≤ val.length
  | some (.architecture, val) => archSize ≤ val.length
  | some (.virtualpkg, val) => (storeVirtualpkgMem env st val).2 = false
  | some (.include_, val) => nested = false ∧ includeFails st (dirname path) val
  | _ => False

/-- The line assigns the result in any case. -/
def Resets (probe : Probe) (nested : Bool) (buf : Str) : Prop :=
  ∃ key val, lineOption probe buf = some (key, val) ∧
    (key = .virtualpkg ∨ key = .include_ ∧ nested = false)

/-- The file cannot be read, or handling some line of it fails. -/
def FileFails (env : Env) (parseInclude : State → Str → Str → State × Nat)
    (includeFails : State → Str → Str → Prop) (nested : Bool) (st : State) (path : Str) : Prop :=
  (∃ e, env.fopen path = .error e) ∨
    ∃ pre buf post, env.fopen path = .ok (pre ++ buf :: post) ∧
      LineFails env includeFails nested path
        (stateAfter (parseLine env parseInclude nested path) st pre) buf

/-- The file cannot be read, or some line of it fails and none behind it is a
`virtualpkg` line or an `include` line that is followed. -/
def FileReports (env : Env) (parseInclude : State → Str → Str → State × Nat)
    (includeReports : State → Str → Str → Prop) (nested : Bool) (st : State) (path : Str) : Prop :=
  (∃ e, env.fopen path = .error e) ∨
    ∃ pre buf post, env.fopen path = .ok (pre ++ buf :: post) ∧
      LineFails env includeReports nested path
        (stateAfter (parseLine env parseInclude nested path) st pre) buf ∧
      ∀ buf' ∈ post, ¬ Resets env.probe nested buf'

/-- The pattern cannot be expanded, or one of the files fails that are read for it. -/
def GlobFails (env : Env) (parse : State → Str → State × Nat) (fileFails : State → Str → Prop)
    (st : State) (seen : Option (List Str)) (cwd pat : Str) : Prop :=
  pathMax ≤ (globPath st cwd pat).length ∨
    match env.glob (globPath st cwd pat) with
    | .noSpace => True
    | .noMatch => False
    | .aborted => False
    | .paths ps =>
      ∃ pre path post, ps = pre ++ path :: post ∧
        ¬ Masked (stateAfter (globStep parse) (st, seen) pre).2 path ∧
        fileFails (stateAfter (globStep parse) (st, seen) pre).1 path

/-- Reading an included file fails. -/
def NestedFails (env : Env) : State → Str → Prop :=
  FileFails env noInclude (fun _ _ _ => False) true

/-- An `include` line fails. -/
def IncludeFails (env : Env) (st : State) (cwd pat : Str) : Prop :=
  GlobFails env (parseNested env) (NestedFails env) st none cwd pat

/-- Reading a configuration file fails. -/
def Fails (env : Env) (nested : Bool) : State → Str → Prop :=
  FileFails env (parseInclude env) (IncludeFails env) nested

/-- An included file has a failure with no `virtualpkg` line behind it. -/
def NestedReports (env : Env) : State → Str → Prop :=
  FileReports env noInclude (fun _ _ _ => False) true

/-- The pattern of an `include` line cannot be expanded, or one of the files has
a failure with no `virtualpkg` line behind it. -/
def IncludeReports (env : Env) (st : State) (cwd pat : Str) : Prop :=
  GlobFails env (parseNested env) (NestedReports env) st none cwd pat

/-- A configuration file has a failure with no `virtualpkg` line behind it and
no `include` line that is followed; if it is an `include` line itself, its files report it. -/
def Reports (env : Env) (nested : Bool) : State → Str → Prop :=
  FileReports env (parseInclude env) (IncludeReports env) nested

/-! ### What a line assigns -/

theorem storeField_assigns (size : Nat) (val : Str) :
    (∃ r, (storeField size val).2 = some r ∧ r ≠ 0) ↔ size ≤ val.length := by
  rw [storeField]
  by_cases h : size ≤ val.length
  · simp [h, enomem]
  · simp [h]

/-- A line assigns an error exactly if handling it fails. -/
theorem parseLine_error_iff {env : Env} {inc : State → Str → Str → State × Nat}
    {includeFails : State → Str → Str → Prop}
    (hinc : ∀ st cwd pat, (inc st cwd pat).2 ≠ 0 ↔ includeFails st cwd pat) (nested : Bool)
    (path : Str) (st : State) (buf : Str) :
    (∃ r, (parseLine env inc nested path st buf).2 = some r ∧ r ≠ 0) ↔
      LineFails env includeFails nested path st buf := by
  rw [parseLine, LineFails]
  rcases lineOption env.probe buf with _ | ⟨key, val⟩
  · simp
  · cases key with
    | rootdir => exact storeField_assigns maxPath val
    | cachedir => exact storeField_assigns maxPath val
    | architecture => exact storeField_assigns archSize val
    | virtualpkg =>
      simp only [handleOption]
      cases (storeVirtualpkgMem env st val).2 <;> simp [enomem]
    | include_ =>
      cases nested with
      | true => simp [handleOption]
      | false => simp [handleOption, ← hinc]
    | _ => simp [handleOption]

/-- A `virtualpkg` line and an `include` line that is followed always assign. -/
theorem parseLine_assigns {env : Env} {inc : State → Str → Str → State × Nat} {nested : Bool}
    {path : Str} {st : State} {buf : Str} (h : Resets env.probe nested buf) :
    (parseLine env inc nested path st buf).2 ≠ none := by
  obtain ⟨key, val, hopt, rfl | ⟨rfl, rfl⟩⟩ := h
  · simp [parseLine, hopt, handleOption]
  · simp [parseLine, hopt, handleOption]

/-- The other lines assign errors only. -/
theorem parseLine_quiet {env : Env} {inc : State → Str → Str → State × Nat} {nested : Bool}
    {path : Str} {st : State} {buf : Str} (h : ¬ Resets env.probe nested buf) :
    (parseLine env inc nested path st buf).2 ≠ some 0 := by
  rw [parseLine]
  rcases hopt : lineOption env.probe buf with _ | ⟨key, val⟩
  · simp
  · have hfield : ∀ size, (storeField size val).2 ≠ some 0 := by
      intro size
      rw [storeField]
      by_cases hs : size ≤ val.length <;> simp [hs, enomem]
    cases key with
    | rootdir => exact hfield maxPath
    | cachedir => exact hfield maxPath
    | architecture => exact hfield archSize
    | virtualpkg => exact absurd ⟨_, _, hopt, Or.inl rfl⟩ h
    | include_ =>
      cases nested with
      | true => simp [handleOption]
      | false => exact absurd ⟨_, _, hopt, Or.inr ⟨rfl, rfl⟩⟩ h
    | _ => simp [handleOption]

/-! ### What a file returns -/

theorem parseFileWith_ne_zero_iff {env : Env} {inc : State → Str → Str → State × Nat}
    {includeReports : State → Str → Str → Prop}
    (hinc : ∀ st cwd pat, (inc st cwd pat).2 ≠ 0 ↔ includeReports st cwd pat) (nested : Bool)
    (st : State) (path : Str) :
    (parseFileWith env inc nested st path).2 ≠ 0 ↔
      FileReports env inc includeReports nested st path := by
  rw [parseFileWith, FileReports]
  cases hopen : env.fopen path with
  | error e =>
    have he : e.1 ≠ 0 := e.2
    simp [he]
  | ok lines =>
    have hassign : ∀ s buf, Resets env.probe nested buf →
        (parseLine env inc nested path s buf).2 ≠ none := fun _ _ h => parseLine_assigns h
    have hquiet : ∀ s buf, ¬ Resets env.probe nested buf →
        (parseLine env inc nested path s buf).2 ≠ some 0 := fun _ _ h => parseLine_quiet h
    simp only
    rw [verdict_ne_iff hassign hquiet]
    simp only [parseLine_error_iff hinc, reduceCtorEq, exists_false, Except.ok.injEq, false_or]

/-- `parse_files_glob` forgets nothing: it returns an error exactly if the
pattern cannot be expanded or some file of it returns one. -/
theorem parseFilesGlobWith_ne_zero_iff {env : Env} {parse : State → Str → State × Nat}
    {reports : State → Str → Prop} (hparse : ∀ st path, (parse st path).2 ≠ 0 ↔ reports st path)
    (st : State) (seen : Option (List Str)) (cwd pat : Str) :
    (parseFilesGlobWith env parse st seen cwd pat).2 ≠ 0 ↔
      GlobFails env parse reports st seen cwd pat := by
  have herr : ∀ s path, (∃ r, (globStep parse s path).2 = some r ∧ r ≠ 0) ↔
      ¬ Masked s.2 path ∧ reports s.1 path := by
    intro s path
    rw [globStep, ← hparse]
    by_cases hm : Masked s.2 path
    · simp [hm]
    · by_cases hr : (parse s.1 path).2 = 0 <;> simp [hm, hr]
  have hquiet : ∀ s path, (globStep parse s path).2 ≠ some 0 := by
    intro s path
    rw [globStep]
    by_cases hm : Masked s.2 path
    · simp [hm]
    · by_cases hr : (parse s.1 path).2 = 0 <;> simp [hm, hr]
  rw [parseFilesGlobWith, GlobFails]
  by_cases hlen : pathMax ≤ (globPath st cwd pat).length
  · simp [hlen, enomem]
  · rw [if_neg hlen]
    cases env.glob (globPath st cwd pat) with
    | noSpace => simp [enomem]
    | noMatch => simp [hlen]
    | aborted => simp [hlen]
    | paths ps =>
      simp only
      rw [@verdict_ne_iff _ _ _ _ (fun _ => False) _ (fun _ _ h => h.elim) (fun s p _ => hquiet s p)]
      simp only [herr, hlen, false_or, not_false_eq_true, implies_true, and_true]

theorem parseInclude_ne_zero_iff (env : Env) (st : State) (cwd pat : Str) :
    (parseInclude env st cwd pat).2 ≠ 0 ↔ IncludeReports env st cwd pat := by
  have hnested : ∀ st path, (parseNested env st path).2 ≠ 0 ↔ NestedReports env st path :=
    parseFileWith_ne_zero_iff (by simp [noInclude]) true
  exact parseFilesGlobWith_ne_zero_iff hnested st none cwd pat

/-- **`parse_file` returns an error exactly if the file cannot be read or a
failure is not overwritten** by a line that assigns the result in any case. -/
theorem parseFile_ne_zero_iff (env : Env) (nested : Bool) (st : State) (path : Str) :
    (parseFile env nested st path).2 ≠ 0 ↔ Reports env nested st path :=
  parseFileWith_ne_zero_iff (parseInclude_ne_zero_iff env) nested st path

theorem parseFilesGlob_ne_zero_iff (env : Env) (nested : Bool) (st : State)
    (seen : Option (List Str)) (cwd pat : Str) :
    (parseFilesGlob env nested st seen cwd pat).2 ≠ 0 ↔
      GlobFails env (parseFile env nested) (Reports env nested) st seen cwd pat :=
  parseFilesGlobWith_ne_zero_iff (parseFile_ne_zero_iff env nested) st seen cwd pat

/-- Some file of a configuration directory reports a failure. -/
def DirReports (env : Env) (s : State × Option (List Str)) (dir : Str) : Prop :=
  dir ≠ [] ∧
    GlobFails env (parseFile env false) (Reports env false) s.1 s.2 dir "*.conf".toList

theorem readConfdir_ne_zero_iff (env : Env) (st : State) (seen : Option (List Str)) (dir : Str) :
    (readConfdir env st seen dir).2 ≠ 0 ↔ DirReports env (st, seen) dir := by
  rw [readConfdir, DirReports]
  by_cases hdir : dir = []
  · simp [hdir]
  · rw [if_neg hdir, parseFilesGlob_ne_zero_iff]
    simp [hdir]

/-- The library starts with an error exactly if a file of one of its
directories reports a failure. -/
theorem confInit_ne_zero_iff (env : Env) (st : State) (confdir sysconfdir : Str) :
    (confInit env st confdir sysconfdir).2 ≠ 0 ↔
      DirReports env (st, some []) confdir ∨
        DirReports env (readConfdir env st (some []) confdir).1 sysconfdir := by
  rw [← readConfdir_ne_zero_iff, ← readConfdir_ne_zero_iff, confInit]
  by_cases hrv : (readConfdir env st (some []) confdir).2 = 0
  · simp [hrv]
  · simp [hrv]

/-- What reports a failure has one. -/
theorem LineFails.mono {env : Env} {P Q : State → Str → Str → Prop} {nested : Bool} {path : Str}
    {st : State} {buf : Str} (hPQ : ∀ st cwd pat, P st cwd pat → Q st cwd pat)
    (h : LineFails env P nested path st buf) : LineFails env Q nested path st buf := by
  rw [LineFails] at h ⊢
  rcases hopt : lineOption env.probe buf with _ | ⟨key, val⟩
  · rw [hopt] at h
    exact h
  · rw [hopt] at h
    cases key with
    | include_ => exact ⟨h.1, hPQ _ _ _ h.2⟩
    | _ => exact h

theorem FileReports.fails {env : Env} {inc : State → Str → Str → State × Nat}
    {P Q : State → Str → Str → Prop} {nested : Bool} {st : State} {path : Str}
    (hPQ : ∀ st cwd pat, P st cwd pat → Q st cwd pat)
    (h : FileReports env inc P nested st path) : FileFails env inc Q nested st path := by
  rcases h with herr | ⟨pre, buf, post, hopen, hfail, -⟩
  · exact Or.inl herr
  · exact Or.inr ⟨pre, buf, post, hopen, hfail.mono hPQ⟩

theorem GlobFails.mono {env : Env} {parse : State → Str → State × Nat} {P Q : State → Str → Prop}
    (hPQ : ∀ st path, P st path → Q st path) {st : State} {seen : Option (List Str)}
    {cwd pat : Str} (h : GlobFails env parse P st seen cwd pat) :
    GlobFails env parse Q st seen cwd pat := by
  rcases h with hlen | h
  · exact Or.inl hlen
  · right
    cases hg : env.glob (globPath st cwd pat) with
    | paths ps =>
      rw [hg] at h
      obtain ⟨pre, path, post, hps, hm, hf⟩ := h
      exact ⟨pre, path, post, hps, hm, hPQ _ _ hf⟩
    | _ =>
      rw [hg] at h
      exact h

/-- An error is returned only if something failed. -/
theorem parseFile_fails {env : Env} {nested : Bool} {st : State} {path : Str}
    (h : (parseFile env nested st path).2 ≠ 0) : Fails env nested st path := by
  refine FileReports.fails ?_ ((parseFile_ne_zero_iff env nested st path).mp h)
  intro st cwd pat
  refine GlobFails.mono ?_
  intro st path
  exact FileReports.fails fun _ _ _ hf => hf

/-- If reading the file fails, `parse_file` returns an error. -/
def Remembers (env : Env) (nested : Bool) (st : State) (path : Str) : Prop :=
  Fails env nested st path → (parseFile env nested st path).2 ≠ 0

/-- **Errors are remembered exactly if nothing fails or some failure is not
overwritten**: behind it comes no `virtualpkg` line and no `include` line that
is followed. -/
theorem parseFile_remembers_iff (env : Env) (nested : Bool) (st : State) (path : Str) :
    Remembers env nested st path ↔ ¬ Fails env nested st path ∨ Reports env nested st path := by
  rw [Remembers, parseFile_ne_zero_iff, imp_iff_not_or]

/-- A configuration that includes a file nobody may read, and then names a
virtual package. -/
def forgetfulEnv : Env where
  probe := Probe.middle
  fopen path :=
    if path = "/c/a.conf".toList then
      .ok ["include=b\n".toList, "virtualpkg=awk:gawk\n".toList]
    else .error ⟨13, by omega⟩
  glob pattern := .paths [pattern]
  realpath _ := none
  oom _ := false
  alloc := true

/-- The unreadable file is forgotten. -/
theorem parseFile_forgets : ¬ Remembers forgetfulEnv false {} "/c/a.conf".toList := by
  intro hrem
  have hrv : (parseFile forgetfulEnv false {} "/c/a.conf".toList).2 = 0 := by decide +kernel
  refine hrem (Or.inr ⟨[], "include=b\n".toList, ["virtualpkg=awk:gawk\n".toList], rfl, ?_⟩) hrv
  have hopt : lineOption forgetfulEnv.probe "include=b\n".toList = some (.include_, ['b']) := by
    decide +kernel
  rw [LineFails, hopt]
  refine ⟨rfl, Or.inr ⟨[], "/c/b".toList, [], rfl, ?_, Or.inl ⟨⟨13, by omega⟩, rfl⟩⟩⟩
  simp [Masked, stateAfter]

end Flappy.Conf
