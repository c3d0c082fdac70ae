/-
Locally modified files (`lib/transaction_files.c`).

A path that goes away must be the file its package installed: its hash on disk
has to be the recorded one, or the user has asked to remove it anyway.  The
hash takes a long way, from the loops of `collect_files` through the item table
to the hash check, and it can get lost in three places: the variable that holds
it outlives an entry without a hash, a second owner of the path is merged into
the item of the first, and an error other than `ENOENT` lets the path go on.

* `firstOwner` — the entry of the transaction whose installed file list decides
  about a path, with the hash by which the path is judged;
* `oldRecord_firstOwner` — what the item table remembers of it;
* `transactionFiles_keepsModified` — modified files are kept iff every path that goes is
  judged by a hash that is recorded for it, and has the hashes that its other owners record.
-/
import Mathlib.Data.List.Find
import Flappy.Files.Obsoletes

open CStr

namespace Flappy

/-! ### The recorded hashes -/

/-- The first occurrence of a path in a file list: its type, and the target of a link. -/
def FilesDict.find (d : FilesDict) (f : Str) : Option (FileType × Option Str) :=
  ((d.files.find? fun e => e.file = f).map fun _ => (.file, none)).or
    (((d.confFiles.find? fun e => e.file = f).map fun _ => (.conffile, none)).or
      (((d.links.find? fun e => e.1 = f).map fun e => (.link, some e.2)).or
        ((d.dirs.find? fun file => file = f).map fun _ => (.dir, none))))

/-- The hash with which the first entry of a path is passed on: its own, or the latest one
before it. -/
def carriedHash : List FileEntry → Option Str → Str → Option Str
  | [], _, _ => none
  | e :: es, sha256, f =>
    if e.file = f then e.sha256.or sha256 else carriedHash es (e.sha256.or sha256) f

/-- The same for a whole file list. -/
def FilesDict.carriedHash (d : FilesDict) (f : Str) : Option Str :=
  Flappy.carriedHash (d.files ++ d.confFiles) none f

/-- A transaction entry whose installed version owns a path. -/
structure PathOwner where
  obj : PkgDict
  type : FileType
  /-- The hash by which the path is judged. -/
  judge : Option Str
  /-- The target of a link. -/
  target : Option Str

/-- The file list that the transaction removes for an entry. -/
def removedFiles (xhp : Handle) (lists : FileLists) (obj : PkgDict) : Option FilesDict :=
  if obj.transaction = .hold ∨ obj.transaction = .configure then none
  else obj.pkgname.bind (installedFiles xhp lists)

/-- The ownership of a path by one entry. -/
def pathOwner (xhp : Handle) (lists : FileLists) (f : Str) (obj : PkgDict) : Option PathOwner :=
  (removedFiles xhp lists obj).bind fun d =>
    (d.find f).map fun e => ⟨obj, e.1, d.carriedHash f, e.2⟩

/-- The first owner of a path in the transaction. -/
def firstOwner (xhp : Handle) (lists : FileLists) (pkgs : List PkgDict) (f : Str) :
    Option PathOwner :=
  pkgs.findSome? (pathOwner xhp lists f)

/-- The installed version of an entry records a hash for this very path. -/
def RecordsHash (xhp : Handle) (lists : FileLists) (obj : PkgDict) (f h : Str) : Prop :=
  ∃ d, removedFiles xhp lists obj = some d ∧
    ∃ e ∈ d.files ++ d.confFiles, e.file = f ∧ e.sha256 = some h

/-- The type under which the transaction first provides a path anew. -/
def newType (lists : FileLists) (pkgs : List PkgDict) (f : Str) : Option FileType :=
  ((newOccurrences lists pkgs).find? fun e => e.1 = f).map Prod.snd

/-- The user asked to remove the path even if it was modified. -/
def ForcedRemoval (xhp : Handle) (lists : FileLists) (pkgs : List PkgDict) (obj : PkgDict)
    (f : Str) : Prop :=
  obj.transaction = .remove ∧ (∀ t, (f, t) ∉ newOccurrences lists pkgs) ∧
    xhp.flags.forceRemoveFiles = true

/-- Modified files are kept: whatever is in an `obsolete_files` list is not
preserved by the configuration and has the hash its owner recorded, or is removed
by force; and no path is compared with a hash that was not recorded for it. -/
structure KeepsModified (xhp : Handle) (env : FilesEnv) (pkgs : List PkgDict) (s : Obsoletes) :
    Prop where
  listed : ∀ n file, file ∈ obsoletesOf s.obsd n → ∃ f, file = '.' :: f ∧
    matchStringInArray xhp.preservedFiles f = false ∧
    ∀ obj ∈ pkgs, ∀ h, RecordsHash xhp env.lists obj f h →
      env.disk.sha256 file = .ok h ∨ ForcedRemoval xhp env.lists pkgs obj f
  ownHash : ∀ check ∈ s.checks, ∃ f, check.1 = '.' :: f ∧
    ∃ obj ∈ pkgs, RecordsHash xhp env.lists obj f check.2

/-- A package that owns the path as a directory is to be preserved. -/
def DirPreserved (xhp : Handle) (lists : FileLists) (pkgs : List PkgDict) (f : Str) : Prop :=
  ∃ obj ∈ pkgs, obj.preserve.getD false = true ∧
    ∃ d, removedFiles xhp lists obj = some d ∧ f ∈ d.dirs

/-- The transaction drops the path, or provides it with another type. -/
def Examined (xhp : Handle) (lists : FileLists) (pkgs : List PkgDict) (f : Str) (o : PathOwner) :
    Prop :=
  matchStringInArray xhp.preservedFiles f = false ∧ f ∉ baseSymlinks ∧
    match newType lists pkgs f with
    | none =>
      if o.type = .dir then ¬ DirPreserved xhp lists pkgs f else o.obj.preserve.getD false = false
    | some t => t ≠ .conffile ∧ t ≠ o.type

/-- The link of a removed package has another target on disk. -/
def Retargeted (xhp : Handle) (env : FilesEnv) (pkgs : List PkgDict) (f : Str) (o : PathOwner) :
    Prop :=
  o.type = .link ∧ o.obj.transaction = .remove ∧ (∀ t, (f, t) ∉ newOccurrences env.lists pkgs) ∧
    xhp.flags.forceRemoveFiles = false ∧
    env.disk.symlinkTarget f (o.target.getD []) ≠ some (o.target.getD [])

/-- The ways in which an examined path gets past the checks: there is no hash to judge it by,
the file has that hash, its removal is forced, or it cannot be read (`ERANGE` is the code's
own sign for a mismatch). -/
def LetGo (xhp : Handle) (env : FilesEnv) (pkgs : List PkgDict) (f : Str) (o : PathOwner) : Prop :=
  match o.judge with
  | none => ¬ Retargeted xhp env pkgs f o
  | some x =>
    match env.disk.sha256 ('.' :: f) with
    | .ok digest => digest = x ∨ ForcedRemoval xhp env.lists pkgs o.obj f
    | .error e => e ≠ .enoent ∧ (e = .erange → ForcedRemoval xhp env.lists pkgs o.obj f)

/-- Every examined path is judged by a hash that is recorded for it; and one that gets past
the checks has the hashes that its owners record, or they are removed by force. -/
structure HashesSound (xhp : Handle) (env : FilesEnv) (pkgs : List PkgDict) : Prop where
  judged : ∀ f o, firstOwner xhp env.lists pkgs f = some o → Examined xhp env.lists pkgs f o →
    ∀ x ∈ o.judge, ∃ obj ∈ pkgs, RecordsHash xhp env.lists obj f x
  recorded : ∀ f o, firstOwner xhp env.lists pkgs f = some o → Examined xhp env.lists pkgs f o →
    LetGo xhp env pkgs f o → ∀ obj ∈ pkgs, ∀ h, RecordsHash xhp env.lists obj f h →
      env.disk.sha256 ('.' :: f) = .ok h ∨ ForcedRemoval xhp env.lists pkgs obj f

/-! ### From the file list to the calls -/

theorem carriedHash_of_find?_none {es : List FileEntry} {f : Str}
    (h : (es.find? fun e => e.file = f) = none) (sha256 : Option Str) :
    carriedHash es sha256 f = none := by
  induction es generalizing sha256 with
  | nil => rfl
  | cons e es ih =>
    rw [List.find?_cons] at h
    split at h
    · cases h
    · next he => rw [carriedHash, if_neg (by simpa using he), ih h]

/-- Where every entry has a hash, the one that is passed on is recorded for the path. -/
theorem carriedHash_of_own {es : List FileEntry} {f x : Str} {sha256 : Option Str}
    (hown : ∀ e ∈ es, e.sha256.isSome) (h : carriedHash es sha256 f = some x) :
    ∃ e ∈ es, e.file = f ∧ e.sha256 = some x := by
  induction es generalizing sha256 with
  | nil => cases h
  | cons e es ih =>
    rw [carriedHash] at h
    split at h
    · next hf =>
      obtain ⟨y, hy⟩ := Option.isSome_iff_exists.mp (hown e List.mem_cons_self)
      rw [hy, Option.some_or] at h
      exact ⟨e, List.mem_cons_self, hf, hy.trans h⟩
    · obtain ⟨e', he', hrest⟩ := ih (fun e' he' => hown e' (List.mem_cons_of_mem _ he')) h
      exact ⟨e', List.mem_cons_of_mem _ he', hrest⟩

/-- What the variable `sha256` holds after some entries. -/
def lastHash (es : List FileEntry) (sha256 : Option Str) : Option Str :=
  es.foldl (fun sha256 e => e.sha256.or sha256) sha256

theorem carriedHash_append (es es' : List FileEntry) (f : Str) :
    ∀ sha256, carriedHash (es ++ es') sha256 f =
      if (es.find? fun e => e.file = f).isSome then carriedHash es sha256 f
      else carriedHash es' (lastHash es sha256) f := by
  induction es with
  | nil =>
    intro sha256
    simp [lastHash]
  | cons e es ih =>
    intro sha256
    rw [List.cons_append, carriedHash, carriedHash]
    by_cases he : e.file = f
    · simp [he]
    · rw [if_neg he, if_neg he, List.find?_cons_of_neg (by simp [he]), ih]
      rfl

/-- The calls for `files` or `conf_files`: the last value of the variable `sha256`, and the
first call for a path. -/
theorem FilesPass.find_regularCalls {p : FilesPass} (hr : p.removefile = true) (type : FileType)
    (f : Str) :
    ∀ (es : List FileEntry) (sha256 : Option Str),
      (p.regularCalls type sha256 es).2 = lastHash es sha256 ∧
      (p.regularCalls type sha256 es).1.find? (fun c => c.file = f) =
        (es.find? fun e => e.file = f).map fun e =>
          p.call type f (carriedHash es sha256 f) none e.size := by
  intro es
  induction es with
  | nil =>
    intro sha256
    exact ⟨rfl, rfl⟩
  | cons e es ih =>
    intro sha256
    obtain ⟨hlast, hfind⟩ := ih (e.sha256.or sha256)
    rw [FilesPass.regularCalls]
    simp only [hr, if_true]
    refine ⟨hlast, ?_⟩
    by_cases he : e.file = f
    · rw [List.find?_cons_of_pos (by simp [FilesPass.call, he]),
        List.find?_cons_of_pos (by simp [he]), carriedHash, if_pos he, he]
      rfl
    · rw [List.find?_cons_of_neg (by simp [FilesPass.call, he]),
        List.find?_cons_of_neg (by simp [he]), carriedHash, if_neg he, hfind]

/-- The first call that `collect_files` makes for a path of an installed package. -/
theorem FilesPass.find_calls {p : FilesPass} (hr : p.removefile = true) (d : FilesDict) (f : Str) :
    match d.find f with
    | none => (p.calls d).find? (fun c => c.file = f) = none
    | some (type, target) => ∃ size, (p.calls d).find? (fun c => c.file = f) =
        some (p.call type f (d.carriedHash f) target size) := by
  obtain ⟨hlast, hfiles⟩ := FilesPass.find_regularCalls hr .file f d.files none
  obtain ⟨-, hconf⟩ := FilesPass.find_regularCalls hr .conffile f d.confFiles
    (p.regularCalls .file none d.files).2
  rw [hlast] at hconf
  rw [FilesDict.find, FilesPass.calls, FilesDict.carriedHash, carriedHash_append]
  simp only [List.find?_append, hfiles, hlast]
  rw [hconf]
  cases h₁ : d.files.find? fun e => decide (e.file = f) with
  | some e =>
    simp only [Option.map_some, Option.some_or, Option.isSome_some, if_true]
    exact ⟨e.size, rfl⟩
  | none =>
    simp only [Option.map_none, Option.none_or, Option.isSome_none, Bool.false_eq_true, if_false]
    cases h₂ : d.confFiles.find? fun e => decide (e.file = f) with
    | some e =>
      simp only [Option.map_some, Option.some_or]
      exact ⟨e.size, rfl⟩
    | none =>
      -- links and directories have no hash
      rw [carriedHash_of_find?_none h₂]
      simp only [Option.map_none, Option.none_or]
      have hlinks : (d.links.map fun e => p.call .link e.1 none (some e.2) 0).find?
          (fun c => c.file = f) = (d.links.find? fun e => e.1 = f).map fun e =>
            p.call .link e.1 none (some e.2) 0 := List.find?_map
      have hdirs : (d.dirs.map fun file => p.call .dir file none none 0).find?
          (fun c => c.file = f) = (d.dirs.find? fun file => file = f).map fun file =>
            p.call .dir file none none 0 := List.find?_map
      rw [hlinks, hdirs]
      cases h₃ : d.links.find? fun e => decide (e.1 = f) with
      | some e =>
        have he : e.1 = f := by simpa using List.find?_some h₃
        simp only [Option.map_some, Option.some_or, he]
        exact ⟨0, rfl⟩
      | none =>
        simp only [Option.map_none, Option.none_or]
        cases h₄ : d.dirs.find? fun file => decide (file = f) with
        | some file =>
          have he : file = f := by simpa using List.find?_some h₄
          simp only [Option.map_some, he]
          exact ⟨0, rfl⟩
        | none => rfl

/-! ### From the calls to the item table -/

/-- The first call that removes a path. -/
def firstOldCall (calls : List FileCall) (f : Str) : Option FileCall :=
  calls.find? fun c => c.removefile = true ∧ c.file = f

/-- The old side keeps type and hash of the first call, and all of it unless it is
a directory. -/
theorem oldRecord_firstOldCall (calls : List FileCall) (f : Str) :
    match firstOldCall calls f with
    | none => oldRecord calls f = none
    | some c => ∃ old, oldRecord calls f = some old ∧ old.type = c.record.type ∧
        old.sha256 = c.record.sha256 ∧ (c.record.type ≠ .dir → old = c.record) := by
  induction calls using List.reverseRecOn with
  | nil => simp [firstOldCall, oldRecord]
  | append_singleton calls c ih =>
    rw [firstOldCall, List.find?_append, oldRecord_append]
    rw [firstOldCall] at ih
    cases hf : calls.find? fun c => decide (c.removefile = true ∧ c.file = f) with
    | none =>
      simp only [hf] at ih
      by_cases hc : c.removefile = true ∧ c.file = f
      · simp [hc, ih, mergeOld]
      · simp [hc, ih]
    | some c₀ =>
      simp only [hf] at ih
      obtain ⟨old, ho, hty, hsha, hall⟩ := ih
      simp only [Option.some_or]
      by_cases hc : c.removefile = true ∧ c.file = f
      · rw [if_pos hc]
        refine ⟨_, rfl, ?_⟩
        rw [ho, mergeOld]
        split
        · next hm => exact ⟨hty, hsha, fun hd => absurd (hty.symm.trans hm.1.2) hd⟩
        · exact ⟨hty, hsha, hall⟩
      · rw [if_neg hc]
        exact ⟨old, ho, hty, hsha, hall⟩

/-- Some call removes the path as a directory of a package that is to be preserved. -/
def DirCallPreserved (calls : List FileCall) (f : Str) : Prop :=
  ∃ c ∈ calls, c.removefile = true ∧ c.file = f ∧ c.record.type = .dir ∧ c.record.preserve = true

/-- The old side of a directory is to be preserved if one of its owners is: the later ones
take over from the earlier ones until then. -/
theorem oldRecord_preserve {calls : List FileCall} {f : Str} {old : FileRecord}
    (hsorted : calls.Pairwise fun c c' => c.record.index ≤ c'.record.index)
    (h : oldRecord calls f = some old) (hdir : old.type = .dir) :
    old.preserve = true ↔ DirCallPreserved calls f := by
  induction calls using List.reverseRecOn generalizing old with
  | nil => simp [oldRecord] at h
  | append_singleton calls c ih =>
    obtain ⟨hsorted, -, hlast⟩ := List.pairwise_append.mp hsorted
    have hsplit : DirCallPreserved (calls ++ [c]) f ↔ DirCallPreserved calls f ∨
        (c.removefile = true ∧ c.file = f ∧ c.record.type = .dir ∧ c.record.preserve = true) := by
      simp only [DirCallPreserved, List.mem_append, List.mem_singleton, or_and_right, exists_or,
        exists_eq_left]
    rw [hsplit]
    rw [oldRecord_append] at h
    by_cases hc : c.removefile = true ∧ c.file = f
    swap
    · rw [if_neg hc] at h
      rw [ih hsorted h hdir]
      exact (or_iff_left fun hc' => hc ⟨hc'.1, hc'.2.1⟩).symm
    rw [if_pos hc, Option.some.injEq] at h
    cases ho : oldRecord calls f with
    | none =>
      rw [ho, mergeOld] at h
      subst h
      have hno : ¬ DirCallPreserved calls f := by
        rintro ⟨c', hc', hr, hf, -⟩
        obtain ⟨old, hold⟩ : ∃ old, oldRecord calls f = some old := by
          have hfirst := oldRecord_firstOldCall calls f
          cases hcall : firstOldCall calls f with
          | none =>
            rw [firstOldCall, List.find?_eq_none] at hcall
            exact absurd (hcall c' hc') (by simp [hr, hf])
          | some c₀ =>
            simp only [hcall] at hfirst
            exact ⟨_, hfirst.choose_spec.1⟩
        rw [ho] at hold
        cases hold
      simp [hno, hc, hdir]
    | some old₀ =>
      obtain ⟨c₀, hc₀, -, -, -, -, hindex, -, -⟩ := oldRecord_owner ho
      have hle : ¬ c.record.index < old₀.index := by
        rw [hindex]
        exact Nat.not_lt.mpr (hlast c₀ hc₀ c (List.mem_singleton_self c))
      rw [ho, mergeOld] at h
      split at h
      · next hm =>
        -- the call takes over
        subst h
        have hpre : ¬ DirCallPreserved calls f := by
          rw [← ih hsorted ho hm.1.2]
          exact fun hp => hm.2 (Or.inr hp)
        simp [hpre, hc, hm.1.1]
      · next hm =>
        subst h
        rw [← ih hsorted ho hdir]
        constructor
        · exact Or.inl
        · rintro (hp | ⟨-, -, htype, -⟩)
          · exact hp
          · by_contra hp
            exact hm ⟨⟨htype, hdir⟩, fun hor => hor.elim hle hp⟩

theorem find?_oldCalls (xhp : Handle) (lists : FileLists) (idx : Nat) (obj : PkgDict) (f : Str) :
    match pathOwner xhp lists f obj with
    | none => firstOldCall (oldCalls xhp lists idx obj) f = none
    | some o => o.obj = obj ∧ ∃ size pkgname,
        firstOldCall (oldCalls xhp lists idx obj) f =
          some ((pkgdbPass idx obj pkgname).call o.type f o.judge o.target size) := by
  rw [pathOwner, removedFiles, oldCalls]
  by_cases hskip : obj.transaction = .hold ∨ obj.transaction = .configure
  · simp [hskip, firstOldCall]
  · simp only [if_neg hskip]
    cases hn : obj.pkgname with
    | none => simp [firstOldCall]
    | some pkgname =>
      cases hd : installedFiles xhp lists pkgname with
      | none => simp [hd, firstOldCall]
      | some d =>
        simp only [Option.bind_some, hd]
        -- all calls of this pass remove their path
        have hall : firstOldCall ((pkgdbPass idx obj pkgname).calls d) f =
            ((pkgdbPass idx obj pkgname).calls d).find? fun c => c.file = f := by
          rw [firstOldCall]
          refine List.find?_congr fun c hc => ?_
          simp [FilesPass.removefile_of_mem hc, pkgdbPass]
        have hfind := FilesPass.find_calls (p := pkgdbPass idx obj pkgname) rfl d f
        cases hf : d.find f with
        | none =>
          simp only [hf] at hfind
          simpa only [Option.map_none, hall] using hfind
        | some e =>
          obtain ⟨type, target⟩ := e
          simp only [hf] at hfind
          obtain ⟨size, hfind⟩ := hfind
          exact ⟨rfl, size, pkgname, by rw [hall, hfind]⟩

theorem firstOldCall_append (calls calls' : List FileCall) (f : Str) :
    firstOldCall (calls ++ calls') f = (firstOldCall calls f).or (firstOldCall calls' f) :=
  List.find?_append

theorem firstOldCall_newCalls (lists : FileLists) (idx : Nat) (obj : PkgDict) (f : Str) :
    firstOldCall (newCalls lists idx obj) f = none := by
  rw [firstOldCall, List.find?_eq_none]
  intro c hc
  simp [removefile_of_mem_newCalls hc]

/-- What the item table remembers of the first owner of a path. -/
theorem oldRecord_firstOwner (xhp : Handle) (lists : FileLists) (f : Str) :
    ∀ (pkgs : List PkgDict) (idx : Nat),
      match firstOwner xhp lists pkgs f with
      | none => oldRecord (transactionCalls xhp lists idx pkgs) f = none
      | some o => ∃ old, oldRecord (transactionCalls xhp lists idx pkgs) f = some old ∧
          old.type = o.type ∧ old.sha256 = o.judge ∧
          (o.type ≠ .dir → old.removepkg = decide (o.obj.transaction = .remove) ∧
            old.preserve = o.obj.preserve.getD false ∧ old.target = o.target) := by
  intro pkgs
  -- it is enough to find the first call
  suffices hcall : ∀ idx, match firstOwner xhp lists pkgs f with
      | none => firstOldCall (transactionCalls xhp lists idx pkgs) f = none
      | some o => ∃ i size pkgname,
          firstOldCall (transactionCalls xhp lists idx pkgs) f =
            some ((pkgdbPass i o.obj pkgname).call o.type f o.judge o.target size) by
    intro idx
    have hcall := hcall idx
    have hold := oldRecord_firstOldCall (transactionCalls xhp lists idx pkgs) f
    cases hfo : firstOwner xhp lists pkgs f with
    | none =>
      simp only [hfo] at hcall
      simpa only [hcall] using hold
    | some o =>
      simp only [hfo] at hcall
      obtain ⟨i, size, pkgname, hc⟩ := hcall
      simp only [hc] at hold
      obtain ⟨old, ho, hty, hsha, hall⟩ := hold
      refine ⟨old, ho, hty, hsha, fun hd => ?_⟩
      rw [hall hd]
      exact ⟨rfl, rfl, rfl⟩
  induction pkgs with
  | nil => intro idx; simp [firstOwner, transactionCalls, firstOldCall]
  | cons obj pkgs ih =>
    intro idx
    have hobj := find?_oldCalls xhp lists (idx + 1) obj f
    rw [firstOwner, List.findSome?_cons, transactionCalls, firstOldCall_append, firstOldCall_append,
      firstOldCall_newCalls, Option.none_or]
    cases hp : pathOwner xhp lists f obj with
    | none =>
      simp only [hp] at hobj
      simp only [hobj, Option.none_or]
      have := ih (idx + 1)
      rw [firstOwner] at this
      cases hfo : pkgs.findSome? (pathOwner xhp lists f) with
      | none => simpa only [hfo] using this
      | some o => simpa only [hfo] using this
    | some o =>
      simp only [hp] at hobj
      obtain ⟨rfl, size, pkgname, hc⟩ := hobj
      simp only [hc, Option.some_or]
      exact ⟨idx + 1, size, pkgname, rfl⟩

/-- All calls for an entry of the transaction have its position. -/
theorem index_of_mem {xhp : Handle} {lists : FileLists} {idx : Nat} {obj : PkgDict} {c : FileCall}
    (h : c ∈ newCalls lists idx obj ++ oldCalls xhp lists idx obj) : c.record.index = idx := by
  rcases List.mem_append.mp h with h | h
  · rw [newCalls] at h
    split at h
    · cases h
    · split at h
      · split at h
        · obtain ⟨_, _, _, _, _, rfl⟩ := FilesPass.calls_common h
          rfl
        · cases h
      · cases h
  · rw [oldCalls] at h
    split at h
    · cases h
    · split at h
      · cases h
      · split at h
        · cases h
        · obtain ⟨_, _, _, _, _, rfl⟩ := FilesPass.calls_common h
          rfl

theorem transactionCalls_sorted (xhp : Handle) (lists : FileLists) :
    ∀ (pkgs : List PkgDict) (idx : Nat),
      (∀ c ∈ transactionCalls xhp lists idx pkgs, idx < c.record.index) ∧
      (transactionCalls xhp lists idx pkgs).Pairwise
        fun c c' => c.record.index ≤ c'.record.index := by
  intro pkgs
  induction pkgs with
  | nil =>
    intro idx
    exact ⟨List.forall_mem_nil _, List.Pairwise.nil⟩
  | cons obj pkgs ih =>
    intro idx
    obtain ⟨hlt, hrest⟩ := ih (idx + 1)
    have hhere := fun c => @index_of_mem xhp lists (idx + 1) obj c
    rw [transactionCalls]
    refine ⟨fun c hc => ?_, List.pairwise_append.mpr ⟨?_, hrest, fun c hc c' hc' => ?_⟩⟩
    · rcases List.mem_append.mp hc with hc | hc
      · rw [hhere c hc]
        exact Nat.lt_succ_self idx
      · exact Nat.lt_of_succ_lt (hlt c hc)
    · refine List.pairwise_of_forall_mem_list fun c hc c' hc' => ?_
      rw [hhere c hc, hhere c' hc']
    · rw [hhere c hc]
      exact Nat.le_of_lt (hlt c' hc')

theorem mem_oldCalls_dir {xhp : Handle} {lists : FileLists} {idx : Nat} {obj : PkgDict} {f : Str} :
    (∃ c ∈ oldCalls xhp lists idx obj, c.removefile = true ∧ c.file = f ∧ c.record.type = .dir ∧
      c.record.preserve = true) ↔
    obj.preserve.getD false = true ∧ ∃ d, removedFiles xhp lists obj = some d ∧ f ∈ d.dirs := by
  rw [oldCalls, removedFiles]
  by_cases hskip : obj.transaction = .hold ∨ obj.transaction = .configure
  · simp [hskip]
  rw [if_neg hskip, if_neg hskip]
  cases hn : obj.pkgname with
  | none => simp
  | some pkgname =>
  cases hd : installedFiles xhp lists pkgname with
  | none => simp [hd]
  | some d =>
  simp only [Option.bind_some, hd, Option.some.injEq, exists_eq_left']
  constructor
  · rintro ⟨c, hc, -, hf, htype, hpre⟩
    have hocc : (c.file, c.record.type) ∈ d.occurrences := by
      rw [← FilesPass.map_calls (pkgdbPass idx obj pkgname)]
      exact List.mem_map_of_mem hc
    obtain ⟨_, _, _, _, _, rfl⟩ := FilesPass.calls_common hc
    refine ⟨hpre, ?_⟩
    rw [hf, htype] at hocc
    simpa [FilesDict.occurrences] using hocc
  · rintro ⟨hpre, hf⟩
    refine ⟨(pkgdbPass idx obj pkgname).call .dir f none none 0, ?_, rfl, rfl, rfl, hpre⟩
    rw [FilesPass.calls]
    exact List.mem_append_right _ (List.mem_map.mpr ⟨f, hf, rfl⟩)

theorem dirCallPreserved_iff (xhp : Handle) (lists : FileLists) (f : Str) :
    ∀ (pkgs : List PkgDict) (idx : Nat),
      DirCallPreserved (transactionCalls xhp lists idx pkgs) f ↔ DirPreserved xhp lists pkgs f := by
  intro pkgs
  induction pkgs with
  | nil =>
    intro idx
    simp [DirCallPreserved, DirPreserved, transactionCalls]
  | cons obj pkgs ih =>
    intro idx
    have hnew : ¬ ∃ c ∈ newCalls lists (idx + 1) obj, c.removefile = true ∧ c.file = f ∧
        c.record.type = .dir ∧ c.record.preserve = true := by
      rintro ⟨c, hc, hr, -⟩
      rw [removefile_of_mem_newCalls hc] at hr
      cases hr
    have hih := ih (idx + 1)
    rw [DirCallPreserved, DirPreserved] at hih ⊢
    rw [transactionCalls]
    simp only [List.mem_append, or_and_right, exists_or, List.mem_cons, exists_eq_left]
    rw [hih, mem_oldCalls_dir, or_iff_right hnew]

/-! ### The decision about a path -/

theorem newType_eq (xhp : Handle) {lists : FileLists} {pkgs : List PkgDict}
    (hname : ∀ p ∈ pkgs, p.transaction.unpacks = true → p.pkgname.isSome) (f : Str) :
    newType lists pkgs f =
      (newRecord (transactionCalls xhp lists 0 pkgs) f).map FileRecord.type := by
  rw [newType, ← map_transactionCalls_new xhp lists pkgs 0 hname, List.find?_map,
    List.find?_filter, newRecord, Option.map_map, Option.map_map]
  simp only [Function.comp_def, decide_eq_true_eq]

theorem newType_eq_none {lists : FileLists} {pkgs : List PkgDict} {f : Str} :
    newType lists pkgs f = none ↔ ∀ t, (f, t) ∉ newOccurrences lists pkgs := by
  rw [newType, Option.map_eq_none_iff, List.find?_eq_none]
  constructor
  · intro h t ht
    exact h _ ht (by simp)
  · intro h e he hf
    rw [decide_eq_true_eq] at hf
    exact h e.2 (hf ▸ he)

/-- What has a hash to be judged by is a regular file. -/
theorem judge_regular {xhp : Handle} {lists : FileLists} {pkgs : List PkgDict} {f : Str}
    {o : PathOwner} (h : firstOwner xhp lists pkgs f = some o) (hj : o.judge.isSome) :
    o.type = .file ∨ o.type = .conffile := by
  obtain ⟨obj, -, hown⟩ := List.exists_of_findSome?_eq_some h
  obtain ⟨d, -, hmap⟩ := Option.bind_eq_some_iff.mp hown
  obtain ⟨e, he, rfl⟩ := Option.map_eq_some_iff.mp hmap
  rw [FilesDict.find] at he
  cases h₁ : d.files.find? fun e => decide (e.file = f) with
  | some e₁ =>
    rw [h₁, Option.map_some, Option.some_or, Option.some.injEq] at he
    exact Or.inl (by rw [← he])
  | none =>
    cases h₂ : d.confFiles.find? fun e => decide (e.file = f) with
    | some e₂ =>
      rw [h₁, h₂, Option.map_none, Option.none_or, Option.map_some, Option.some_or,
        Option.some.injEq] at he
      exact Or.inr (by rw [← he])
    | none =>
      -- neither links nor directories have a hash, their own or another's
      have hno : d.carriedHash f = none := by
        rw [FilesDict.carriedHash, carriedHash_append, h₁, Option.isSome_none,
          if_neg Bool.false_ne_true, carriedHash_of_find?_none h₂]
      rw [hno] at hj
      cases hj

/-- A path for which a hash is recorded has a first owner. -/
theorem RecordsHash.firstOwner {xhp : Handle} {lists : FileLists} {pkgs : List PkgDict}
    {obj : PkgDict} {f h : Str} (hobj : obj ∈ pkgs) (hrec : RecordsHash xhp lists obj f h) :
    ∃ o, firstOwner xhp lists pkgs f = some o := by
  obtain ⟨d, hd, e, he, hf, -⟩ := hrec
  have hfind : (d.find f).isSome := by
    rw [FilesDict.find]
    rcases List.mem_append.mp he with he | he
    · have hsome : (d.files.find? fun e => decide (e.file = f)).isSome :=
        List.find?_isSome.mpr ⟨e, he, by simp [hf]⟩
      obtain ⟨e', he'⟩ := Option.isSome_iff_exists.mp hsome
      rw [he']
      rfl
    · have hsome : (d.confFiles.find? fun e => decide (e.file = f)).isSome :=
        List.find?_isSome.mpr ⟨e, he, by simp [hf]⟩
      obtain ⟨e', he'⟩ := Option.isSome_iff_exists.mp hsome
      rw [he']
      cases (d.files.find? fun e => decide (e.file = f)) <;> rfl
  obtain ⟨e', he'⟩ := Option.isSome_iff_exists.mp hfind
  cases ho : Flappy.firstOwner xhp lists pkgs f with
  | some o => exact ⟨o, rfl⟩
  | none =>
    rw [Flappy.firstOwner, List.findSome?_eq_none_iff] at ho
    have hnone := ho obj hobj
    rw [pathOwner, hd, Option.bind_some, he'] at hnone
    cases hnone

/-- The item of a path with an owner. -/
theorem itemOf_firstOwner {xhp : Handle} {lists : FileLists} {pkgs : List PkgDict} {f : Str}
    {o : PathOwner} (ho : firstOwner xhp lists pkgs f = some o) :
    ∃ old, itemOf (transactionCalls xhp lists 0 pkgs) f =
        some { file := '.' :: f, old := some old
               new := newRecord (transactionCalls xhp lists 0 pkgs) f } ∧
      old.type = o.type ∧ old.sha256 = o.judge ∧
      (o.type ≠ .dir → old.removepkg = decide (o.obj.transaction = .remove) ∧
        old.preserve = o.obj.preserve.getD false ∧ old.target = o.target) ∧
      (o.type = .dir → (old.preserve = true ↔ DirPreserved xhp lists pkgs f)) := by
  have hown := oldRecord_firstOwner xhp lists f pkgs 0
  simp only [ho] at hown
  obtain ⟨old, hold, htype, hsha, hfields⟩ := hown
  obtain ⟨c, hc, -, hcf, -⟩ := oldRecord_owner hold
  refine ⟨old, ?_, htype, hsha, hfields, fun hdir => ?_⟩
  · rw [itemOf, if_pos ⟨c, hc, hcf⟩, hold]
  · rw [oldRecord_preserve (transactionCalls_sorted xhp lists pkgs 0).2 hold (htype.trans hdir),
      dirCallPreserved_iff]

/-- An item with an old side has an owner. -/
theorem firstOwner_of_old {xhp : Handle} {lists : FileLists} {pkgs : List PkgDict} {f : Str}
    {item : Item} (hitem : itemOf (transactionCalls xhp lists 0 pkgs) f = some item)
    (hold : item.old.isSome) : ∃ o, firstOwner xhp lists pkgs f = some o := by
  rw [itemOf] at hitem
  split at hitem
  swap
  · cases hitem
  rw [Option.some.injEq] at hitem
  subst hitem
  have hown := oldRecord_firstOwner xhp lists f pkgs 0
  cases hfo : firstOwner xhp lists pkgs f with
  | some o => exact ⟨o, rfl⟩
  | none =>
    simp only [hfo] at hown
    simp [hown] at hold

section Decision

variable {xhp : Handle} {env : FilesEnv} {pkgs : List PkgDict} {f : Str} {o : PathOwner} {item : Item}
  (hname : ∀ p ∈ pkgs, p.transaction.unpacks = true → p.pkgname.isSome)
  (ho : firstOwner xhp env.lists pkgs f = some o)
  (hitem : itemOf (transactionCalls xhp env.lists 0 pkgs) f = some item)

include hname ho hitem

theorem retired_iff_examined :
    item.retired xhp = true ↔ Examined xhp env.lists pkgs f o := by
  obtain ⟨old, heq, htype, -, hfields, hdir⟩ := itemOf_firstOwner ho
  rw [hitem, Option.some.injEq] at heq
  subst heq
  rw [Item.retired, Examined, newType_eq xhp hname]
  simp only [matchPreservedFile, List.tail_cons, Bool.and_eq_true, Bool.not_eq_true', and_assoc]
  refine and_congr_right fun _ => and_congr decide_eq_true_iff ?_
  cases newRecord (transactionCalls xhp env.lists 0 pkgs) f with
  | none =>
    simp only [Option.map_some, Option.getD_some, Option.map_none]
    by_cases hd : o.type = .dir
    · rw [if_pos hd, ← hdir hd, Bool.not_eq_true, Bool.not_eq_true']
    · rw [if_neg hd, (hfields hd).2.1, Bool.not_eq_true']
  | some new => simp [htype]

omit ho hitem in
theorem forcedRemoval_iff (p : PkgDict) : ForcedRemoval xhp env.lists pkgs p f ↔
    p.transaction = .remove ∧ newRecord (transactionCalls xhp env.lists 0 pkgs) f = none ∧
      xhp.flags.forceRemoveFiles = true := by
  rw [ForcedRemoval, ← newType_eq_none, newType_eq xhp hname, Option.map_eq_none_iff]

/-- A path gets past the checks in one of the four ways. -/
theorem goes_iff_letGo : item.goes xhp env.disk = true ↔ LetGo xhp env pkgs f o := by
  obtain ⟨old, heq, htype, hsha, hfields, -⟩ := itemOf_firstOwner ho
  rw [hitem, Option.some.injEq] at heq
  subst heq
  rw [Item.goes, LetGo, Option.bind_some, hsha, Bool.and_eq_true, Bool.not_eq_true']
  cases hj : o.judge with
  | none =>
    -- only the link check is left
    simp only [true_and]
    rw [Bool.eq_false_iff, not_iff_not, Retargeted, ← newType_eq_none, newType_eq xhp hname,
      Item.keepsSymlink]
    by_cases hlink : o.type = .link
    · obtain ⟨hremove, -, htarget⟩ := hfields (by rw [hlink]; decide)
      cases newRecord (transactionCalls xhp env.lists 0 pkgs) f <;>
        simp [htype, hlink, hremove, htarget, and_assoc]
    · cases newRecord (transactionCalls xhp env.lists 0 pkgs) f <;> simp [htype, hlink]
  | some x =>
    have hreg := judge_regular ho (by rw [hj]; rfl)
    have hdir : o.type ≠ .dir := by rcases hreg with h | h <;> simp [h]
    have hlink : o.type ≠ .link := by rcases hreg with h | h <;> simp [h]
    have hkeeps : Item.keepsSymlink xhp env.disk { file := '.' :: f, old := some old
                                                   new := newRecord (transactionCalls xhp env.lists 0
                                                    pkgs) f } = false := by
      rw [Item.keepsSymlink]
      cases newRecord (transactionCalls xhp env.lists 0 pkgs) f <;> simp [htype, hlink]
    rw [hkeeps, forcedRemoval_iff hname]
    simp only [and_true, decide_eq_true_eq]
    rw [Item.hashCheck, fileSha256Check]
    simp only [Option.map_some, Option.getD_some, (hfields hdir).1, decide_eq_true_eq]
    cases hd : env.disk.sha256 ('.' :: f) with
    | ok digest =>
      by_cases he : digest = x
      · simp [he]
      · simp [he]
    | error e => cases e <;> simp

end Decision

/-! ### Modified files are kept -/

section Kept

variable {xhp : Handle} {env : FilesEnv} {pkgs : List PkgDict} {s : Obsoletes}

theorem transactionFiles_named (h : transactionFiles xhp env pkgs = .ok s) :
    ∀ p ∈ pkgs, p.transaction.unpacks = true → p.pkgname.isSome := by
  suffices hc : (transactionCollect xhp env.lists 0 pkgs []).2 = none from
    transactionCollect_named hc
  rw [transactionFiles] at h
  generalize transactionCollect xhp env.lists 0 pkgs [] = r at h ⊢
  obtain ⟨items, rv⟩ := r
  cases rv with
  | some e => cases h
  | none => rfl

theorem HashesSound.keepsModified (h : transactionFiles xhp env pkgs = .ok s)
    (hsound : HashesSound xhp env pkgs) : KeepsModified xhp env pkgs s := by
  have hname := transactionFiles_named h
  obtain ⟨hlist, hchecks⟩ := transactionFiles_sound h
  refine ⟨fun n file hfile => ?_, fun check hcheck => ?_⟩
  · obtain ⟨f, item, rfl, hitem, hret, hgoes, -⟩ := hlist n file hfile
    refine ⟨f, rfl, ?_, fun obj hobj x hrec => ?_⟩
    · have hfile : item.file = '.' :: f := by
        rw [itemOf] at hitem
        split at hitem
        · rw [Option.some.injEq] at hitem
          rw [← hitem]
        · cases hitem
      rw [Item.retired, matchPreservedFile, hfile, Bool.and_eq_true, Bool.and_eq_true] at hret
      simpa using hret.1.1
    · obtain ⟨o, ho⟩ := hrec.firstOwner hobj
      exact hsound.recorded f o ho ((retired_iff_examined hname ho hitem).mp hret)
        ((goes_iff_letGo hname ho hitem).mp hgoes) obj hobj x hrec
  · obtain ⟨f, item, sha256, rfl, hitem, hret, hs⟩ := hchecks check hcheck
    obtain ⟨old, hold, hsha⟩ := Option.bind_eq_some_iff.mp hs
    obtain ⟨o, ho⟩ := firstOwner_of_old hitem (by rw [hold]; rfl)
    obtain ⟨old', heq, -, hjudge, -⟩ := itemOf_firstOwner ho
    rw [hitem, Option.some.injEq] at heq
    subst heq
    cases hold
    obtain ⟨obj, hobj, hrec⟩ := hsound.judged f o ho ((retired_iff_examined hname ho hitem).mp hret)
      sha256 (hjudge.symm.trans hsha)
    exact ⟨f, rfl, obj, hobj, hrec⟩

/-- What is wrong with an examined path shows in the result. -/
theorem KeepsModified.hashesSound (h : transactionFiles xhp env pkgs = .ok s)
    (hrv : s.rv ≠ some .enotempty) (hkept : KeepsModified xhp env pkgs s) :
    HashesSound xhp env pkgs := by
  have hname := transactionFiles_named h
  refine ⟨fun f o ho hex x hx => ?_, fun f o ho hex hgo obj hobj x hrec => ?_⟩
  · -- the path has been compared with the hash
    obtain ⟨old, hitem, -, hjudge, -⟩ := itemOf_firstOwner ho
    have hret := (retired_iff_examined hname ho hitem).mpr hex
    obtain ⟨-, hchecks⟩ := transactionFiles_complete h hrv hitem hret
    obtain ⟨f', hf', obj, hobj, hrec⟩ := hkept.ownHash _ (hchecks x (hjudge.trans hx))
    obtain rfl : f = f' := (List.cons.inj hf').2
    exact ⟨obj, hobj, hrec⟩
  · -- the path has been put on a list
    obtain ⟨old, hitem, -⟩ := itemOf_firstOwner ho
    have hret := (retired_iff_examined hname ho hitem).mpr hex
    obtain ⟨hlist, -⟩ := transactionFiles_complete h hrv hitem hret
    have hremover : ∃ n, Item.remover { file := '.' :: f, old := some old
                                        new := newRecord (transactionCalls xhp env.lists 0 pkgs)
                                          f } = some n := by
      rw [Item.remover]
      cases newRecord (transactionCalls xhp env.lists 0 pkgs) f <;> exact ⟨_, rfl⟩
    obtain ⟨n, hn⟩ := hremover
    obtain ⟨f', hf', -, hall⟩ := hkept.listed n _
      (hlist n ((goes_iff_letGo hname ho hitem).mpr hgo) hn)
    obtain rfl : f = f' := (List.cons.inj hf').2
    exact hall obj hobj x hrec

end Kept

/-- Modified files are kept if every path that goes is judged by a hash that is recorded for
it and has the hashes that its owners record; and only then, unless the pass stops at a
directory that is in the way. -/
theorem transactionFiles_keepsModified (xhp : Handle) (env : FilesEnv) (pkgs : List PkgDict)
    (s : Obsoletes) (h : transactionFiles xhp env pkgs = .ok s) :
    (HashesSound xhp env pkgs → KeepsModified xhp env pkgs s) ∧
      (s.rv ≠ some .enotempty → (KeepsModified xhp env pkgs s ↔ HashesSound xhp env pkgs)) :=
  ⟨fun hsound => hsound.keepsModified h, fun hrv =>
    ⟨fun hkept => hkept.hashesSound h hrv, fun hsound => hsound.keepsModified h⟩⟩

/-- `foo` owns two configuration scripts. -/
def scriptsFiles : FilesDict :=
  { files := [⟨"/etc/foo.sh".toList, some "aa".toList, 1⟩, ⟨"/etc/foo".toList, some "bb".toList, 1⟩] }

def scriptsHandle : Handle :=
  { pkgdb := ⟨[("foo".toList, { pkgver := "foo-1_1".toList })], by decide⟩ }

/-- The file system, up to what reading a file gives. -/
def scriptsEnv (sha256 : Str → Except Errno Str) : FilesEnv where
  lists := { binpkg := fun _ => .ok (some {}), pkgdb := fun _ => some scriptsFiles }
  disk :=
    { sha256 := sha256, opendir := fun _ => .error .enoent, symlinkTarget := fun _ _ => none }
  pathSort := insertionPathSort

def scriptsPkgs : List PkgDict :=
  [{ pkgver := "foo-1_1".toList, pkgname := some "foo".toList, transaction := .remove }]

theorem recordsHash_scripts {sha256 : Str → Except Errno Str} {obj : PkgDict} {f h : Str}
    (hobj : obj ∈ scriptsPkgs) (hrec : RecordsHash scriptsHandle (scriptsEnv sha256).lists obj f h) :
    (f = "/etc/foo.sh".toList ∧ h = "aa".toList) ∨ (f = "/etc/foo".toList ∧ h = "bb".toList) := by
  obtain ⟨d, hd, e, he, rfl, hs⟩ := hrec
  obtain rfl : obj = _ := List.mem_singleton.mp hobj
  have : removedFiles scriptsHandle (scriptsEnv sha256).lists
      { pkgver := "foo-1_1".toList, pkgname := some "foo".toList, transaction := .remove } =
      some scriptsFiles := rfl
  rw [this, Option.some.injEq] at hd
  subst hd
  simp only [scriptsFiles, List.append_nil, List.mem_cons, List.not_mem_nil, or_false] at he
  rcases he with rfl | rfl
  · exact Or.inl ⟨rfl, (Option.some.inj hs).symm⟩
  · exact Or.inr ⟨rfl, (Option.some.inj hs).symm⟩

/-- One of the scripts was changed, and stays. -/
theorem transactionFiles_scripts : ∃ s,
    transactionFiles scriptsHandle (scriptsEnv fun _ => .ok "bb".toList) scriptsPkgs = .ok s ∧
    obsoletesOf s.obsd "foo".toList = ["./etc/foo".toList] ∧
    KeepsModified scriptsHandle (scriptsEnv fun _ => .ok "bb".toList) scriptsPkgs s := by
  refine ⟨_, rfl, by decide, (transactionFiles_keepsModified _ _ _ _ rfl).1 ⟨?_, ?_⟩⟩
  · intro f o ho _ x hx
    obtain ⟨obj, hobj, hown⟩ := List.exists_of_findSome?_eq_some ho
    obtain rfl : obj = _ := List.mem_singleton.mp hobj
    obtain ⟨d, hd, hmap⟩ := Option.bind_eq_some_iff.mp hown
    obtain ⟨e, -, rfl⟩ := Option.map_eq_some_iff.mp hmap
    obtain rfl : scriptsFiles = d := Option.some.inj hd
    -- both scripts have hashes of their own
    obtain ⟨e, he, hf, hs⟩ := carriedHash_of_own (by decide) hx
    exact ⟨_, hobj, scriptsFiles, rfl, e, he, hf, hs⟩
  · intro f o ho _ hgo obj hobj h hrec
    rcases recordsHash_scripts hobj hrec with ⟨rfl, rfl⟩ | ⟨rfl, rfl⟩
    · have hjudge : o.judge = some "aa".toList := by
        have hfirst : (firstOwner scriptsHandle (scriptsEnv fun _ => .ok "bb".toList).lists
            scriptsPkgs "/etc/foo.sh".toList).map PathOwner.judge = some (some "aa".toList) := by
          decide +kernel
        rw [ho] at hfirst
        exact Option.some.inj hfirst
      rw [LetGo, hjudge] at hgo
      rcases hgo with hdigest | ⟨-, -, hforce⟩
      · exact absurd hdigest (by decide)
      · cases hforce
    · exact Or.inl rfl

/-- The longer path cannot be read; it is removed all the same, and the pass succeeds. -/
theorem transactionFiles_unreadable : ∃ s,
    transactionFiles scriptsHandle (scriptsEnv fun file =>
      if file = "./etc/foo.sh".toList then .error .eacces else .ok "bb".toList) scriptsPkgs = .ok s ∧
    s.rv = none ∧ "./etc/foo.sh".toList ∈ obsoletesOf s.obsd "foo".toList ∧
    ¬ KeepsModified scriptsHandle (scriptsEnv fun file =>
      if file = "./etc/foo.sh".toList then .error .eacces else .ok "bb".toList) scriptsPkgs s := by
  refine ⟨_, rfl, by decide, by decide, fun hkept => ?_⟩
  obtain ⟨f, hf, -, hall⟩ := hkept.listed "foo".toList "./etc/foo.sh".toList (by decide)
  obtain rfl : f = "/etc/foo.sh".toList := (List.cons.inj hf).2.symm
  rcases hall _ (List.mem_singleton.mpr rfl) "aa".toList
    ⟨scriptsFiles, rfl, _, List.mem_cons_self, rfl, rfl⟩ with hok | ⟨-, -, hforce⟩
  · cases hok
  · cases hforce

end Flappy
