/-
Collecting the files of a transaction (`lib/transaction_files.c`, first half).

`flappy_transaction_files` reads, package by package, the file list of the
binary package (what is installed) and the file list of the installed version
(what is removed), and merges every occurrence of a path into one record with
an `old` and a `new` side.  The merge is `collect_file`; everything else in
this file is the order in which it is called.

* `Describes` — the table after a sequence of calls, path by path, as a
  function of the calls;
* `transactionCollect_describes` — a pass without error leaves the table that
  describes all calls of the transaction.
-/
import Mathlib.Data.List.Induction
import Flappy.Pkgdb

open CStr

namespace Flappy

/-- `enum type`; the value 0 is the absence of a record. -/
inductive FileType where
  | link
  | dir
  | file
  | conffile
deriving DecidableEq, Repr

/-- One side of `struct item`. -/
structure FileRecord where
  pkgname : Str
  pkgver : Str
  sha256 : Option Str := none
  target : Option Str := none
  size : Nat := 0
  type : FileType
  /-- Position of the package in the transaction, counted from 1. -/
  index : Nat
  preserve : Bool := false
  update : Bool := false
  removepkg : Bool := false
deriving DecidableEq, Repr

/-- `struct item`; `file` is the path with a leading dot. -/
structure Item where
  file : Str
  old : Option FileRecord := none
  new : Option FileRecord := none
  deleted : Bool := false
deriving DecidableEq, Repr

/-- The arguments of one call of `collect_file`. -/
structure FileCall where
  file : Str
  removefile : Bool
  record : FileRecord
deriving DecidableEq, Repr

/-- `lookupItem`. -/
def lookupItem (items : List Item) (file : Str) : Option Item :=
  items.find? fun item => item.file = '.' :: file

/-- The label `add` of `collect_file`; a hash is stored on the old side only. -/
def Item.add (item : Item) (c : FileCall) : Item :=
  if c.removefile then { item with old := some c.record }
  else { item with new := some { c.record with sha256 := none } }

/-- `collect_file` on a path that has an item. -/
def Item.collect (flags : Flags) (item : Item) (c : FileCall) : Except Errno Item :=
  if c.removefile then
    match item.old with
    | none => .ok (item.add c)
    | some old =>
      if c.record.type = .dir ∧ old.type = .dir then
        if c.record.index < old.index ∨ old.preserve = true then .ok item
        else
          .ok { item with
            old := some { old with
              pkgname := c.record.pkgname
              pkgver := c.record.pkgver
              index := c.record.index
              preserve := c.record.preserve
              update := c.record.update
              removepkg := c.record.removepkg } }
      else if old.preserve = true ∧ c.record.preserve = false then .error .eperm
      else if c.record.preserve = true ∧ old.preserve = false then .error .eperm
      else .ok item
  else
    match item.new with
    | none => .ok (item.add c)
    | some new =>
      if c.record.type = .dir ∧ new.type = .dir then .ok item
      else if flags.ignoreFileConflicts then .ok item
      else .error .eexist

/-- `collect_file`. -/
def collectFile (flags : Flags) (items : List Item) (c : FileCall) : Except Errno (List Item) :=
  match lookupItem items c.file with
  | none => .ok (items ++ [Item.add { file := '.' :: c.file } c])
  | some item =>
    (item.collect flags c).map fun item' =>
      items.map fun i => if i.file = item.file then item' else i

/-- An entry of `files` or `conf_files`. -/
structure FileEntry where
  file : Str
  sha256 : Option Str := none
  size : Nat := 0
deriving DecidableEq, Repr

/-- A file list; a missing array is empty. -/
structure FilesDict where
  files : List FileEntry := []
  confFiles : List FileEntry := []
  /-- Path and target. -/
  links : List (Str × Str) := []
  dirs : List Str := []
deriving DecidableEq, Repr

/-- The arguments that `collect_files` passes through. -/
structure FilesPass where
  pkgname : Str
  pkgver : Str
  idx : Nat
  update : Bool
  removepkg : Bool
  preserve : Bool
  removefile : Bool
deriving DecidableEq, Repr

/-- One call that `collect_files` makes. -/
def FilesPass.call (p : FilesPass) (type : FileType) (file : Str) (sha256 target : Option Str)
    (size : Nat) : FileCall where
  file := file
  removefile := p.removefile
  record :=
    { pkgname := p.pkgname, pkgver := p.pkgver, sha256 := sha256, target := target, size := size
      type := type, index := p.idx, preserve := p.preserve, update := p.update
      removepkg := p.removepkg }

/-- The calls for `files` or for `conf_files`, and the last value of the variable
`sha256`.  The variable is shared by all entries: reading a hash that is not
there leaves the hash of an earlier entry in it. -/
def FilesPass.regularCalls (p : FilesPass) (type : FileType) :
    Option Str → List FileEntry → List FileCall × Option Str
  | sha256, [] => ([], sha256)
  | sha256, e :: es =>
    let sha256 := if p.removefile then e.sha256.or sha256 else sha256
    let (calls, last) := p.regularCalls type sha256 es
    (p.call type e.file sha256 none e.size :: calls, last)

/-- The calls of `collect_file` that `collect_files` makes, in order. -/
def FilesPass.calls (p : FilesPass) (d : FilesDict) : List FileCall :=
  let (files, sha256) := p.regularCalls .file none d.files
  let (confFiles, _) := p.regularCalls .conffile sha256 d.confFiles
  files ++ confFiles ++ d.links.map (fun e => p.call .link e.1 none (some e.2) 0) ++
    d.dirs.map (fun file => p.call .dir file none none 0)

/-- The loops of `collect_files`: a conflict is remembered and the loop goes on,
any other error ends it.  The result is the table and the return value, `none` for 0. -/
def collectCalls (flags : Flags) :
    List FileCall → Bool → List Item → List Item × Option Errno
  | [], error, items => (items, if error then some .eexist else none)
  | c :: cs, error, items =>
    match collectFile flags items c with
    | .ok items' => collectCalls flags cs error items'
    | .error e =>
      if e = .eexist then collectCalls flags cs true items
      else (items, some (if error then .eexist else e))

/-- `collect_files`. -/
def collectFiles (flags : Flags) (p : FilesPass) (d : FilesDict) (items : List Item) :
    List Item × Option Errno :=
  collectCalls flags (p.calls d) false items

/-- Where the file lists come from. -/
structure FileLists where
  /-- The `files.plist` of the binary package of a repository entry.  An archive
  without one among its first four members is passed over. -/
  binpkg : PkgDict → Except Errno (Option FilesDict)
  /-- `flappy_pkgdb_get_pkg_files`. -/
  pkgdb : Str → Option FilesDict

/-- The arguments of `collect_files` for a binary package. -/
def binpkgPass (idx : Nat) (obj : PkgDict) (pkgname : Str) : FilesPass where
  pkgname := pkgname
  pkgver := obj.pkgver
  idx := idx
  update := obj.transaction = .update
  removepkg := false
  preserve := false
  removefile := false

/-- The arguments of `collect_files` for an installed package. -/
def pkgdbPass (idx : Nat) (obj : PkgDict) (pkgname : Str) : FilesPass where
  pkgname := pkgname
  pkgver := obj.pkgver
  idx := idx
  update := obj.transaction = .update
  removepkg := obj.transaction = .remove
  preserve := obj.preserve.getD false
  removefile := true

/-- `collect_binpkg_files`. -/
def collectBinpkgFiles (flags : Flags) (lists : FileLists) (idx : Nat) (obj : PkgDict)
    (pkgname : Str) (items : List Item) : List Item × Option Errno :=
  match lists.binpkg obj with
  | .error e => (items, some e)
  | .ok none => (items, none)
  | .ok (some d) => collectFiles flags (binpkgPass idx obj pkgname) d items

/-- The file list of the installed version, if there is one. -/
def installedFiles (xhp : Handle) (lists : FileLists) (pkgname : Str) : Option FilesDict :=
  match pkgdbGetPkg xhp pkgname with
  | none => none
  | some _ => lists.pkgdb pkgname

/-- The body of the loop of `flappy_transaction_files`. -/
def collectPkg (xhp : Handle) (lists : FileLists) (idx : Nat) (obj : PkgDict)
    (items : List Item) : List Item × Option Errno :=
  if obj.transaction = .hold ∨ obj.transaction = .configure then (items, none)
  else
    match obj.pkgname with
    | none => (items, some .einval)
    | some pkgname =>
      let (items, rv) :=
        if obj.transaction.unpacks then
          collectBinpkgFiles xhp.flags lists idx obj pkgname items
        else (items, none)
      if rv ≠ none then (items, rv)
      else
        match installedFiles xhp lists pkgname with
        | none => (items, none)
        | some d => collectFiles xhp.flags (pkgdbPass idx obj pkgname) d items

/-- The loop of `flappy_transaction_files`; `idx` is the index of the entry before. -/
def transactionCollect (xhp : Handle) (lists : FileLists) :
    Nat → List PkgDict → List Item → List Item × Option Errno
  | _, [], items => (items, none)
  | idx, obj :: pkgs, items =>
    match collectPkg xhp lists (idx + 1) obj items with
    | (items, none) => transactionCollect xhp lists (idx + 1) pkgs items
    | (items, some e) => (items, some e)

/-! ### The calls of a transaction -/

/-- The calls of `collect_file` for the binary package of an entry. -/
def newCalls (lists : FileLists) (idx : Nat) (obj : PkgDict) : List FileCall :=
  match obj.pkgname with
  | none => []
  | some pkgname =>
    if obj.transaction.unpacks then
      match lists.binpkg obj with
      | .ok (some d) => (binpkgPass idx obj pkgname).calls d
      | _ => []
    else []

/-- The calls of `collect_file` for the installed version of an entry. -/
def oldCalls (xhp : Handle) (lists : FileLists) (idx : Nat) (obj : PkgDict) : List FileCall :=
  if obj.transaction = .hold ∨ obj.transaction = .configure then []
  else
    match obj.pkgname with
    | none => []
    | some pkgname =>
      match installedFiles xhp lists pkgname with
      | none => []
      | some d => (pkgdbPass idx obj pkgname).calls d

/-- All calls of `collect_file` of a transaction, in order. -/
def transactionCalls (xhp : Handle) (lists : FileLists) : Nat → List PkgDict → List FileCall
  | _, [] => []
  | idx, obj :: pkgs =>
    newCalls lists (idx + 1) obj ++ oldCalls xhp lists (idx + 1) obj ++
      transactionCalls xhp lists (idx + 1) pkgs

/-! ### The table as a function of the calls -/

/-- The old side of an item after one more call for its path. -/
def mergeOld (old : Option FileRecord) (r : FileRecord) : FileRecord :=
  match old with
  | none => r
  | some old =>
    if (r.type = .dir ∧ old.type = .dir) ∧ ¬ (r.index < old.index ∨ old.preserve = true) then
      { old with
        pkgname := r.pkgname
        pkgver := r.pkgver
        index := r.index
        preserve := r.preserve
        update := r.update
        removepkg := r.removepkg }
    else old

/-- The old side of the item of path `f` after a sequence of calls. -/
def oldRecord (calls : List FileCall) (f : Str) : Option FileRecord :=
  calls.foldl (fun old c => if c.removefile = true ∧ c.file = f then some (mergeOld old c.record)
    else old) none

/-- The new side of the item of path `f`: the first call wins. -/
def newRecord (calls : List FileCall) (f : Str) : Option FileRecord :=
  (calls.find? fun c => c.removefile = false ∧ c.file = f).map fun c =>
    { c.record with sha256 := none }

/-- The item of path `f` after a sequence of calls. -/
def itemOf (calls : List FileCall) (f : Str) : Option Item :=
  if (∃ c ∈ calls, c.file = f) then
    some { file := '.' :: f, old := oldRecord calls f, new := newRecord calls f }
  else none

/-- The table holds what a sequence of successful calls says. -/
structure Describes (items : List Item) (calls : List FileCall) : Prop where
  lookup : ∀ f, lookupItem items f = itemOf calls f
  nodup : (items.map Item.file).Nodup
  dotted : ∀ item ∈ items, ∃ f, item.file = '.' :: f

theorem Describes.nil : Describes [] [] :=
  ⟨fun f => by simp [lookupItem, itemOf], by simp, by simp⟩

theorem oldRecord_append (calls : List FileCall) (c : FileCall) (f : Str) :
    oldRecord (calls ++ [c]) f = if c.removefile = true ∧ c.file = f then
      some (mergeOld (oldRecord calls f) c.record) else oldRecord calls f := by
  rw [oldRecord, List.foldl_append]
  rfl

theorem newRecord_append (calls : List FileCall) (c : FileCall) (f : Str) :
    newRecord (calls ++ [c]) f = (newRecord calls f).or
      (if c.removefile = false ∧ c.file = f then some { c.record with sha256 := none }
        else none) := by
  rw [newRecord, newRecord, List.find?_append]
  cases h : calls.find? fun c => decide (c.removefile = false ∧ c.file = f) with
  | some c' => simp
  | none =>
    by_cases hc : c.removefile = false ∧ c.file = f
    · simp [hc]
    · simp [hc]

theorem oldRecord_eq_none {calls : List FileCall} {f : Str} (h : ∀ c ∈ calls, c.file ≠ f) :
    oldRecord calls f = none := by
  induction calls using List.reverseRecOn with
  | nil => rfl
  | append_singleton calls c ih =>
    rw [oldRecord_append, if_neg fun hc => h c (by simp) hc.2]
    exact ih fun c' hc' => h c' (by simp [hc'])

theorem newRecord_eq_none {calls : List FileCall} {f : Str} (h : ∀ c ∈ calls, c.file ≠ f) :
    newRecord calls f = none := by
  rw [newRecord, Option.map_eq_none_iff, List.find?_eq_none]
  intro c hc
  simp [h c hc]

/-- A call that succeeds on an item does to its two sides what the records say. -/
theorem Item.collect_ok {flags : Flags} {calls : List FileCall} {item item' : Item} {c : FileCall}
    (hitem : itemOf calls c.file = some item) (h : item.collect flags c = .ok item') :
    item' = { file := '.' :: c.file, old := oldRecord (calls ++ [c]) c.file
              new := newRecord (calls ++ [c]) c.file } := by
  rw [itemOf] at hitem
  split at hitem
  · rw [Option.some.injEq] at hitem
    subst hitem
    rw [oldRecord_append, newRecord_append]
    rw [Item.collect] at h
    by_cases hr : c.removefile = true
    · rw [if_pos hr] at h
      simp only [hr, Bool.true_eq_false, false_and, if_false, true_and, if_true]
      cases ho : oldRecord calls c.file with
      | none =>
        simp only [ho, Except.ok.injEq] at h
        rw [← h]
        simp [Item.add, hr, mergeOld]
      | some old =>
        simp only [ho] at h
        by_cases hd : c.record.type = .dir ∧ old.type = .dir
        · rw [if_pos hd] at h
          -- two directories: the table says which of the two records owns it
          by_cases hi : c.record.index < old.index ∨ old.preserve = true
          · rw [if_pos hi, Except.ok.injEq] at h
            rw [← h]
            simp [mergeOld, hi]
          · rw [if_neg hi, Except.ok.injEq] at h
            rw [← h]
            simp [mergeOld, hi, hd]
        · rw [if_neg hd] at h
          split at h
          · cases h
          · split at h
            · cases h
            · rw [Except.ok.injEq] at h
              rw [← h]
              simp [mergeOld, hd]
    · rw [if_neg hr] at h
      rw [Bool.not_eq_true] at hr
      simp only [hr, Bool.false_eq_true, false_and, if_false, true_and, if_true]
      -- a second record of a new package changes nothing, or ends the run
      cases hn : newRecord calls c.file with
      | none =>
        simp only [hn, Except.ok.injEq] at h
        rw [← h]
        simp [Item.add, hr]
      | some new =>
        simp only [hn] at h
        have : item' = { file := '.' :: c.file, old := oldRecord calls c.file
                         new := some new } := by
          split at h
          · exact (Except.ok.inj h).symm
          · split at h
            · exact (Except.ok.inj h).symm
            · cases h
        rw [this]
        simp
  · cases hitem

theorem lookupItem_mem {items : List Item} {f : Str} {item : Item}
    (h : lookupItem items f = some item) : item ∈ items ∧ item.file = '.' :: f :=
  ⟨List.mem_of_find?_eq_some h, by simpa using List.find?_some h⟩

theorem itemOf_append_ne (calls : List FileCall) (c : FileCall) {f : Str} (hf : c.file ≠ f) :
    itemOf (calls ++ [c]) f = itemOf calls f := by
  simp [itemOf, oldRecord_append, newRecord_append, hf]

/-- A path without an item gets one. -/
theorem Describes.add {items : List Item} {calls : List FileCall} {c : FileCall}
    (hd : Describes items calls) (hl : lookupItem items c.file = none) :
    Describes (items ++ [Item.add { file := '.' :: c.file } c]) (calls ++ [c]) := by
  have hnone : ∀ c' ∈ calls, c'.file ≠ c.file := by
    intro c' hc' he
    rw [hd.lookup, itemOf, if_pos ⟨c', hc', he⟩] at hl
    cases hl
  have hfile : (Item.add { file := '.' :: c.file } c).file = '.' :: c.file := by
    rw [Item.add]
    split <;> rfl
  refine ⟨fun f => ?_, ?_, ?_⟩
  · rw [lookupItem, List.find?_append]
    by_cases hf : c.file = f
    · subst hf
      rw [lookupItem] at hl
      rw [hl, Option.none_or, List.find?_singleton, hfile, decide_eq_true rfl]
      rw [itemOf, oldRecord_append, newRecord_append, oldRecord_eq_none hnone,
        newRecord_eq_none hnone]
      by_cases hr : c.removefile = true <;> simp [Item.add, hr, mergeOld]
    · rw [itemOf_append_ne calls c hf, ← hd.lookup f, lookupItem, List.find?_singleton, hfile,
        decide_eq_false (by simpa using hf)]
      simp
  · rw [List.map_append, List.map_singleton, hfile, List.nodup_append]
    refine ⟨hd.nodup, List.nodup_singleton _, ?_⟩
    intro a ha b hb hab
    rw [List.mem_singleton] at hb
    obtain ⟨item, hitem, rfl⟩ := List.mem_map.mp ha
    rw [lookupItem, List.find?_eq_none] at hl
    exact hl item hitem (by simpa [hb] using hab)
  · intro item hitem
    rcases List.mem_append.mp hitem with hi | hi
    · exact hd.dotted item hi
    · rw [List.mem_singleton] at hi
      exact ⟨c.file, by rw [hi, hfile]⟩

/-- The item of a path is replaced by what the call makes of it. -/
theorem Describes.replace {flags : Flags} {items : List Item} {calls : List FileCall}
    {c : FileCall} {item item' : Item} (hd : Describes items calls)
    (hl : lookupItem items c.file = some item) (hc : item.collect flags c = .ok item') :
    Describes (items.map fun i => if i.file = item.file then item' else i) (calls ++ [c]) := by
  have hitem : itemOf calls c.file = some item := (hd.lookup c.file).symm.trans hl
  have hitem' := Item.collect_ok hitem hc
  have hfile' : item'.file = '.' :: c.file := by rw [hitem']
  have hfile : item.file = '.' :: c.file := (lookupItem_mem hl).2
  -- the files stay, so the lookups and the names do
  have hsame : ∀ i : Item, (if i.file = item.file then item' else i).file = i.file := by
    intro i
    by_cases hi : i.file = item.file
    · rw [if_pos hi, hfile', hi, hfile]
    · rw [if_neg hi]
  refine ⟨fun f => ?_, ?_, ?_⟩
  · rw [lookupItem, List.find?_map]
    have hp : ((fun i : Item => decide (i.file = '.' :: f)) ∘ fun i =>
        if i.file = item.file then item' else i) = fun i => decide (i.file = '.' :: f) := by
      funext i
      rw [Function.comp, hsame]
    rw [hp]
    -- the item looked up is the one replaced, or another
    by_cases hf : c.file = f
    · subst hf
      rw [lookupItem] at hl
      rw [hl, Option.map_some, if_pos rfl, itemOf, if_pos ⟨c, by simp, rfl⟩, hitem']
    · rw [itemOf_append_ne calls c hf, ← hd.lookup f, lookupItem]
      cases hx : items.find? fun i => decide (i.file = '.' :: f) with
      | none => rfl
      | some i =>
        have : i.file = '.' :: f := by simpa using List.find?_some hx
        rw [Option.map_some, if_neg]
        rw [this, hfile]
        simpa using fun h => hf h.symm
  · rw [List.map_map]
    have : (Item.file ∘ fun i => if i.file = item.file then item' else i) = Item.file :=
      funext hsame
    rw [this]
    exact hd.nodup
  · intro i hi
    obtain ⟨i₀, hi₀, rfl⟩ := List.mem_map.mp hi
    rw [hsame]
    exact hd.dotted i₀ hi₀

/-- A successful call keeps the description. -/
theorem Describes.collectFile_ok {flags : Flags} {items items' : List Item} {calls : List FileCall}
    {c : FileCall} (hd : Describes items calls)
    (h : collectFile flags items c = .ok items') : Describes items' (calls ++ [c]) := by
  rw [collectFile] at h
  cases hl : lookupItem items c.file with
  | none =>
    simp only [hl, Except.ok.injEq] at h
    subst h
    exact hd.add hl
  | some item =>
    simp only [hl] at h
    cases hc : item.collect flags c with
    | error e => simp [hc, Except.map] at h
    | ok item' =>
      simp only [hc, Except.map, Except.ok.injEq] at h
      subst h
      exact hd.replace hl hc

/-- An item of the table is the item of its path. -/
theorem Describes.mem {items : List Item} {calls : List FileCall} (hd : Describes items calls)
    {item : Item} (h : item ∈ items) : ∃ f, itemOf calls f = some item := by
  obtain ⟨f, hf⟩ := hd.dotted item h
  refine ⟨f, ?_⟩
  rw [← hd.lookup f]
  cases hl : lookupItem items f with
  | none =>
    rw [lookupItem, List.find?_eq_none] at hl
    exact absurd hf (by simpa using hl item h)
  | some i =>
    obtain ⟨hi, hif⟩ := lookupItem_mem hl
    rw [List.inj_on_of_nodup_map hd.nodup h hi (hf.trans hif.symm)]

/-! ### What a whole pass leaves behind -/

/-- Once a conflict has been seen, the loop ends with `EEXIST`. -/
theorem collectCalls_true (flags : Flags) :
    ∀ (cs : List FileCall) (items : List Item),
      (collectCalls flags cs true items).2 = some .eexist := by
  intro cs
  induction cs with
  | nil => intro items; simp [collectCalls]
  | cons c cs ih =>
    intro items
    rw [collectCalls]
    cases collectFile flags items c with
    | ok items' => exact ih items'
    | error e =>
      by_cases he : e = .eexist
      · simpa only [he, if_true] using ih items
      · simp [he]

theorem Describes.collectCalls_ok {flags : Flags} :
    ∀ (cs : List FileCall) {items : List Item} {calls : List FileCall}, Describes items calls →
      (collectCalls flags cs false items).2 = none →
        Describes (collectCalls flags cs false items).1 (calls ++ cs) := by
  intro cs
  induction cs with
  | nil =>
    intro items calls hd _
    simpa [collectCalls] using hd
  | cons c cs ih =>
    intro items calls hd h
    rw [collectCalls] at h ⊢
    cases hc : collectFile flags items c with
    | ok items' =>
      simp only [hc] at h ⊢
      have := ih (hd.collectFile_ok hc) h
      rwa [List.append_assoc, List.singleton_append] at this
    | error e =>
      simp only [hc] at h
      by_cases he : e = .eexist
      · rw [if_pos he, collectCalls_true] at h
        exact absurd h (by simp)
      · simp [if_neg he] at h

theorem Describes.collectPkg_ok {xhp : Handle} {lists : FileLists} {idx : Nat} {obj : PkgDict}
    {items : List Item} {calls : List FileCall} (hd : Describes items calls)
    (h : (collectPkg xhp lists idx obj items).2 = none) :
    Describes (collectPkg xhp lists idx obj items).1
      (calls ++ (newCalls lists idx obj ++ oldCalls xhp lists idx obj)) := by
  rw [collectPkg] at h ⊢
  by_cases hskip : obj.transaction = .hold ∨ obj.transaction = .configure
  · have hu : obj.transaction.unpacks = false := by
      rcases hskip with hs | hs <;> rw [hs] <;> rfl
    rw [if_pos hskip]
    cases hn : obj.pkgname <;> simpa [newCalls, oldCalls, hskip, hn, hu] using hd
  · rw [if_neg hskip] at h ⊢
    cases hn : obj.pkgname with
    | none => simp [hn] at h
    | some pkgname =>
      simp only [hn] at h ⊢
      -- the binary package
      have hnew : ∀ items₁ rv, (if obj.transaction.unpacks = true then
            collectBinpkgFiles xhp.flags lists idx obj pkgname items else (items, none)) =
            (items₁, rv) → rv = none →
          Describes items₁ (calls ++ newCalls lists idx obj) := by
        intro items₁ rv h₁ hrv
        rw [newCalls, hn]
        by_cases hu : obj.transaction.unpacks = true
        · rw [if_pos hu, collectBinpkgFiles] at h₁
          simp only [if_pos hu]
          cases hb : lists.binpkg obj with
          | error e =>
            simp only [hb, Prod.mk.injEq] at h₁
            exact absurd (h₁.2.trans hrv) (by simp)
          | ok od =>
            cases od with
            | none =>
              simp only [hb, Prod.mk.injEq] at h₁
              simpa [h₁.1] using hd
            | some d =>
              simp only [hb, collectFiles] at h₁
              have hrv' : (collectCalls xhp.flags ((binpkgPass idx obj pkgname).calls d) false
                  items).2 = none := by
                rw [h₁]
                exact hrv
              have := hd.collectCalls_ok _ hrv'
              simpa only [h₁] using this
        · rw [if_neg hu, Prod.mk.injEq] at h₁
          simpa [if_neg hu, h₁.1] using hd
      generalize hp : (if obj.transaction.unpacks = true then
        collectBinpkgFiles xhp.flags lists idx obj pkgname items else (items, none)) = p at h ⊢
      obtain ⟨items₁, rv⟩ := p
      simp only at h ⊢
      by_cases hrv : rv = none
      · have hd₁ := hnew items₁ rv hp hrv
        simp only [hrv, ne_eq, not_true_eq_false, if_false] at h ⊢
        rw [← List.append_assoc]
        cases hf : installedFiles xhp lists pkgname with
        | none =>
          simpa [oldCalls, hskip, hn, hf] using hd₁
        | some d =>
          simp only [hf, collectFiles] at h ⊢
          have := hd₁.collectCalls_ok _ h
          simpa [oldCalls, hskip, hn, hf] using this
      · rw [if_pos hrv] at h
        exact absurd h hrv

/-- After a pass without error the table describes all calls of the transaction. -/
theorem transactionCollect_describes (xhp : Handle) (lists : FileLists) :
    ∀ (pkgs : List PkgDict) (idx : Nat) {items : List Item} {calls : List FileCall},
      Describes items calls → (transactionCollect xhp lists idx pkgs items).2 = none →
        Describes (transactionCollect xhp lists idx pkgs items).1
          (calls ++ transactionCalls xhp lists idx pkgs) := by
  intro pkgs
  induction pkgs with
  | nil =>
    intro idx items calls hd _
    simpa [transactionCollect, transactionCalls] using hd
  | cons obj pkgs ih =>
    intro idx items calls hd h
    rw [transactionCollect] at h ⊢
    rw [transactionCalls]
    generalize hp : collectPkg xhp lists (idx + 1) obj items = p at h ⊢
    obtain ⟨items₁, rv⟩ := p
    cases rv with
    | some e => simp at h
    | none =>
      simp only at h ⊢
      have hrv : (collectPkg xhp lists (idx + 1) obj items).2 = none := by rw [hp]
      have hd₁ := hd.collectPkg_ok hrv
      rw [hp] at hd₁
      have := ih (idx + 1) hd₁ h
      rwa [List.append_assoc] at this

/-! ### Where a record comes from -/

/-- The owner recorded on the old side made one of the calls, with the recorded type. -/
theorem oldRecord_owner {calls : List FileCall} {f : Str} {old : FileRecord}
    (h : oldRecord calls f = some old) :
    ∃ c ∈ calls, c.removefile = true ∧ c.file = f ∧ old.type = c.record.type ∧
      old.pkgname = c.record.pkgname ∧ old.index = c.record.index ∧
      old.preserve = c.record.preserve ∧ old.removepkg = c.record.removepkg := by
  induction calls using List.reverseRecOn generalizing old with
  | nil => simp [oldRecord] at h
  | append_singleton calls c ih =>
    rw [oldRecord_append] at h
    by_cases hc : c.removefile = true ∧ c.file = f
    · rw [if_pos hc, Option.some.injEq] at h
      cases ho : oldRecord calls f with
      | none =>
        rw [ho, mergeOld] at h
        subst h
        exact ⟨c, by simp, hc.1, hc.2, rfl, rfl, rfl, rfl, rfl⟩
      | some old₀ =>
        rw [ho, mergeOld] at h
        split at h
        · next hm =>
          subst h
          exact ⟨c, by simp, hc.1, hc.2, hm.1.2.trans hm.1.1.symm, rfl, rfl, rfl, rfl⟩
        · subst h
          obtain ⟨c', hc', hrest⟩ := ih ho
          exact ⟨c', by simp [hc'], hrest⟩
    · rw [if_neg hc] at h
      obtain ⟨c', hc', hrest⟩ := ih h
      exact ⟨c', by simp [hc'], hrest⟩

/-- The new side comes from one of the calls. -/
theorem newRecord_eq_some {calls : List FileCall} {f : Str} {new : FileRecord}
    (h : newRecord calls f = some new) :
    ∃ c ∈ calls, c.removefile = false ∧ c.file = f ∧ new = { c.record with sha256 := none } := by
  rw [newRecord, Option.map_eq_some_iff] at h
  obtain ⟨c, hc, rfl⟩ := h
  have := List.find?_some hc
  simp only [decide_eq_true_eq] at this
  exact ⟨c, List.mem_of_find?_eq_some hc, this.1, this.2, rfl⟩

theorem newRecord_isSome {calls : List FileCall} {c : FileCall} (hc : c ∈ calls)
    (hr : c.removefile = false) : ∃ new, newRecord calls c.file = some new := by
  rw [newRecord]
  cases h : calls.find? fun c' => decide (c'.removefile = false ∧ c'.file = c.file) with
  | some c' => exact ⟨_, rfl⟩
  | none =>
    rw [List.find?_eq_none] at h
    exact absurd (h c hc) (by simp [hr])

theorem FilesPass.regularCalls_common (p : FilesPass) (type : FileType) :
    ∀ (es : List FileEntry) (sha256 : Option Str), ∀ c ∈ (p.regularCalls type sha256 es).1,
      ∃ file sha256 target size type, c = p.call type file sha256 target size := by
  intro es
  induction es with
  | nil => intro sha256 c hc; simp [FilesPass.regularCalls] at hc
  | cons e es ih =>
    intro sha256 c hc
    rw [FilesPass.regularCalls, List.mem_cons] at hc
    rcases hc with rfl | hc
    · exact ⟨_, _, _, _, _, rfl⟩
    · exact ih _ c hc

/-- All calls of one pass carry the pass's own arguments. -/
theorem FilesPass.calls_common {p : FilesPass} {d : FilesDict} {c : FileCall}
    (h : c ∈ p.calls d) :
    ∃ file sha256 target size type, c = p.call type file sha256 target size := by
  rw [FilesPass.calls] at h
  simp only [List.mem_append, List.mem_map] at h
  rcases h with ((h | h) | ⟨e, -, rfl⟩) | ⟨file, -, rfl⟩
  · exact p.regularCalls_common .file d.files none c h
  · exact p.regularCalls_common .conffile d.confFiles _ c h
  · exact ⟨_, _, _, _, _, rfl⟩
  · exact ⟨_, _, _, _, _, rfl⟩

theorem FilesPass.removefile_of_mem {p : FilesPass} {d : FilesDict} {c : FileCall}
    (h : c ∈ p.calls d) : c.removefile = p.removefile := by
  obtain ⟨_, _, _, _, _, rfl⟩ := FilesPass.calls_common h
  rfl

theorem removefile_of_mem_newCalls {lists : FileLists} {idx : Nat} {obj : PkgDict} {c : FileCall}
    (h : c ∈ newCalls lists idx obj) : c.removefile = false := by
  rw [newCalls] at h
  split at h
  · simp at h
  · split at h
    · split at h
      · exact FilesPass.removefile_of_mem h
      · simp at h
    · simp at h

theorem removefile_of_mem_oldCalls {xhp : Handle} {lists : FileLists} {idx : Nat} {obj : PkgDict}
    {c : FileCall} (h : c ∈ oldCalls xhp lists idx obj) : c.removefile = true := by
  rw [oldCalls] at h
  split at h
  · simp at h
  · split at h
    · simp at h
    · split at h
      · simp at h
      · exact FilesPass.removefile_of_mem h

/-! ### The paths in the file lists -/

/-- The paths of a file list with their types. -/
def FilesDict.occurrences (d : FilesDict) : List (Str × FileType) :=
  d.files.map (fun e => (e.file, .file)) ++ d.confFiles.map (fun e => (e.file, .conffile)) ++
    d.links.map (fun e => (e.1, .link)) ++ d.dirs.map fun file => (file, .dir)

/-- The paths in the new file lists of one entry. -/
def newOccurrencesOf (lists : FileLists) (obj : PkgDict) : List (Str × FileType) :=
  if obj.transaction.unpacks then
    match lists.binpkg obj with
    | .ok (some d) => d.occurrences
    | _ => []
  else []

/-- The paths in the new file lists of a transaction. -/
def newOccurrences (lists : FileLists) (pkgs : List PkgDict) : List (Str × FileType) :=
  pkgs.flatMap (newOccurrencesOf lists)

theorem FilesPass.map_regularCalls (p : FilesPass) (type : FileType) :
    ∀ (es : List FileEntry) (sha256 : Option Str),
      (p.regularCalls type sha256 es).1.map (fun c => (c.file, c.record.type)) =
        es.map fun e => (e.file, type) := by
  intro es
  induction es with
  | nil => intro sha256; rfl
  | cons e es ih =>
    intro sha256
    rw [FilesPass.regularCalls, List.map_cons, ih]
    rfl

theorem FilesPass.map_calls (p : FilesPass) (d : FilesDict) :
    (p.calls d).map (fun c => (c.file, c.record.type)) = d.occurrences := by
  simp only [FilesPass.calls, List.map_append, FilesPass.map_regularCalls, List.map_map,
    FilesDict.occurrences]
  rfl

theorem map_newCalls {lists : FileLists} (idx : Nat) {obj : PkgDict}
    (hname : obj.transaction.unpacks = true → obj.pkgname.isSome) :
    (newCalls lists idx obj).map (fun c => (c.file, c.record.type)) =
      newOccurrencesOf lists obj := by
  rw [newCalls, newOccurrencesOf]
  by_cases hu : obj.transaction.unpacks = true
  · obtain ⟨pkgname, hn⟩ := Option.isSome_iff_exists.mp (hname hu)
    simp only [if_pos hu, hn]
    cases lists.binpkg obj with
    | error e => rfl
    | ok od =>
      cases od with
      | none => rfl
      | some d => exact FilesPass.map_calls _ d
  · cases obj.pkgname <;> simp [hu]

theorem map_transactionCalls_new (xhp : Handle) (lists : FileLists) :
    ∀ (pkgs : List PkgDict) (idx : Nat), (∀ p ∈ pkgs, p.transaction.unpacks = true → p.pkgname.isSome) →
      ((transactionCalls xhp lists idx pkgs).filter fun c => c.removefile = false).map
        (fun c => (c.file, c.record.type)) = newOccurrences lists pkgs := by
  intro pkgs
  induction pkgs with
  | nil => intro idx _; rfl
  | cons obj pkgs ih =>
    intro idx hname
    have hnew : (newCalls lists (idx + 1) obj).filter (fun c => c.removefile = false) =
        newCalls lists (idx + 1) obj :=
      List.filter_eq_self.mpr fun c hc => by simp [removefile_of_mem_newCalls hc]
    have hold : (oldCalls xhp lists (idx + 1) obj).filter (fun c => c.removefile = false) = [] :=
      List.filter_eq_nil_iff.mpr fun c hc => by simp [removefile_of_mem_oldCalls hc]
    rw [transactionCalls, List.filter_append, List.filter_append, hnew, hold, List.append_nil,
      List.map_append, map_newCalls _ (hname obj (by simp)), ih _ fun p hp => hname p (by simp [hp]),
      newOccurrences, newOccurrences, List.flatMap_cons]

/-- A pass without error has read the name of every entry it unpacks. -/
theorem transactionCollect_named {xhp : Handle} {lists : FileLists} :
    ∀ {pkgs : List PkgDict} {idx : Nat} {items : List Item},
      (transactionCollect xhp lists idx pkgs items).2 = none →
        ∀ p ∈ pkgs, p.transaction.unpacks = true → p.pkgname.isSome := by
  intro pkgs
  induction pkgs with
  | nil => intro idx items _ p hp; simp at hp
  | cons obj pkgs ih =>
    intro idx items h p hp hu
    rw [transactionCollect] at h
    rcases List.mem_cons.mp hp with rfl | hp
    · by_contra hn
      rw [Option.not_isSome_iff_eq_none] at hn
      have hskip : ¬ (p.transaction = .hold ∨ p.transaction = .configure) := by
        rintro (he | he) <;> simp [he, TransType.unpacks] at hu
      simp [collectPkg, hskip, hn] at h
    · generalize collectPkg xhp lists (idx + 1) obj items = r at h
      obtain ⟨items₁, rv⟩ := r
      cases rv with
      | some e => cases h
      | none => exact ih h p hp hu

end Flappy
