/-
The symlinks of an alternatives group (`lib/package_alternatives.c`).

A package describes the links of a group as strings `<link>:<target>`; a link that
does not start with a slash lies in the directory of its target.  The two loops that
create and remove links take these strings apart in different ways, and neither looks
at what the other has made of them.

* `removeSymlinks_links` — which links are gone after the removal;
* `createSymlinks_eq_none_iff`, `createSymlinks_links` — when all links are created,
  and what is there then.
-/
import Mathlib.Data.List.DropRight
import Flappy.Util

open CStr

namespace Flappy

/-- What a directory entry is, as far as `lstat` tells links apart. -/
inductive Node where
  | link
  | other
deriving DecidableEq, Repr

/-- `dirname`. -/
def dirname (path : Str) : Str :=
  if path = [] then ['.']
  else
    match strrchr '/' (path.rdropWhile (· = '/')) with
    | some (dir, _) =>
      let dir := dir.rdropWhile (· = '/')
      if dir = [] then ['/'] else dir
    | none => if path.head? = some '/' then ['/'] else ['.']

/-- `strtok (s, ":")`: the token and what is left. -/
def strtokColon (s : Str) : Option (Str × Str) :=
  match s.dropWhile (· = ':') with
  | [] => none
  | c :: s => some ((c :: s).takeWhile (· ≠ ':'), ((c :: s).dropWhile (· ≠ ':')).tail)

/-- The link and the target of an alternative, as `create_symlinks` reads it. -/
def altTokens (alternative : Str) : Option (Str × Str) :=
  (strtokColon alternative).bind fun t => (strtokColon t.2).map fun u => (t.1, u.1)

/-- What the alternatives code takes from outside.  A path leads to a directory entry,
its place; two paths are the same link iff they lead to the same place. -/
structure AltEnv (Place : Type*) where
  rootdir : Str
  place : Str → Place
  /-- The text that `relpath` makes of the link path, and the relative target. -/
  relpath : Str → Str → Str × Str
  /-- `flappy_mkpath`; `none` is success. -/
  mkpath : Str → Option Errno
  /-- Does `unlink` succeed? -/
  unlink : Place → Bool
  /-- `symlink`, after `unlink` at the same path; `none` is success. -/
  symlink : Str → Str → Option Errno

variable {Place : Type*} [DecidableEq Place]

/-- The path that `remove_symlinks` builds from the two halves of an alternative. -/
def AltEnv.lnk (env : AltEnv Place) (l tgt : Str) : Str :=
  if l.head? ≠ some '/' then env.rootdir ++ dirname tgt ++ '/' :: l else env.rootdir ++ l

/-- Change one entry. -/
def setNode (fs : Place → Option Node) (x : Place) (node : Option Node) : Place → Option Node :=
  fun y => if y = x then node else fs y

/-- `remove_symlinks`; `none` if an alternative has no colon. -/
def removeSymlinks (env : AltEnv Place) (fs : Place → Option Node) :
    List Str → Option (Place → Option Node)
  | [] => some fs
  | str :: a =>
    match strchr ':' str with
    | none => none
    | some (l, tgt) =>
      let x := env.place (env.lnk l tgt)
      removeSymlinks env
        (if fs x = some .link ∧ env.unlink x = true then setNode fs x none else fs) a

/-- The path that `create_symlinks` builds, before `relpath`. -/
def AltEnv.linkpath (env : AltEnv Place) (tok1 tok2 : Str) : Str :=
  if tok1.head? ≠ some '/' then env.rootdir ++ '/' :: dirname tok2 ++ '/' :: tok1
  else env.rootdir ++ '/' :: tok1

/-- The path and the target of the link: an absolute target is made relative, and the
link path is normalised on the way. -/
def AltEnv.linkTarget (env : AltEnv Place) (tok1 tok2 : Str) : Str × Str :=
  if tok2.head? = some '/' then
    let (path, rel) := env.relpath ((env.linkpath tok1 tok2).drop env.rootdir.length) tok2
    (env.rootdir ++ path, rel)
  else (env.linkpath tok1 tok2, tok2)

/-- `flappy_mkpath (dir, 0755) && errno != EEXIST`. -/
def AltEnv.mkdir (env : AltEnv Place) (dir : Str) : Option Errno :=
  (env.mkpath dir).filter (· ≠ .eexist)

/-- `create_symlinks`; the return value `none` is 0. -/
def createSymlinks (env : AltEnv Place) (fs : Place → Option Node) :
    List Str → (Place → Option Node) × Option Errno
  | [] => (fs, none)
  | alternative :: a =>
    match altTokens alternative with
    | none => (fs, some .einval)
    | some (tok1, tok2) =>
      match env.mkdir (env.rootdir ++ '/' :: dirname tok2) with
      | some e => (fs, some e)
      | none =>
        match env.mkdir (dirname (env.linkpath tok1 tok2)) with
        | some e => (fs, some e)
        | none =>
          let (path, target) := env.linkTarget tok1 tok2
          let x := env.place path
          let fs := if env.unlink x then setNode fs x none else fs
          match env.symlink target path with
          | some e => (fs, some e)
          | none => createSymlinks env (setNode fs x (some .link)) a

/-! ### What the loops do -/

/-- The place where `remove_symlinks` looks for the link of an alternative. -/
def AltEnv.removePlace (env : AltEnv Place) (alternative : Str) : Option Place :=
  (strchr ':' alternative).map fun (l, tgt) => env.place (env.lnk l tgt)

/-- The place of the link that an alternative describes. -/
def AltEnv.linkPlace (env : AltEnv Place) (alternative : Str) : Option Place :=
  (altTokens alternative).map fun (tok1, tok2) => env.place (env.linkTarget tok1 tok2).1

/-- Nothing keeps the link of an alternative from being created. -/
def AltEnv.creatable (env : AltEnv Place) (alternative : Str) : Bool :=
  match altTokens alternative with
  | none => false
  | some (tok1, tok2) =>
    (env.mkdir (env.rootdir ++ '/' :: dirname tok2)).isNone &&
      (env.mkdir (dirname (env.linkpath tok1 tok2))).isNone &&
        (env.symlink (env.linkTarget tok1 tok2).2 (env.linkTarget tok1 tok2).1).isNone

/-- The places of the links that a list of alternatives describes. -/
def AltEnv.linkPlaces (env : AltEnv Place) (a : List Str) : List Place := a.filterMap env.linkPlace

/-- The places that `remove_symlinks` clears. -/
def AltEnv.removed (env : AltEnv Place) (a : List Str) (x : Place) : Prop :=
  x ∈ a.filterMap env.removePlace ∧ env.unlink x = true

instance AltEnv.decidableRemoved (env : AltEnv Place) (a : List Str) (x : Place) :
    Decidable (env.removed a x) :=
  inferInstanceAs (Decidable (_ ∧ _))

variable {env : AltEnv Place} {fs fs' : Place → Option Node}

@[simp] theorem setNode_self (fs : Place → Option Node) (x : Place) (node : Option Node) :
    setNode fs x node x = node := if_pos rfl

theorem setNode_ne (fs : Place → Option Node) {x y : Place} (node : Option Node) (h : y ≠ x) :
    setNode fs x node y = fs y := if_neg h

/-- Only links are removed, and only those of the list. -/
theorem removeSymlinks_links {a : List Str} (h : removeSymlinks env fs a = some fs') (x : Place) :
    fs' x = some .link ↔ fs x = some .link ∧ ¬ env.removed a x := by
  induction a generalizing fs with
  | nil =>
    cases h
    simp [AltEnv.removed]
  | cons str a ih =>
    rw [removeSymlinks] at h
    cases hs : strchr ':' str with
    | none => simp [hs] at h
    | some p =>
      obtain ⟨l, tgt⟩ := p
      simp only [hs] at h
      have hplace : env.removePlace str = some (env.place (env.lnk l tgt)) := by
        simp [AltEnv.removePlace, hs]
      rw [ih h, AltEnv.removed, AltEnv.removed, List.filterMap_cons, hplace, List.mem_cons]
      by_cases hx : x = env.place (env.lnk l tgt)
      · subst hx
        by_cases hu : env.unlink (env.place (env.lnk l tgt)) = true
        · by_cases hl : fs (env.place (env.lnk l tgt)) = some .link <;> simp [hu, hl]
        · simp [hu]
      · have hkeep : (if fs (env.place (env.lnk l tgt)) = some Node.link ∧
            env.unlink (env.place (env.lnk l tgt)) = true then
              setNode fs (env.place (env.lnk l tgt)) none else fs) x = fs x := by
          split
          · exact setNode_ne _ _ hx
          · rfl
        rw [hkeep]
        simp [hx]

theorem createSymlinks_cons (fs : Place → Option Node) {alternative : Str} (a : List Str)
    (h : env.creatable alternative = true) : ∃ x fs₁, env.linkPlace alternative = some x ∧
      (∀ y ≠ x, fs₁ y = fs y) ∧ fs₁ x = some .link ∧
      createSymlinks env fs (alternative :: a) = createSymlinks env fs₁ a := by
  rw [AltEnv.creatable] at h
  rw [createSymlinks]
  cases ht : altTokens alternative with
  | none => simp [ht] at h
  | some t =>
    obtain ⟨tok1, tok2⟩ := t
    simp only [ht, Bool.and_eq_true, Option.isNone_iff_eq_none] at h
    obtain ⟨⟨hdir, hlink⟩, hsym⟩ := h
    simp only [hdir, hlink, hsym]
    refine ⟨env.place (env.linkTarget tok1 tok2).1, _, by simp [AltEnv.linkPlace, ht],
      fun y hy => ?_, ?_, rfl⟩
    · rw [setNode_ne _ _ hy]
      split
      · exact setNode_ne _ _ hy
      · rfl
    · exact setNode_self _ _ _

theorem createSymlinks_eq_none_iff {a : List Str} :
    (createSymlinks env fs a).2 = none ↔ ∀ alternative ∈ a, env.creatable alternative = true := by
  induction a generalizing fs with
  | nil => simp [createSymlinks]
  | cons alternative a ih =>
    by_cases hc : env.creatable alternative = true
    · obtain ⟨x, fs₁, -, -, -, heq⟩ := createSymlinks_cons fs a hc
      rw [heq, ih]
      simp [hc]
    · refine iff_of_false (fun h => hc ?_) fun h => hc (h _ (by simp))
      rw [createSymlinks] at h
      rw [AltEnv.creatable]
      cases ht : altTokens alternative with
      | none => simp [ht] at h
      | some t =>
        obtain ⟨tok1, tok2⟩ := t
        simp only [ht] at h ⊢
        cases hdir : env.mkdir (env.rootdir ++ '/' :: dirname tok2) with
        | some e => simp [hdir] at h
        | none =>
          cases hlink : env.mkdir (dirname (env.linkpath tok1 tok2)) with
          | some e => simp [hdir, hlink] at h
          | none =>
            cases hsym : env.symlink (env.linkTarget tok1 tok2).2 (env.linkTarget tok1 tok2).1 with
            | some e => simp [hdir, hlink, hsym] at h
            | none => rfl

/-- After a creation without error the links are there, and nothing else has changed. -/
theorem createSymlinks_links {a : List Str} (h : (createSymlinks env fs a).2 = none) (x : Place) :
    (createSymlinks env fs a).1 x = if x ∈ env.linkPlaces a then some .link else fs x := by
  rw [createSymlinks_eq_none_iff] at h
  induction a generalizing fs with
  | nil => simp [createSymlinks, AltEnv.linkPlaces]
  | cons alternative a ih =>
    obtain ⟨y, fs₁, hplace, hne, hself, heq⟩ :=
      createSymlinks_cons fs a (h alternative (by simp))
    rw [heq, ih fun b hb => h b (List.mem_cons_of_mem _ hb), AltEnv.linkPlaces, AltEnv.linkPlaces,
      List.filterMap_cons, hplace]
    by_cases hx : x = y
    · subst hx
      simp [hself]
    · simp [hx, hne x hx]

end Flappy
