/-
What lookups in the repository pool find.

While nothing but lookups happens, the pool holds its repositories as they are
opened, with some dictionaries described, and the repositories that cannot be
opened are missing from the list.  A lookup then finds what it finds in a fresh
process, if a search is never ended by an `errno` that was there before.

* `PoolOf` — such a pool;
* `rpoolGetPkg_find`, `rpoolGetVirtualpkg_find` — what is found, as a function of the
  repositories alone.
-/
import Flappy.Rpool

open CStr

namespace Flappy

/-! ### Described indexes -/

theorem describe_pkgver (uri : Str) (d : PkgDict) : (describe uri d).pkgver = d.pkgver :=
  (evolves_describe uri d).pkgver

theorem describe_provides (uri : Str) (d : PkgDict) : (describe uri d).provides = d.provides := by
  unfold describe
  split
  · rfl
  · split <;> rfl

/-- Describing a dictionary again changes nothing. -/
theorem describe_describe (uri : Str) (d : PkgDict) :
    describe uri (describe uri d) = describe uri d := by
  by_cases h : d.repository.isSome ∧ d.pkgname.isSome
  · have hd : describe uri d = d := if_pos h
    rw [hd, hd]
  · cases hn : pkgName d.pkgver with
    | none =>
      have hd : describe uri d = { d with repository := some uri } := by simp [describe, h, hn]
      rw [hd]
      simp [describe, hn]
    | some pkgname =>
      have hd : describe uri d = { d with repository := some uri, pkgname := some pkgname } := by
        simp [describe, h, hn]
      rw [hd]
      simp [describe]

/-- A dictionary that has been described. -/
def Described (d : PkgDict) : Prop := d.repository.isSome ∧ d.pkgname.isSome

theorem Described.describe {d : PkgDict} (h : Described d) (uri : Str) : describe uri d = d :=
  if_pos h

theorem described_describe (uri : Str) {d : PkgDict} (hn : (pkgName d.pkgver).isSome) :
    Described (describe uri d) := by
  obtain ⟨pkgname, hn⟩ := Option.isSome_iff_exists.mp hn
  unfold describe
  split
  · assumption
  · simp [hn, Described]

/-- The index, with some of its dictionaries described. -/
def DescribedFrom (uri : Str) (idx idx' : Dict Str PkgDict) : Prop :=
  ∃ P : Str → Bool,
    idx'.entries = idx.entries.map fun e => (e.1, if P e.1 then describe uri e.2 else e.2)

theorem DescribedFrom.refl (uri : Str) (idx : Dict Str PkgDict) : DescribedFrom uri idx idx :=
  ⟨fun _ => false, by simp⟩

variable {uri : Str} {idx idx' : Dict Str PkgDict}

theorem DescribedFrom.get (h : DescribedFrom uri idx idx') :
    ∃ P : Str → Bool, ∀ k,
      idx'.get k = (idx.get k).map fun d => if P k then describe uri d else d := by
  obtain ⟨P, h⟩ := h
  refine ⟨P, fun k => ?_⟩
  rw [Dict.get, h, List.find?_map, Option.map_map, Dict.get, Option.map_map]
  cases hf : idx.entries.find? fun e => e.1 = k with
  | none =>
    have : idx.entries.find? ((fun e : Str × PkgDict => decide (e.1 = k)) ∘
        fun e => (e.1, if P e.1 then describe uri e.2 else e.2)) = none := hf
    rw [this]
    rfl
  | some e =>
    have : idx.entries.find? ((fun e : Str × PkgDict => decide (e.1 = k)) ∘
        fun e => (e.1, if P e.1 then describe uri e.2 else e.2)) = some e := hf
    have hk : e.1 = k := by simpa using List.find?_some hf
    rw [this, ← hk]
    rfl

theorem DescribedFrom.describe (h : DescribedFrom uri idx idx') (key : Str) :
    DescribedFrom uri idx (idx'.modify key (describe uri)) := by
  obtain ⟨P, h⟩ := h
  refine ⟨fun k => P k || decide (k = key), ?_⟩
  show idx'.entries.map _ = _
  rw [h, List.map_map]
  refine List.map_congr_left fun e _ => ?_
  by_cases hk : e.1 = key
  · cases hP : P key <;> simp [hk, hP, describe_describe]
  · simp [hk]

/-- Describing changes nothing that a lookup reads. -/
theorem DescribedFrom.isSome_filter (h : DescribedFrom uri idx idx') {q : PkgDict → Bool}
    (hq : ∀ d, q (Flappy.describe uri d) = q d) (k : Str) :
    ((idx'.get k).filter q).isSome = ((idx.get k).filter q).isSome := by
  obtain ⟨P, hget⟩ := h.get
  rw [hget]
  cases idx.get k with
  | none => rfl
  | some d =>
    rw [Option.map_some]
    cases hP : P k <;> simp [Option.filter, hq]
    split <;> rfl

theorem DescribedFrom.isSome_get (h : DescribedFrom uri idx idx') (k : Str) :
    (idx'.get k).isSome = (idx.get k).isSome := by
  obtain ⟨P, hget⟩ := h.get
  rw [hget, Option.isSome_map]

theorem DescribedFrom.isSome_find (h : DescribedFrom uri idx idx') (pkg : Str) :
    (findPkgInDict idx' pkg).isSome = (findPkgInDict idx pkg).isSome := by
  have hver : ∀ p, (matchPkgByPkgver idx' p).isSome = (matchPkgByPkgver idx p).isSome := by
    intro p
    rw [matchPkgByPkgver, matchPkgByPkgver]
    cases pkgName p with
    | none => rfl
    | some pkgname => exact h.isSome_filter (fun d => by rw [describe_pkgver]) pkgname
  rw [findPkgInDict, findPkgInDict]
  cases request pkg with
  | pattern =>
    simp only [matchPkgByPattern]
    cases pkgpatternName pkg with
    | none =>
      simp only
      split
      · exact hver pkg
      · rfl
    | some pkgname => exact h.isSome_filter (fun d => by rw [describe_pkgver]) pkgname
  | pkgver => exact hver pkg
  | pkgname => exact h.isSome_get pkg

theorem DescribedFrom.findKey (h : DescribedFrom uri idx idx') :
    findKeyInDict idx' = findKeyInDict idx := by
  funext pkg
  rw [findKeyInDict, findKeyInDict, h.isSome_find]

theorem DescribedFrom.repoFindKey (h : DescribedFrom uri idx idx') (env : Env) (xhp : Handle)
    (pkg : Str) : repoFindKey env xhp idx' pkg = repoFindKey env xhp idx pkg := by
  rw [Flappy.repoFindKey, Flappy.repoFindKey, h.findKey]

theorem DescribedFrom.findVirtualKey (h : DescribedFrom uri idx idx') (xhp : Handle)
    (pkg : Str) : findVirtualKeyInDict xhp idx' pkg = findVirtualKeyInDict xhp idx pkg := by
  rw [findVirtualKeyInDict, findVirtualKeyInDict, h.findKey]
  obtain ⟨P, hentries⟩ := h
  congr 1
  have hmatch : ∀ e : Str × PkgDict,
      matchVirtualPkgInDict (if P e.1 then Flappy.describe uri e.2 else e.2) pkg =
        matchVirtualPkgInDict e.2 pkg := by
    intro e
    cases hP : P e.1 <;> simp [matchVirtualPkgInDict, describe_provides]
  rw [hentries, List.find?_map, Option.map_map]
  simp only [Function.comp_def, hmatch]

/-! ### The pool -/

/-- A repository whose packages have names in their pkgvers. -/
def Env.Named (env : Env) (uri : Str) : Prop :=
  ∀ idx, env.repoOpen uri = some idx → ∀ e ∈ idx.entries, (pkgName e.2.pkgver).isSome

/-- A pool of these repositories in which nothing but lookups has happened. -/
structure PoolOf (env : Env) (R : List Str) (pool : Rpool) : Prop where
  queue : ∀ repo ∈ pool.queue, repo.uri ∈ R ∧
    ∃ idx, env.repoOpen repo.uri = some idx ∧ DescribedFrom repo.uri idx repo.idx
  left : pool.repositories.filter (fun uri => (env.repoOpen uri).isSome) =
    R.filter fun uri => (env.repoOpen uri).isSome
  listed : ∀ uri ∈ pool.repositories, uri ∈ R

/-- A described dictionary stays as it is. -/
def Rpool.Keeps (pool pool' : Rpool) : Prop :=
  ∀ ref d, pool.get ref = some d → Described d → pool'.get ref = some d

theorem Rpool.Keeps.refl (pool : Rpool) : pool.Keeps pool := fun _ _ h _ => h

theorem Rpool.Keeps.trans {pool pool' pool'' : Rpool} (h : pool.Keeps pool')
    (h' : pool'.Keeps pool'') : pool.Keeps pool'' :=
  fun ref d hd hd' => h' ref d (h ref d hd hd') hd'

variable {env : Env} {xhp : Handle} {R : List Str} {pool : Rpool}

/-- `errno` is another matter. -/
theorem PoolOf.errno (h : PoolOf env R pool) (errno : Option Errno) :
    PoolOf env R { pool with errno } := ⟨h.queue, h.left, h.listed⟩

theorem PoolOf.fresh (env : Env) (R : List Str) : PoolOf env R { repositories := R } :=
  ⟨by simp, rfl, fun _ => id⟩

/-- What the dictionary under a key looks like to the caller. -/
def describedAt (uri : Str) (idx : Dict Str PkgDict) (key : Option Str) : Option PkgDict :=
  (key.bind idx.get).map (describe uri)

/-- The index that was opened for a repository of the queue. -/
theorem PoolOf.opened (h : PoolOf env R pool) {repo : Repo} (hrepo : repo ∈ pool.queue)
    {idx : Dict Str PkgDict} (hidx : env.repoOpen repo.uri = some idx) :
    DescribedFrom repo.uri idx repo.idx := by
  obtain ⟨-, idx', hidx', hdesc⟩ := h.queue repo hrepo
  obtain rfl := Option.some.inj (hidx.symm.trans hidx')
  exact hdesc

theorem PoolOf.modify (h : PoolOf env R pool) {i : Nat} {repo : Repo}
    (hi : pool.queue[i]? = some repo) (key : Str) :
    PoolOf env R (pool.modify ⟨i, key⟩ (Flappy.describe repo.uri)) := by
  refine ⟨fun repo' hrepo' => ?_, h.left, h.listed⟩
  obtain ⟨j, hj⟩ := List.mem_iff_getElem?.mp hrepo'
  rw [Rpool.modify, List.getElem?_modify] at hj
  obtain ⟨repo₀, hj₀, rfl⟩ := Option.map_eq_some_iff.mp hj
  have hmem := h.queue repo₀ (List.mem_of_getElem? hj₀)
  split
  · next hij =>
    simp only at hij
    subst hij
    obtain rfl := Option.some.inj (hi.symm.trans hj₀)
    obtain ⟨huri, idx, hidx, hdesc⟩ := hmem
    exact ⟨huri, idx, hidx, hdesc.describe key⟩
  · exact hmem

theorem Rpool.keeps_modify (pool : Rpool) (ref : PkgRef) (uri : Str) :
    pool.Keeps (pool.modify ref (Flappy.describe uri)) := by
  intro ref' d hd hdesc
  by_cases h : ref' = ref
  · subst h
    rw [Rpool.get_modify_self, hd, Option.map_some, hdesc.describe]
  · rw [Rpool.get_modify_ne pool _ h, hd]

/-- A lookup that finds this dictionary. -/
structure Finds (env : Env) (R : List Str) (pool : Rpool) (r : Rpool × Option PkgRef)
    (d : Option PkgDict) : Prop where
  of : PoolOf env R r.1
  keeps : pool.Keeps r.1
  found : r.2.bind r.1.get = d
  isSome : r.2.isSome = d.isSome
  described : ∀ d', d = some d' → Described d'

theorem Finds.nothing {pool' : Rpool} (h : PoolOf env R pool') (hkeeps : pool.Keeps pool') :
    Finds env R pool (pool', none) none :=
  ⟨h, hkeeps, rfl, rfl, fun _ hd => nomatch hd⟩

/-- The end of a lookup. -/
theorem PoolOf.describe (h : PoolOf env R pool) (hnamed : ∀ uri ∈ R, env.Named uri) {i : Nat}
    {repo : Repo} (hi : pool.queue[i]? = some repo) {idx : Dict Str PkgDict}
    (hidx : env.repoOpen repo.uri = some idx) (key : Option Str) :
    Finds env R pool (pool.describe i key) (describedAt repo.uri idx key) := by
  cases key with
  | none =>
    have hrun : pool.describe i none = (pool, none) := by simp only [Rpool.describe]
    rw [hrun]
    exact Finds.nothing h (Rpool.Keeps.refl pool)
  | some key =>
    have hrun : pool.describe i (some key) = (pool.modify ⟨i, key⟩ (Flappy.describe repo.uri),
        if ((repo.idx.get key).map isDescribable).getD false then some ⟨i, key⟩ else none) := by
      simp only [Rpool.describe, hi]
    have hrepo := List.mem_of_getElem? hi
    obtain ⟨P, hget⟩ := (h.opened hrepo hidx).get
    rw [hrun]
    simp only [describedAt, Option.bind_some, hget]
    cases hk : idx.get key with
    | none => exact Finds.nothing (h.modify hi key) (Rpool.keeps_modify pool _ _)
    | some d =>
      have hd : (pkgName d.pkgver).isSome :=
        hnamed repo.uri (h.queue repo hrepo).1 idx hidx (key, d) (Dict.mem_entries_iff.mpr hk)
      have hdesc : isDescribable (if P key then Flappy.describe repo.uri d else d) = true := by
        split <;> simp [isDescribable, describe_pkgver, hd]
      simp only [Option.map_some, hdesc, Option.getD_some, if_true]
      refine ⟨h.modify hi key, Rpool.keeps_modify pool _ _, ?_, rfl, ?_⟩
      · rw [Option.bind_some, Rpool.get_modify_self, Rpool.get, hi, Option.bind_some, hget, hk,
          Option.map_some, Option.map_some]
        split <;> simp [describe_describe]
      · rintro _ ⟨⟩
        exact described_describe repo.uri hd

/-- What `flappy_repo_get_pkg` finds in a repository. -/
def repoPkg (env : Env) (xhp : Handle) (pkg uri : Str) : Option PkgDict :=
  (env.repoOpen uri).bind fun idx => describedAt uri idx (repoFindKey env xhp idx pkg)

/-- What `flappy_repo_get_virtualpkg` finds in a repository. -/
def repoVirtualpkg (env : Env) (xhp : Handle) (pkg uri : Str) : Option PkgDict :=
  (env.repoOpen uri).bind fun idx => describedAt uri idx (findVirtualKeyInDict xhp idx pkg)

theorem PoolOf.repoGetPkg (h : PoolOf env R pool) (hnamed : ∀ uri ∈ R, env.Named uri) {i : Nat}
    {repo : Repo} (hi : pool.queue[i]? = some repo) (pkg : Str) :
    Finds env R pool (repoGetPkg env xhp pool i pkg) (repoPkg env xhp pkg repo.uri) := by
  obtain ⟨-, idx, hidx, hdesc⟩ := h.queue repo (List.mem_of_getElem? hi)
  simp only [Flappy.repoGetPkg, hi, hdesc.repoFindKey, repoPkg, hidx, Option.bind_some]
  obtain ⟨hpool, hkeeps, hfound⟩ := PoolOf.describe
    (h.errno (repoFindErrno env xhp repo.idx pkg pool.errno)) hnamed hi hidx
    (repoFindKey env xhp idx pkg)
  exact ⟨hpool, hkeeps, hfound, by assumption, by assumption⟩

theorem PoolOf.repoGetVirtualpkg (h : PoolOf env R pool) (hnamed : ∀ uri ∈ R, env.Named uri)
    {i : Nat} {repo : Repo} (hi : pool.queue[i]? = some repo) (pkg : Str) :
    Finds env R pool (repoGetVirtualpkg xhp pool i pkg) (repoVirtualpkg env xhp pkg repo.uri) := by
  obtain ⟨-, idx, hidx, hdesc⟩ := h.queue repo (List.mem_of_getElem? hi)
  simp only [Flappy.repoGetVirtualpkg, hi, hdesc.findVirtualKey, repoVirtualpkg, hidx,
    Option.bind_some]
  obtain ⟨hpool, hkeeps, hfound⟩ := PoolOf.describe
    (h.errno (findVirtualErrno xhp repo.idx pkg pool.errno)) hnamed hi hidx
    (findVirtualKeyInDict xhp idx pkg)
  exact ⟨hpool, hkeeps, hfound, by assumption, by assumption⟩

/-! ### Searching the pool -/

theorem PoolOf.drop (h : PoolOf env R pool) {uri : Str} (hidx : env.repoOpen uri = none) :
    PoolOf env R { pool with repositories := removeStringFromArray pool.repositories uri } := by
  refine ⟨h.queue, ?_, fun uri huri => h.listed uri (List.mem_of_mem_eraseP huri)⟩
  rw [← h.left]
  simp only
  induction pool.repositories with
  | nil => rfl
  | cons u l ih =>
    by_cases hu : u = uri
    · simp [removeStringFromArray, hu, hidx]
    · rw [removeStringFromArray] at ih ⊢
      rw [List.eraseP_cons_of_neg (by simpa using hu), List.filter_cons, List.filter_cons, ih]

theorem PoolOf.append (h : PoolOf env R pool) {uri : Str} (huri : uri ∈ R)
    {idx : Dict Str PkgDict} (hidx : env.repoOpen uri = some idx) :
    PoolOf env R { pool with queue := pool.queue ++ [⟨uri, idx⟩] } := by
  refine ⟨fun repo hrepo => ?_, h.left, h.listed⟩
  rcases List.mem_append.mp hrepo with hrepo | hrepo
  · exact h.queue repo hrepo
  · obtain rfl := List.mem_singleton.mp hrepo
    exact ⟨huri, idx, hidx, DescribedFrom.refl uri idx⟩

theorem Rpool.keeps_append (pool : Rpool) (repo : Repo) :
    pool.Keeps { pool with queue := pool.queue ++ [repo] } := by
  intro ref d hd _
  obtain ⟨repo', hrepo, hget⟩ := Option.bind_eq_some_iff.mp hd
  have hlt := (List.getElem?_eq_some_iff.mp hrepo).1
  rw [Rpool.get]
  simp only
  rw [List.getElem?_append_left hlt, hrepo, Option.bind_some, hget]

/-- A round of `flappy_rpool_foreach`: the repository cannot be opened and is dropped, or it is
there, just opened or not. -/
theorem PoolOf.foreach_cons (h : PoolOf env R pool) {uri : Str} (huri : uri ∈ R)
    (fn : Rpool → Nat → Option PkgRef → CbResult) (uris : List Str) (pkgd : Option PkgRef)
    (foundrepo : Bool) :
    ∃ pool', PoolOf env R pool' ∧ pool.Keeps pool' ∧
      pool'.errno = (if uri ∈ pool.queue.map Repo.uri then pool.errno
        else env.openErrno uri pool.errno) ∧
      ((env.repoOpen uri = none ∧ pool'.queue = pool.queue ∧
          rpoolForeach env fn (uri :: uris) pool pkgd foundrepo =
            rpoolForeach env fn uris pool' pkgd foundrepo) ∨
        ∃ i repo, pool'.queue[i]? = some repo ∧ repo.uri = uri ∧
          (∀ u, u ∈ pool'.queue.map Repo.uri ↔ u ∈ uri :: pool.queue.map Repo.uri) ∧
          rpoolForeach env fn (uri :: uris) pool pkgd foundrepo =
            let r := fn pool' i pkgd
            if r.rv.isSome ∨ r.done = true then (r.pool, r.pkgd, r.rv)
            else rpoolForeach env fn uris r.pool r.pkgd true) := by
  cases hfind : rpoolGetRepo pool uri with
  | some i =>
    obtain ⟨hi, huri', -⟩ := List.findIdx?_eq_some_iff_getElem.mp hfind
    have huri'' : pool.queue[i].uri = uri := by simpa using huri'
    have hmem : uri ∈ pool.queue.map Repo.uri :=
      huri'' ▸ List.mem_map_of_mem (List.getElem_mem hi)
    refine ⟨pool, h, Rpool.Keeps.refl pool, by rw [if_pos hmem], Or.inr ⟨i, pool.queue[i],
      List.getElem?_eq_getElem hi, huri'', fun u => ?_, by simp only [rpoolForeach, hfind]⟩⟩
    rw [List.mem_cons]
    exact ⟨Or.inr, fun hu => hu.elim (fun hu => hu ▸ hmem) id⟩
  | none =>
    -- the repository is not open yet
    have hmem : uri ∉ pool.queue.map Repo.uri := by
      rw [rpoolGetRepo, List.findIdx?_eq_none_iff] at hfind
      rw [List.mem_map]
      rintro ⟨repo, hrepo, hu⟩
      simpa [hu] using hfind repo hrepo
    have hpool := h.errno (env.openErrno uri pool.errno)
    cases hidx : env.repoOpen uri with
    | none =>
      refine ⟨_, hpool.drop hidx, Rpool.Keeps.refl pool, by rw [if_neg hmem],
        Or.inl ⟨rfl, rfl, ?_⟩⟩
      simp only [rpoolForeach, hfind, Rpool.open, hidx]
    | some idx =>
      refine ⟨_, hpool.append huri hidx, Rpool.keeps_append pool ⟨uri, idx⟩, by rw [if_neg hmem],
        Or.inr ⟨pool.queue.length, ⟨uri, idx⟩, by simp, rfl, fun u => ?_, ?_⟩⟩
      · rw [List.map_append, List.mem_append, List.map_singleton, List.mem_singleton,
          List.mem_cons, or_comm]
      · simp only [rpoolForeach, hfind, Rpool.open, hidx]

theorem Finds.trans {pool' : Rpool} (hkeeps : pool.Keeps pool') {r : Rpool × Option PkgRef}
    {d : Option PkgDict} (h : Finds env R pool' r d) : Finds env R pool r d :=
  ⟨h.of, hkeeps.trans h.keeps, h.found, h.isSome, h.described⟩

theorem Finds.self {r : Rpool × Option PkgRef} {d : Option PkgDict} (h : Finds env R pool r d) :
    Finds env R r.1 r d :=
  ⟨h.of, Rpool.Keeps.refl r.1, h.found, h.isSome, h.described⟩

theorem Finds.errno {r : Rpool × Option PkgRef} {d : Option PkgDict} (h : Finds env R pool r d)
    (errno : Option Errno) : Finds env R pool ({ r.1 with errno }, r.2) d :=
  ⟨h.of.errno errno, h.keeps, h.found, h.isSome, h.described⟩

/-- The result of a search, as `repo_find_pkg` reads it. -/
def searched (r : Rpool × Option PkgRef × Option Errno) : Rpool × Option PkgRef :=
  (r.1, if r.2.2.isSome then none else r.2.1)

theorem Finds.repoFindPkg {fn : Rpool → Nat → Option PkgRef → CbResult} {d : Option PkgDict}
    (h : Finds env R pool (searched (rpoolForeach env fn pool.repositories pool none false)) d) :
    Finds env R pool (repoFindPkg env fn pool) d := by
  rw [Flappy.repoFindPkg]
  generalize rpoolForeach env fn pool.repositories pool none false = r at h
  obtain ⟨pool', ref, rv⟩ := r
  cases rv with
  | some e => exact h.errno (some e)
  | none =>
    cases ref with
    | none => exact h.errno (some .enoent)
    | some ref => exact h

/-- Repositories that cannot be opened do not count. -/
theorem PoolOf.findSome (h : PoolOf env R pool) {look : Str → Option PkgDict}
    (hlook : ∀ uri, env.repoOpen uri = none → look uri = none) :
    pool.repositories.findSome? look = R.findSome? look := by
  have hfilter : ∀ l : List Str,
      (l.filter fun uri => (env.repoOpen uri).isSome).findSome? look = l.findSome? look := by
    intro l
    induction l with
    | nil => rfl
    | cons uri l ih =>
      rw [List.filter_cons]
      split
      · rw [List.findSome?_cons, List.findSome?_cons, ih]
      · next hopen => rw [List.findSome?_cons, hlook uri (by simpa using hopen), ih]
  rw [← hfilter, h.left, hfilter]

/-- A callback that stops at the first repository that has the package. -/
def FirstCb (env : Env) (R : List Str) (look : Str → Option PkgDict)
    (fn : Rpool → Nat → Option PkgRef → CbResult) : Prop :=
  ∀ pool i best repo, PoolOf env R pool → pool.queue[i]? = some repo →
    Finds env R pool ((fn pool i best).pool, (fn pool i best).pkgd) (look repo.uri) ∧
      (fn pool i best).rv = none ∧ (fn pool i best).done = (fn pool i best).pkgd.isSome

theorem FirstCb.foreach {look : Str → Option PkgDict}
    (hlook : ∀ uri, env.repoOpen uri = none → look uri = none)
    {fn : Rpool → Nat → Option PkgRef → CbResult} (hfn : FirstCb env R look fn) :
    ∀ {uris : List Str} {pool : Rpool} {foundrepo : Bool}, (∀ uri ∈ uris, uri ∈ R) →
      PoolOf env R pool →
      Finds env R pool (searched (rpoolForeach env fn uris pool none foundrepo))
        (uris.findSome? look) := by
  intro uris
  induction uris with
  | nil =>
    intro pool foundrepo _ h
    rw [rpoolForeach]
    cases foundrepo <;> exact Finds.nothing h (Rpool.Keeps.refl pool)
  | cons uri uris ih =>
    intro pool foundrepo huris h
    rw [List.forall_mem_cons] at huris
    rw [List.findSome?_cons]
    obtain ⟨pool₁, h₁, hkeeps, -, ⟨hnone, -, hrun⟩ | ⟨i, repo, hi, rfl, -, hrun⟩⟩ :=
      h.foreach_cons huris.1 fn uris none foundrepo
    · rw [hrun, hlook uri hnone]
      exact (ih huris.2 h₁).trans hkeeps
    · obtain ⟨hfinds, hrv, hdone⟩ := hfn pool₁ i none repo h₁ hi
      have hsome := hfinds.isSome
      simp only [hrv, hdone, Option.isSome_none, Bool.false_eq_true, false_or] at hrun
      cases hd : look repo.uri with
      | none =>
        rw [hd, Option.isSome_none] at hsome
        simp only [hsome, Bool.false_eq_true, if_false] at hrun
        simp only [Option.isSome_eq_false_iff, Option.isNone_iff_eq_none] at hsome
        rw [hrun, hsome]
        exact ((ih huris.2 hfinds.of).trans hfinds.keeps).trans hkeeps
      | some d =>
        rw [hd, Option.isSome_some] at hsome
        simp only [hsome, if_true] at hrun
        rw [hd] at hfinds
        rw [hrun]
        exact hfinds.trans hkeeps

theorem FirstCb.repoFindPkg {look : Str → Option PkgDict}
    (hlook : ∀ uri, env.repoOpen uri = none → look uri = none)
    {fn : Rpool → Nat → Option PkgRef → CbResult} (hfn : FirstCb env R look fn)
    (h : PoolOf env R pool) : Finds env R pool (repoFindPkg env fn pool) (R.findSome? look) := by
  rw [← h.findSome hlook]
  exact Finds.repoFindPkg (FirstCb.foreach hlook hfn h.listed h)

/-- What `flappy_rpool_get_virtualpkg` finds. -/
theorem rpoolGetVirtualpkg_find (hnamed : ∀ uri ∈ R, env.Named uri) (h : PoolOf env R pool)
    (pkg : Str) :
    Finds env R pool (rpoolGetVirtualpkg env xhp pool pkg)
      (R.findSome? (repoVirtualpkg env xhp pkg)) :=
  FirstCb.repoFindPkg (fun uri hidx => by rw [repoVirtualpkg, hidx, Option.bind_none])
    (fun _ _ _ _ hpool hi => ⟨hpool.repoGetVirtualpkg hnamed hi pkg, rfl, rfl⟩) h

/-! ### The best package -/

/-- The better one of a package and the best so far. -/
def better (d : PkgDict) : Option PkgDict → PkgDict
  | none => d
  | some b => if cmpver d.pkgver b.pkgver = 1 then d else b

/-- The search of `find_best_pkg_cb`, when a miss ends it or not. -/
def poolBest (env : Env) (look : Str → Option PkgDict) (stops : Bool) :
    List Str → Option PkgDict → Option PkgDict
  | [], best => best
  | uri :: uris, best =>
    if (env.repoOpen uri).isNone then poolBest env look stops uris best
    else
      match look uri with
      | none => if stops then none else poolBest env look stops uris best
      | some d => poolBest env look stops uris (some (better d best))

theorem poolBest_filter (env : Env) (look : Str → Option PkgDict) (stops : Bool) (l : List Str)
    (best : Option PkgDict) :
    poolBest env look stops (l.filter fun uri => (env.repoOpen uri).isSome) best =
      poolBest env look stops l best := by
  induction l generalizing best with
  | nil => rfl
  | cons uri l ih =>
    rw [List.filter_cons]
    cases hidx : env.repoOpen uri with
    | none => simpa [poolBest, hidx] using ih best
    | some idx =>
      simp only [Option.isSome_some, if_true, poolBest, hidx, Option.isNone_some,
        Bool.false_eq_true, if_false, ih]

/-- `errno` after a miss, for a request that is not a plain name. -/
def missErrno (pkg : Str) : Errno := if (requestKey pkg).isSome then .enoent else .einval

theorem findErrno_miss {d : Dict Str PkgDict} {pkg : Str} (hreq : request pkg ≠ .pkgname)
    (h : (findPkgInDict d pkg).isSome = false) (errno : Option Errno) :
    findErrno d pkg errno = some (missErrno pkg) := by
  rw [findErrno, h, missErrno]
  cases hr : request pkg with
  | pattern => simp only [Bool.false_eq_true, if_false]; split <;> rfl
  | pkgver => simp only [Bool.false_eq_true, if_false]; split <;> rfl
  | pkgname => exact absurd hr hreq

theorem repoFindErrno_miss {d : Dict Str PkgDict} {pkg : Str} (hreq : request pkg ≠ .pkgname)
    (h : (repoFindKey env xhp d pkg).bind d.get = none) (errno : Option Errno) :
    repoFindErrno env xhp d pkg errno = some (missErrno pkg) := by
  -- neither the configured provider nor the package itself is in the index
  rw [repoFindKey] at h
  rw [repoFindErrno]
  cases hconf : virtualpkgInConf env xhp pkg with
  | none =>
    rw [hconf, Option.bind_none, Option.none_or, findKeyInDict_bind_get] at h
    exact findErrno_miss hreq (by rw [h]; rfl) errno
  | some cur =>
    rw [hconf, Option.bind_some] at h
    cases hcur : findKeyInDict d cur with
    | none =>
      rw [hcur, Option.none_or, findKeyInDict_bind_get] at h
      simp only [← findKeyInDict_isSome, hcur, Option.isSome_none, Bool.false_eq_true, if_false]
      exact findErrno_miss hreq (by rw [h]; rfl) _
    | some k =>
      rw [hcur, Option.some_or, Option.bind_some] at h
      have hget := findKeyInDict_get hcur
      rw [h] at hget
      cases hget

/-- A repository without the package, for a request that is not a plain name. -/
theorem repoFindErrno_of_repoPkg {uri : Str} {idx : Dict Str PkgDict}
    (hidx : env.repoOpen uri = some idx) {pkg : Str} (hreq : request pkg ≠ .pkgname)
    (hd : repoPkg env xhp pkg uri = none) (errno : Option Errno) :
    repoFindErrno env xhp idx pkg errno = some (missErrno pkg) := by
  rw [repoPkg, hidx, Option.bind_some, describedAt, Option.map_eq_none_iff] at hd
  exact repoFindErrno_miss hreq hd errno

/-- `errno` does not stop the search for the best match. -/
def isQuiet (errno : Option Errno) : Bool := errno = none || errno = some .enoent

/-- Every repository that lacks the package leaves `errno` at 0 or `ENOENT`: `opened` are the
repositories that are open, and the others are opened on the way. -/
def quietMisses (env : Env) (xhp : Handle) (pkg : Str) :
    List Str → List Str → Option Errno → Bool
  | [], _, _ => true
  | uri :: uris, opened, errno =>
    let errno := if uri ∈ opened then errno else env.openErrno uri errno
    match env.repoOpen uri with
    | none => quietMisses env xhp pkg uris opened errno
    | some idx =>
      let errno := repoFindErrno env xhp idx pkg errno
      ((repoPkg env xhp pkg uri).isSome || isQuiet errno) &&
        quietMisses env xhp pkg uris (uri :: opened) errno

/-- What has been found stays. -/
theorem Finds.keep {best : Option PkgRef} {b : Option PkgDict} (h : Finds env R pool (pool, best) b)
    {pool' : Rpool} (h' : PoolOf env R pool') (hkeeps : pool.Keeps pool') :
    Finds env R pool (pool', best) b := by
  refine ⟨h', hkeeps, ?_, h.isSome, h.described⟩
  cases best with
  | none => exact h.found
  | some ref =>
    obtain ⟨d, hd⟩ := Option.isSome_iff_exists.mp (h.isSome ▸ rfl : b.isSome = true)
    have hget : pool.get ref = some d := h.found.trans hd
    exact (hkeeps ref d hget (h.described d hd)).trans hd.symm

theorem repoGetPkg_errno (env : Env) (xhp : Handle) (pool : Rpool) {i : Nat} {repo : Repo}
    (hi : pool.queue[i]? = some repo) (pkg : Str) :
    (repoGetPkg env xhp pool i pkg).1.errno = repoFindErrno env xhp repo.idx pkg pool.errno := by
  simp only [repoGetPkg, hi, Rpool.describe]
  cases repoFindKey env xhp repo.idx pkg <;> rfl

theorem Rpool.describe_uris (pool : Rpool) (i : Nat) (key : Option Str) :
    (pool.describe i key).1.queue.map Repo.uri = pool.queue.map Repo.uri := by
  unfold Rpool.describe
  split
  · simp only [Rpool.modify]
    refine List.ext_getElem? fun j => ?_
    rw [List.getElem?_map, List.getElem?_modify, List.getElem?_map]
    cases pool.queue[j]? with
    | none => rfl
    | some repo =>
      simp only [Option.map_eq_map, Option.map_some]
      split <;> rfl
  · rfl

theorem repoGetPkg_uris (env : Env) (xhp : Handle) (pool : Rpool) (i : Nat) (pkg : Str) :
    (repoGetPkg env xhp pool i pkg).1.queue.map Repo.uri = pool.queue.map Repo.uri := by
  rw [repoGetPkg]
  split
  · rfl
  · rw [Rpool.describe_uris]

theorem DescribedFrom.repoFindErrno {uri : Str} {idx idx' : Dict Str PkgDict}
    (h : DescribedFrom uri idx idx') (env : Env) (xhp : Handle) (pkg : Str)
    (errno : Option Errno) :
    Flappy.repoFindErrno env xhp idx' pkg errno = Flappy.repoFindErrno env xhp idx pkg errno := by
  have hfind : ∀ p e, findErrno idx' p e = findErrno idx p e := by
    intro p e
    rw [findErrno, findErrno, h.isSome_find]
  simp only [Flappy.repoFindErrno, hfind, h.isSome_find]

/-- One repository in the search for the best package, whatever is asked for. -/
theorem PoolOf.bestRound (xhp : Handle) (h : PoolOf env R pool)
    (hnamed : ∀ uri ∈ R, env.Named uri) {i : Nat} {repo : Repo}
    (hi : pool.queue[i]? = some repo) {idx : Dict Str PkgDict}
    (hidx : env.repoOpen repo.uri = some idx) (pkg : Str) {best : Option PkgRef}
    {b : Option PkgDict} (hbest : Finds env R pool (pool, best) b) :
    let r := findBestPkgCb env xhp pkg pool i best
    r.done = false ∧ r.pool.queue.map Repo.uri = pool.queue.map Repo.uri ∧
      r.pool.errno = repoFindErrno env xhp idx pkg pool.errno ∧
      match repoPkg env xhp pkg repo.uri with
      | none => Finds env R pool (r.pool, r.pkgd) b ∧ r.rv.isSome = !isQuiet r.pool.errno
      | some d => Finds env R pool (r.pool, r.pkgd) (some (better d b)) ∧ r.rv = none := by
  have hfinds : Finds env R pool (Flappy.repoGetPkg env xhp pool i pkg)
      (repoPkg env xhp pkg repo.uri) := h.repoGetPkg hnamed hi pkg
  have huris := repoGetPkg_uris env xhp pool i pkg
  have herrno : (Flappy.repoGetPkg env xhp pool i pkg).1.errno =
      repoFindErrno env xhp idx pkg pool.errno := by
    rw [repoGetPkg_errno env xhp pool hi,
      (h.opened (List.mem_of_getElem? hi) hidx).repoFindErrno]
  simp only [findBestPkgCb]
  generalize Flappy.repoGetPkg env xhp pool i pkg = r at hfinds huris herrno
  obtain ⟨pool', ref⟩ := r
  have hkeep := hbest.keep hfinds.of hfinds.keeps
  have hsome := hfinds.isSome
  cases hd : repoPkg env xhp pkg repo.uri with
  | none =>
    rw [hd] at hsome
    simp only [Option.isSome_none, Option.isSome_eq_false_iff, Option.isNone_iff_eq_none] at hsome
    subst hsome
    refine ⟨rfl, huris, herrno, hkeep, ?_⟩
    cases he : pool'.errno with
    | none => simp [isQuiet]
    | some e => by_cases hq : e = .enoent <;> simp [isQuiet, hq]
  | some d =>
    rw [hd] at hsome hfinds
    obtain ⟨ref', rfl⟩ := Option.isSome_iff_exists.mp hsome
    have hget : pool'.get ref' = some d := hfinds.found
    cases best with
    | none =>
      have hb : b = none := hbest.found.symm
      subst hb
      exact ⟨rfl, huris, herrno, ⟨hfinds.of, hfinds.keeps, hget, rfl, hfinds.described⟩, rfl⟩
    | some bref =>
      -- there is a best already: the two versions are compared
      obtain ⟨b', rfl⟩ := Option.isSome_iff_exists.mp (hbest.isSome ▸ rfl : b.isSome = true)
      have hget' : pool'.get bref = some b' := hkeep.found
      have hver : pool'.pkgver ref' = d.pkgver := by rw [Rpool.pkgver, hget]; rfl
      have hver' : pool'.pkgver bref = b'.pkgver := by rw [Rpool.pkgver, hget']; rfl
      refine ⟨rfl, huris, herrno, ?_, rfl⟩
      simp only [hver, hver', better]
      split
      · exact ⟨hfinds.of, hfinds.keeps, hget, rfl, hfinds.described⟩
      · exact ⟨hfinds.of, hfinds.keeps, hget', rfl, hbest.described⟩

/-- The search over the repositories that are left: it is `poolBest` unless a miss is taken for an
error, and then it finds nothing. -/
theorem PoolOf.foreachBest (xhp : Handle) (hnamed : ∀ uri ∈ R, env.Named uri) (pkg : Str) :
    ∀ {uris : List Str} {pool : Rpool} {best : Option PkgRef} {b : Option PkgDict}
      {foundrepo : Bool} {opened : List Str}, (∀ uri ∈ uris, uri ∈ R) →
      (∀ u, u ∈ opened ↔ u ∈ pool.queue.map Repo.uri) →
      Finds env R pool (pool, best) b → (foundrepo = false → b = none) →
      Finds env R pool
        (searched (rpoolForeach env (findBestPkgCb env xhp pkg) uris pool best foundrepo))
        (if quietMisses env xhp pkg uris opened pool.errno then
          poolBest env (repoPkg env xhp pkg) false uris b else none) := by
  intro uris
  induction uris with
  | nil =>
    intro pool best b foundrepo opened _ _ h hfound
    rw [rpoolForeach, quietMisses, if_pos rfl, poolBest]
    cases foundrepo with
    | false =>
      rw [hfound rfl]
      exact Finds.nothing h.of (Rpool.Keeps.refl pool)
    | true => exact h
  | cons uri uris ih =>
    intro pool best b foundrepo opened huris hopened h hfound
    rw [List.forall_mem_cons] at huris
    obtain ⟨pool₁, h₁, hkeeps, herrno, ⟨hnone, hqueue, hrun⟩ | ⟨i, repo, hi, rfl, hqueue, hrun⟩⟩ :=
      h.of.foreach_cons huris.1 (findBestPkgCb env xhp pkg) uris best foundrepo
    all_goals simp only [← hopened] at herrno
    · rw [hrun, quietMisses, poolBest, hnone]
      simp only [← herrno, Option.isNone_none, if_true]
      exact (ih huris.2 (by rwa [hqueue]) (h.keep h₁ hkeeps).self hfound).trans hkeeps
    · obtain ⟨-, idx, hidx, -⟩ := h₁.queue repo (List.mem_of_getElem? hi)
      obtain ⟨hdone, huris', herrno', hcases⟩ :=
        h₁.bestRound xhp hnamed hi hidx pkg (h.keep h₁ hkeeps).self
      have hopened' : ∀ u, u ∈ repo.uri :: opened ↔
          u ∈ (findBestPkgCb env xhp pkg pool₁ i best).pool.queue.map Repo.uri := by
        intro u
        rw [huris', hqueue, List.mem_cons, List.mem_cons, hopened]
      simp only [hdone, Bool.false_eq_true, or_false] at hrun
      rw [hrun, quietMisses, hidx]
      simp only [← herrno, ← herrno']
      generalize findBestPkgCb env xhp pkg pool₁ i best = r at hcases hopened'
      rw [poolBest, hidx, Option.isNone_some, if_neg Bool.false_ne_true]
      cases hd : repoPkg env xhp pkg repo.uri with
      | none =>
        rw [hd] at hcases
        obtain ⟨hfinds, hrv⟩ := hcases
        simp only [hrv, Option.isSome_none, Bool.false_or, Bool.false_eq_true, if_false]
        cases hq : isQuiet r.pool.errno with
        | true =>
          simp only [Bool.not_true, Bool.false_eq_true, if_false, Bool.true_and]
          exact (ih huris.2 hopened' hfinds.self (fun h => absurd h (by decide))).trans
            (hkeeps.trans hfinds.keeps)
        | false =>
          -- the miss is taken for an error, and what was found before is lost
          simp only [Bool.not_false, if_true, Bool.false_and, Bool.false_eq_true, if_false,
            searched, hrv, hq]
          exact Finds.nothing hfinds.of (hkeeps.trans hfinds.keeps)
      | some d =>
        rw [hd] at hcases
        obtain ⟨hfinds, hrv⟩ := hcases
        simp only [hrv, Option.isSome_none, Bool.false_eq_true, if_false, Option.isSome_some,
          Bool.true_or, Bool.true_and]
        exact (ih huris.2 hopened' hfinds.self (fun h => absurd h (by decide))).trans
          (hkeeps.trans hfinds.keeps)

/-- A request that is not a plain name sets `errno` at every miss: whether a miss ends the search
does not depend on what `errno` was. -/
theorem poolBest_stops {pkg : Str} (hreq : request pkg ≠ .pkgname) :
    ∀ (uris opened : List Str) (errno : Option Errno) (b : Option PkgDict),
      (if quietMisses env xhp pkg uris opened errno then
          poolBest env (repoPkg env xhp pkg) false uris b else none) =
        poolBest env (repoPkg env xhp pkg) (missErrno pkg ≠ .enoent) uris b := by
  intro uris
  induction uris with
  | nil => exact fun _ _ _ => rfl
  | cons uri uris ih =>
    intro opened errno b
    rw [quietMisses, poolBest, poolBest]
    cases hidx : env.repoOpen uri with
    | none => exact ih _ _ _
    | some idx =>
      rw [Option.isNone_some, if_neg Bool.false_ne_true, if_neg Bool.false_ne_true]
      cases hd : repoPkg env xhp pkg uri with
      | some d =>
        simp only [Option.isSome_some, Bool.true_or, Bool.true_and]
        exact ih _ _ _
      | none =>
        simp only [repoFindErrno_of_repoPkg hidx hreq hd, Option.isSome_none, Bool.false_or]
        by_cases hmiss : missErrno pkg = .enoent
        · simp only [isQuiet, hmiss, ne_eq, not_true_eq_false, decide_false, Bool.false_eq_true,
            if_false, decide_true, Bool.or_true, Bool.true_and]
          have := ih (uri :: opened) (some .enoent) b
          simpa only [hmiss, ne_eq, not_true_eq_false, decide_false] using this
        · simp [isQuiet, hmiss]

/-- What `flappy_rpool_get_pkg` finds. -/
def poolPkg (env : Env) (xhp : Handle) (R : List Str) (pkg : Str) : Option PkgDict :=
  if xhp.flags.bestmatch then
    poolBest env (repoPkg env xhp pkg) (missErrno pkg ≠ .enoent) R none
  else R.findSome? (repoPkg env xhp pkg)

theorem rpoolGetPkg_find (hnamed : ∀ uri ∈ R, env.Named uri) (h : PoolOf env R pool) {pkg : Str}
    (hreq : xhp.flags.bestmatch = true → request pkg ≠ .pkgname) :
    Finds env R pool (rpoolGetPkg env xhp pool pkg) (poolPkg env xhp R pkg) := by
  rw [rpoolGetPkg, poolPkg]
  cases hbest : xhp.flags.bestmatch with
  | false =>
    exact FirstCb.repoFindPkg (fun uri hidx => by rw [repoPkg, hidx, Option.bind_none])
      (fun _ _ _ _ hpool hi => ⟨hpool.repoGetPkg hnamed hi pkg, rfl, rfl⟩) h
  | true =>
    rw [if_pos rfl, if_pos rfl, ← poolBest_filter, ← h.left, poolBest_filter,
      ← poolBest_stops (hreq hbest) _ (pool.queue.map Repo.uri) pool.errno]
    exact Finds.repoFindPkg (PoolOf.foreachBest xhp hnamed pkg h.listed (fun _ => Iff.rfl)
      (Finds.nothing h (Rpool.Keeps.refl pool)) fun _ => rfl)

end Flappy
