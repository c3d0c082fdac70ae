/-
What a lookup in the pool owes to the lookups before it.

The search for the best match takes a miss for an error if `errno` holds one,
and a lookup by a bare name leaves `errno` as it was.  `flappy_regget_repo`
opens a repository only while no repository is open.

* `bestmatch_iff` — when the search for the best match finds the first best
  version of all repositories;
* `reggetRepo_iff` — when a repository of the list is found by its URL.
-/
import Flappy.Ops
import Flappy.RpoolFind
import Flappy.Lib.Best

open CStr

namespace Flappy

/-! ### The best match -/

section BestMatch

variable {env : Env} {xhp : Handle} {R : List Str} {pool : Rpool}

/-- The order of versions. -/
def pkgverLe (d d' : PkgDict) : Prop := cmpver d.pkgver d'.pkgver ≤ 0

theorem pkgverLe_refl (d : PkgDict) : pkgverLe d d := Int.le_of_eq (cmpver_self d.pkgver)

theorem not_pkgverLe_iff {d d' : PkgDict} : cmpver d.pkgver d'.pkgver = 1 ↔ ¬ pkgverLe d d' :=
  cmpver_eq_one_iff

/-- The versions that these places offer. -/
def OfferedBy (look : Str → Option PkgDict) (uris : List Str) (v : Str) : Prop :=
  ∃ uri ∈ uris, ∃ d, look uri = some d ∧ d.pkgver = v

/-- A search that no miss ends holds the first best version of the repositories so far. -/
theorem poolBest_earliest {look : Str → Option PkgDict} :
    ∀ {uris done : List Str} {best : Option PkgDict}, (∀ uri ∈ uris, (env.repoOpen uri).isSome) →
      CmpverPreorder (OfferedBy look (done ++ uris)) →
      EarliestBest pkgverLe look done best →
      EarliestBest pkgverLe look (done ++ uris) (poolBest env look false uris best) := by
  intro uris
  induction uris with
  | nil =>
    intro done best _ _ h
    rwa [List.append_nil, poolBest]
  | cons uri uris ih =>
    intro done best hopen hcmp h
    rw [List.forall_mem_cons] at hopen
    have happend : done ++ uri :: uris = (done ++ [uri]) ++ uris := by
      rw [List.append_assoc, List.singleton_append]
    obtain ⟨idx, hidx⟩ := Option.isSome_iff_exists.mp hopen.1
    rw [happend] at hcmp
    rw [happend, poolBest, hidx, Option.isNone_some, if_neg Bool.false_ne_true]
    cases hd : look uri with
    | none =>
      simp only [Bool.false_eq_true, if_false]
      exact ih hopen.2 hcmp (h.pass hd)
    | some d =>
      refine ih hopen.2 hcmp ?_
      cases best with
      | none => exact h.first hd (pkgverLe_refl d)
      | some b =>
        rw [better]
        by_cases hlt : cmpver d.pkgver b.pkgver = 1
        · rw [if_pos hlt]
          have hdone : ∀ c ∈ done, ∀ x, look c = some x →
              OfferedBy look ((done ++ [uri]) ++ uris) x.pkgver := fun c hc x hx =>
            ⟨c, List.mem_append_left _ (List.mem_append_left _ hc), x, hx, rfl⟩
          have hnew : OfferedBy look ((done ++ [uri]) ++ uris) d.pkgver :=
            ⟨uri, List.mem_append_left _ (List.mem_append_right _ List.mem_cons_self), d, hd, rfl⟩
          obtain ⟨c₀, hc₀, hb⟩ := h.offered rfl
          have hheld := hdone c₀ hc₀ b hb
          -- the new version is greater than the one that is held
          have hle : cmpver b.pkgver d.pkgver ≤ 0 := by
            rw [hcmp.swap hnew hheld]
            omega
          exact h.replace hd (not_pkgverLe_iff.mp hlt) (fun c hc x hx =>
            ⟨fun hxb => hcmp.trans (hdone c hc x hx) hheld hnew hxb hle,
              fun hdx hxb => hcmp.trans hnew (hdone c hc x hx) hheld hdx hxb⟩) (pkgverLe_refl d)
        · rw [if_neg hlt]
          exact h.keep hd (not_not.mp fun hle => hlt (not_pkgverLe_iff.mpr hle))

/-- No repository has the package, or no repository that lacks it leaves an error in `errno`. -/
def BestmatchWhen (env : Env) (xhp : Handle) (R : List Str) (pool : Rpool) (pkg : Str) : Prop :=
  (∀ uri ∈ R, repoPkg env xhp pkg uri = none) ∨
    quietMisses env xhp pkg R (pool.queue.map Repo.uri) pool.errno = true

/-- The dictionary that a lookup returns. -/
def pkgFound (r : Rpool × Option PkgRef) : Option PkgDict := r.2.bind r.1.get

/-- **What `flappy_rpool_get_pkg` finds with `FLAPPY_FLAG_BESTMATCH`.** -/
theorem rpoolGetPkg_bestmatch (hbest : xhp.flags.bestmatch = true)
    (hopen : ∀ uri ∈ R, (env.repoOpen uri).isSome) (hnamed : ∀ uri ∈ R, env.Named uri)
    (h : PoolOf env R pool) (pkg : Str) :
    pkgFound (rpoolGetPkg env xhp pool pkg) =
      if quietMisses env xhp pkg R (pool.queue.map Repo.uri) pool.errno then
        poolBest env (repoPkg env xhp pkg) false R none else none := by
  -- every repository can be opened, so none has been dropped
  have hlist : pool.repositories = R := by
    have hleft := h.left
    rwa [List.filter_eq_self.mpr hopen,
      List.filter_eq_self.mpr fun uri huri => hopen uri (h.listed uri huri)] at hleft
  have hfinds := PoolOf.foreachBest xhp hnamed pkg (fun _ hu => hu) (fun _ => Iff.rfl)
    (Finds.nothing h (Rpool.Keeps.refl pool)) (show false = false → _ from fun _ => rfl)
  have hrepo : Finds env R pool (repoFindPkg env (findBestPkgCb env xhp pkg) pool) _ :=
    Finds.repoFindPkg (by rw [hlist]; exact hfinds)
  rw [pkgFound, rpoolGetPkg, if_pos hbest, hrepo.found]

theorem earliestBest_iff (hbest : xhp.flags.bestmatch = true)
    (hopen : ∀ uri ∈ R, (env.repoOpen uri).isSome) (hnamed : ∀ uri ∈ R, env.Named uri)
    (h : PoolOf env R pool) {pkg : Str}
    (hcmp : CmpverPreorder (OfferedBy (repoPkg env xhp pkg) R)) :
    EarliestBest pkgverLe (repoPkg env xhp pkg) R (pkgFound (rpoolGetPkg env xhp pool pkg)) ↔
      BestmatchWhen env xhp R pool pkg := by
  rw [rpoolGetPkg_bestmatch hbest hopen hnamed h, BestmatchWhen]
  cases quietMisses env xhp pkg R (pool.queue.map Repo.uri) pool.errno with
  | true =>
    simp only [if_true, or_true, iff_true]
    have hnil : EarliestBest pkgverLe (repoPkg env xhp pkg) [] none :=
      .none fun c hc => by cases hc
    exact poolBest_earliest hopen hcmp hnil
  | false =>
    simp only [Bool.false_eq_true, if_false, or_false]
    exact ⟨fun h => h.eq_none_iff.mp rfl, .none⟩

/-- A lookup by an exact pkgver or by a pattern with a name sets `errno` itself. -/
theorem quietMisses_of_requestKey {pkg : Str} (hreq : request pkg ≠ .pkgname)
    (hkey : (requestKey pkg).isSome) :
    ∀ (uris opened : List Str) (errno : Option Errno),
      quietMisses env xhp pkg uris opened errno = true := by
  intro uris
  induction uris with
  | nil => exact fun _ _ => rfl
  | cons uri uris ih =>
    intro opened errno
    rw [quietMisses]
    cases hidx : env.repoOpen uri with
    | none => exact ih _ _
    | some idx =>
      simp only [ih, Bool.and_true, Bool.or_eq_true]
      cases hd : repoPkg env xhp pkg uri with
      | some d => exact Or.inl rfl
      | none =>
        right
        rw [repoFindErrno_of_repoPkg hidx hreq hd, missErrno, if_pos hkey]
        rfl

end BestMatch

/-- The search for the best match finds the first best version of all repositories under this
condition and only then, and with the repositories in another order an equally good one. -/
theorem bestmatch_iff (env : Env) (xhp : Handle) (R : List Str) (pool : Rpool) (pkg : Str)
    (hbest : xhp.flags.bestmatch = true) (hopen : ∀ uri ∈ R, (env.repoOpen uri).isSome)
    (hnamed : ∀ uri ∈ R, env.Named uri) (h : PoolOf env R pool)
    (hint : ∀ v w, OfferedBy (repoPkg env xhp pkg) R v → OfferedBy (repoPkg env xhp pkg) R w →
      Comparable (mkversion v) (mkversion w)) :
    (EarliestBest pkgverLe (repoPkg env xhp pkg) R (pkgFound (rpoolGetPkg env xhp pool pkg)) ↔
        BestmatchWhen env xhp R pool pkg) ∧
      (BestmatchWhen env xhp R pool pkg → ∀ R' pool', R'.Perm R → PoolOf env R' pool' →
        BestmatchWhen env xhp R' pool' pkg →
          (pkgFound (rpoolGetPkg env xhp pool' pkg)).isSome =
              (pkgFound (rpoolGetPkg env xhp pool pkg)).isSome ∧
            ∀ d ∈ pkgFound (rpoolGetPkg env xhp pool pkg),
              ∀ d' ∈ pkgFound (rpoolGetPkg env xhp pool' pkg), cmpver d.pkgver d'.pkgver = 0) := by
  have hcmp := cmpverPreorder_of_comparable hint
  refine ⟨earliestBest_iff hbest hopen hnamed h hcmp, fun hwhen R' pool' hperm h' hwhen' => ?_⟩
  have hR' : ∀ uri ∈ R', uri ∈ R := fun uri hu => hperm.mem_iff.mp hu
  have hcmp' : CmpverPreorder (OfferedBy (repoPkg env xhp pkg) R') := by
    refine hcmp.mono ?_
    rintro v ⟨uri, hu, hd⟩
    exact ⟨uri, hR' uri hu, hd⟩
  have hfirst := (earliestBest_iff hbest hopen hnamed h hcmp).mpr hwhen
  have hfirst' := (earliestBest_iff hbest (fun uri hu => hopen uri (hR' uri hu))
    (fun uri hu => hnamed uri (hR' uri hu)) h' hcmp').mpr hwhen'
  obtain ⟨hsome, heq⟩ := hfirst.unique hfirst' hperm
  refine ⟨hsome, fun d hd d' hd' => ?_⟩
  obtain ⟨hle, hge⟩ := heq d hd d' hd'
  rw [pkgverLe] at hle hge
  rw [Option.mem_def] at hd hd'
  obtain ⟨c, hc, hdc⟩ := hfirst.offered hd
  obtain ⟨c', hc', hdc'⟩ := hfirst'.offered hd'
  have hswap := hcmp.swap ⟨c, hc, d, hdc, rfl⟩ ⟨c', hR' c' hc', d', hdc', rfl⟩
  omega

/-- Two repositories, of which the second one has `foo`. -/
def fooEnv : Env :=
  { repoOpen := fun uri =>
      if uri = "a".toList then some Dict.empty
      else if uri = "b".toList then
        some (Dict.empty.set "foo".toList { pkgver := "foo-1.0_1".toList })
      else none }

def fooRepos : List Str := ["a".toList, "b".toList]

def bestHandle : Handle := { flags := { bestmatch := true }, pkgdb := Dict.empty }

theorem fooEnv_named : ∀ uri ∈ fooRepos, fooEnv.Named uri := by
  intro uri huri idx hidx
  have hcases : uri = "a".toList ∨ uri = "b".toList := by simpa [fooRepos] using huri
  rcases hcases with rfl | rfl
  · obtain rfl := Option.some.inj hidx
    decide
  · obtain rfl := Option.some.inj hidx
    decide

theorem bestmatch_iff_foo :
    (EarliestBest pkgverLe (repoPkg fooEnv bestHandle "foo".toList) fooRepos
          (pkgFound (rpoolGetPkg fooEnv bestHandle { repositories := fooRepos } "foo".toList)) ↔
        BestmatchWhen fooEnv bestHandle fooRepos { repositories := fooRepos } "foo".toList) ∧
      (BestmatchWhen fooEnv bestHandle fooRepos { repositories := fooRepos } "foo".toList →
        ∀ R' pool', R'.Perm fooRepos → PoolOf fooEnv R' pool' →
        BestmatchWhen fooEnv bestHandle R' pool' "foo".toList →
          (pkgFound (rpoolGetPkg fooEnv bestHandle pool' "foo".toList)).isSome =
              (pkgFound (rpoolGetPkg fooEnv bestHandle { repositories := fooRepos }
                "foo".toList)).isSome ∧
            ∀ d ∈ pkgFound (rpoolGetPkg fooEnv bestHandle { repositories := fooRepos }
                "foo".toList),
              ∀ d' ∈ pkgFound (rpoolGetPkg fooEnv bestHandle pool' "foo".toList),
                cmpver d.pkgver d'.pkgver = 0) :=
  bestmatch_iff fooEnv bestHandle fooRepos { repositories := fooRepos } "foo".toList rfl (by decide)
    fooEnv_named (PoolOf.fresh fooEnv fooRepos) fun v w hv hw => by
      have hsmall : ∀ uri ∈ fooRepos, ∀ d ∈ repoPkg fooEnv bestHandle "foo".toList uri,
          SmallVersion d.pkgver := by decide
      obtain ⟨uri, hu, d, hd, rfl⟩ := hv
      obtain ⟨uri', hu', d', hd', rfl⟩ := hw
      exact comparable_of_small (hsmall uri hu d hd) (hsmall uri' hu' d' hd')

/-- With an error left in `errno` the package of the second repository is not found. -/
theorem stale_errno_hides_package :
    (repoPkg fooEnv bestHandle "foo".toList "b".toList).isSome ∧
      PoolOf fooEnv fooRepos { repositories := fooRepos, errno := some .eacces } ∧
      (rpoolGetPkg fooEnv bestHandle { repositories := fooRepos, errno := some .eacces }
        "foo".toList).2 = none :=
  ⟨by decide, (PoolOf.fresh fooEnv fooRepos).errno _, by decide⟩

/-! ### Finding a repository by its URL -/

/-- Filling an empty queue goes on to the end of the list if the repository can be opened. -/
theorem reggetOpen_open {env : Env} {url : Str} {idx : Dict Str PkgDict}
    (hidx : env.repoOpen url = some idx) :
    ∀ {uris : List Str} {pool : Rpool}, (reggetOpen env url uris pool).2 = true ∧
      ((∃ repo ∈ (reggetOpen env url uris pool).1.queue, repo.uri = url) ↔
        url ∈ uris ∨ ∃ repo ∈ pool.queue, repo.uri = url) := by
  intro uris
  induction uris with
  | nil => exact fun {pool} => ⟨rfl, by simp [reggetOpen]⟩
  | cons repouri uris ih =>
    intro pool
    rw [reggetOpen]
    by_cases hne : repouri ≠ url
    · rw [if_pos hne]
      obtain ⟨htrue, hiff⟩ := @ih pool
      refine ⟨htrue, ?_⟩
      rw [hiff, List.mem_cons, or_iff_right (Ne.symm hne)]
    · obtain rfl := not_not.mp hne
      rw [if_neg hne, hidx]
      obtain ⟨htrue, hiff⟩ := @ih { pool with
        errno := env.openErrno repouri pool.errno, queue := pool.queue ++ [⟨repouri, idx⟩] }
      refine ⟨htrue, ?_⟩
      simp only at hiff ⊢
      rw [hiff]
      simp

/-- The search of the queue finds a repository if it is there. -/
theorem rpoolGetRepo_iff {pool : Rpool} {url : Str} :
    (∃ i repo, rpoolGetRepo pool url = some i ∧ pool.queue[i]? = some repo ∧ repo.uri = url) ↔
      ∃ repo ∈ pool.queue, repo.uri = url := by
  constructor
  · rintro ⟨i, repo, -, hi, hu⟩
    exact ⟨repo, List.mem_of_getElem? hi, hu⟩
  · rintro ⟨repo, hmem, hu⟩
    have hsome : (rpoolGetRepo pool url).isSome := by
      rw [rpoolGetRepo, List.findIdx?_isSome, List.any_eq_true]
      exact ⟨repo, hmem, by simpa using hu⟩
    obtain ⟨i, hi⟩ := Option.isSome_iff_exists.mp hsome
    obtain ⟨hlt, hu', -⟩ := List.findIdx?_eq_some_iff_getElem.mp hi
    exact ⟨i, pool.queue[i], hi, List.getElem?_eq_getElem hlt, by simpa using hu'⟩

/-- **A repository of the list that can be opened is found** if no repository is open yet, or it
is open itself, and only then; otherwise the lookup of a repolocked package finds nothing. -/
theorem reggetRepo_iff (env : Env) (pool : Rpool) (url : Str) (hurl : url ∈ pool.repositories)
    (hopen : (env.repoOpen url).isSome) :
    ((∃ i repo, (reggetRepo env pool url).2 = some i ∧
          (reggetRepo env pool url).1.queue[i]? = some repo ∧ repo.uri = url) ↔
        pool.queue = [] ∨ ∃ repo ∈ pool.queue, repo.uri = url) ∧
      (¬ (pool.queue = [] ∨ ∃ repo ∈ pool.queue, repo.uri = url) →
        ∀ (st : State) (pkg : Str), st.pool = pool → (st.repoGetPkg env url pkg).2 = none) := by
  have hfull : pool.queue ≠ [] → reggetRepo env pool url = (pool, rpoolGetRepo pool url) :=
    fun h => if_neg h
  refine ⟨?_, fun hnot st pkg hst => ?_⟩
  · by_cases hempty : pool.queue = []
    · simp only [hempty, true_or, iff_true]
      obtain ⟨idx, hidx⟩ := Option.isSome_iff_exists.mp hopen
      obtain ⟨htrue, hiff⟩ := @reggetOpen_open env url idx hidx pool.repositories pool
      rw [reggetRepo, if_pos hempty]
      generalize reggetOpen env url pool.repositories pool = r at htrue hiff
      obtain ⟨pool', _⟩ := r
      obtain rfl := htrue
      exact rpoolGetRepo_iff.mpr (hiff.mpr (Or.inl hurl))
    · rw [hfull hempty, or_iff_right hempty]
      exact rpoolGetRepo_iff
  · rw [not_or] at hnot
    have hnone : rpoolGetRepo pool url = none := by
      rw [rpoolGetRepo, List.findIdx?_eq_none_iff]
      intro repo hmem
      exact decide_eq_false fun hu => hnot.2 ⟨repo, hmem, hu⟩
    rw [State.repoGetPkg, hst, hfull hnot.1, hnone]

theorem reggetRepo_iff_foo :
    ((∃ i repo, (reggetRepo fooEnv { repositories := fooRepos } "b".toList).2 = some i ∧
          (reggetRepo fooEnv { repositories := fooRepos } "b".toList).1.queue[i]? = some repo ∧
            repo.uri = "b".toList) ↔
        ([] : List Repo) = [] ∨ ∃ repo ∈ ([] : List Repo), repo.uri = "b".toList) ∧
      (¬ (([] : List Repo) = [] ∨ ∃ repo ∈ ([] : List Repo), repo.uri = "b".toList) →
        ∀ (st : State) (pkg : Str), st.pool = { repositories := fooRepos } →
          (st.repoGetPkg fooEnv "b".toList pkg).2 = none) :=
  reggetRepo_iff fooEnv { repositories := fooRepos } "b".toList (by decide) (by decide)

/-- The pool after `foo` has been found in the first repository of the list. -/
def fooFound : Rpool :=
  (rpoolGetPkg fooEnv { pkgdb := Dict.empty } { repositories := ["b".toList, "a".toList] }
    "foo".toList).1

/-- The other repository of the list can be opened and is not found any more. -/
theorem other_repo_not_found :
    "a".toList ∈ fooFound.repositories ∧ (fooEnv.repoOpen "a".toList).isSome ∧
      (reggetRepo fooEnv fooFound "a".toList).2 = none ∧
      (reggetRepo fooEnv { repositories := ["b".toList, "a".toList] } "a".toList).2 = some 0 := by
  decide

end Flappy
