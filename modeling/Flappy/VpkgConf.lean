/-
Configured virtual packages (`flappy_repo_get_pkg` with `virtualpkg` lines).

A line gives one version of a virtual package to one provider, and the last
line for a version counts.  `flappy_find_virtualpkg_in_conf` has a branch for
every form of request, but it looks the map up under the request itself, and
the keys of the map are names.

* `configuredProvider` — what the lines say;
* `storeVirtualpkgs_eq_some_iff` — the map that the lines fill, if no name comes twice or the
  variable `alloc`, which is then read without having been set, holds false;
* `repoGetPkg_honours_iff` — the requests for which `flappy_repo_get_pkg` returns what
  they say.
-/
import Flappy.Vpkgs
import Mathlib.Data.List.Induction

open CStr

namespace Flappy

/-! ### The lines -/

/-- What a line stores: a name, a version and a provider. -/
def lineEntry (val : Str) : Option ((Str × Str) × Str) :=
  match strchr ':' val with
  | none => none
  | some (_, []) => none
  | some (vpkg, provider) => some (vpkgNameVersion vpkg, provider)

/-- A line with a virtual package whose name is a name for the library. -/
def ValidLine (val : Str) : Prop :=
  ∃ e, lineEntry val = some e ∧ request e.1.1 = .pkgname ∧ e.1.1.length < nameSize

/-- The provider of a version of a virtual package: the last line for it counts. -/
def configuredProvider (vals : List Str) (vpkgver : Str) : Option Str :=
  vals.reverse.findSome? fun val =>
    (lineEntry val).bind fun e => if e.1.2 = vpkgver then some e.2 else none

/-- The configured virtual package satisfies a request. -/
def ConfSatisfies (vpkgver str : Str) : Prop :=
  match request str with
  | .pattern => pkgpatternMatch vpkgver str = true
  | .pkgver => vpkgver = str
  | .pkgname => pkgName vpkgver = some str

instance (vpkgver str : Str) : Decidable (ConfSatisfies vpkgver str) :=
  match h : request str with
  | .pattern => decidable_of_iff (pkgpatternMatch vpkgver str = true) (by rw [ConfSatisfies, h])
  | .pkgver => decidable_of_iff (vpkgver = str) (by rw [ConfSatisfies, h])
  | .pkgname => decidable_of_iff (pkgName vpkgver = some str) (by rw [ConfSatisfies, h])

/-- Some version of the virtual package is configured. -/
def IsConfigured (vals : List Str) (n : Str) : Prop :=
  ∃ v p, configuredProvider vals v = some p ∧ pkgName v = some n

/-- The virtual packages that the lines name, line by line. -/
def vpkgNames (vals : List Str) : List Str := (vals.filterMap lineEntry).map fun e => e.1.1

/-- The map that the lines fill. -/
def confMap (vals : List Str) : VpkgMap :=
  (vals.filterMap lineEntry).foldl (fun d e => setProvider d e.1.1 e.1.2 e.2) Dict.empty

theorem vpkgNames_append (vals : List Str) {val : Str} {e : (Str × Str) × Str}
    (he : lineEntry val = some e) : vpkgNames (vals ++ [val]) = vpkgNames vals ++ [e.1.1] := by
  rw [vpkgNames, List.filterMap_append, List.map_append, List.filterMap_cons_some he]
  rfl

theorem confMap_append (vals : List Str) {val : Str} {e : (Str × Str) × Str}
    (he : lineEntry val = some e) :
    confMap (vals ++ [val]) = setProvider (confMap vals) e.1.1 e.1.2 e.2 := by
  rw [confMap, List.filterMap_append, List.filterMap_cons_some he, List.filterMap_nil,
    List.foldl_concat]
  rfl

theorem confMap_get_isSome (vals : List Str) (n : Str) :
    ((confMap vals).get n).isSome ↔ n ∈ vpkgNames vals := by
  induction vals using List.reverseRecOn with
  | nil => simp [confMap, vpkgNames, Dict.get, Dict.empty]
  | append_singleton vals val ih =>
    cases he : lineEntry val with
    | none =>
      have hskip : (vals ++ [val]).filterMap lineEntry = vals.filterMap lineEntry := by
        rw [List.filterMap_append, List.filterMap_cons_none he, List.filterMap_nil, List.append_nil]
      rw [confMap, vpkgNames, hskip]
      exact ih
    | some e =>
      rw [confMap_append vals he, vpkgNames_append vals he, List.mem_append, List.mem_singleton,
        ← ih, setProvider]
      by_cases hn : n = e.1.1
      · simp [hn, Dict.get_set_self]
      · rw [Dict.get_set_ne _ _ hn]
        simp [hn]

theorem vpkgMapAdd_eq_some_iff {alloc : Bool} {d d' : VpkgMap} {n v p : Str} :
    vpkgMapAdd alloc d n v p = some d' ↔
      (alloc = true → (d.get n).isSome = false) ∧ setProvider d n v p = d' := by
  rw [vpkgMapAdd, releasesHeld]
  cases alloc <;> cases (d.get n).isSome <;> simp

theorem storeVirtualpkg_eq (alloc : Bool) (xhp : Handle) (val : Str) :
    storeVirtualpkg alloc xhp val =
      match lineEntry val with
      | none => some xhp
      | some e =>
        (vpkgMapAdd alloc xhp.vpkgd e.1.1 e.1.2 e.2).bind fun vpkgd =>
          (vpkgMapAdd alloc xhp.vpkgdConf e.1.1 e.1.2 e.2).map fun vpkgdConf =>
            { xhp with vpkgd, vpkgdConf } := by
  rw [storeVirtualpkg, lineEntry]
  cases strchr ':' val with
  | none => rfl
  | some r =>
    obtain ⟨vpkg, provider⟩ := r
    cases provider <;> rfl

theorem storeVirtualpkgs_append (alloc : Bool) (vals : List Str) (val : Str) :
    ∀ xhp, storeVirtualpkgs alloc xhp (vals ++ [val]) =
      (storeVirtualpkgs alloc xhp vals).bind fun xhp => storeVirtualpkg alloc xhp val := by
  induction vals with
  | nil =>
    intro xhp
    rw [List.nil_append, storeVirtualpkgs, storeVirtualpkgs, Option.bind_some]
    cases storeVirtualpkg alloc xhp val <;> rfl
  | cons val' vals ih =>
    intro xhp
    rw [List.cons_append, storeVirtualpkgs, storeVirtualpkgs, Option.bind_assoc]
    exact congrArg (Option.bind _) (funext ih)

/-- **Reading the lines** fills both maps alike; a name that comes twice is too much if `alloc`
is taken for true. -/
theorem storeVirtualpkgs_eq_some_iff {alloc : Bool} {start : Handle}
    (hempty : start.vpkgd = Dict.empty ∧ start.vpkgdConf = Dict.empty) {vals : List Str}
    (hvalid : ∀ val ∈ vals, (lineEntry val).isSome) {xhp : Handle} :
    storeVirtualpkgs alloc start vals = some xhp ↔ (alloc = true → (vpkgNames vals).Nodup) ∧
      { start with vpkgd := confMap vals, vpkgdConf := confMap vals } = xhp := by
  induction vals using List.reverseRecOn generalizing xhp with
  | nil =>
    have hstart : { start with vpkgd := confMap [], vpkgdConf := confMap [] } = start := by
      cases start
      obtain ⟨rfl, rfl⟩ := hempty
      rfl
    rw [storeVirtualpkgs, Option.some.injEq, hstart]
    exact (and_iff_right fun _ => List.nodup_nil).symm
  | append_singleton vals val ih =>
    rw [List.forall_mem_append] at hvalid
    obtain ⟨e, he⟩ := Option.isSome_iff_exists.mp (hvalid.2 val List.mem_cons_self)
    have hnames : (vpkgNames vals ++ [e.1.1]).Nodup ↔
        (vpkgNames vals).Nodup ∧ ((confMap vals).get e.1.1).isSome = false := by
      rw [← Bool.not_eq_true, confMap_get_isSome, ← List.concat_eq_append, List.nodup_concat,
        and_comm]
    rw [storeVirtualpkgs_append, Option.bind_eq_some_iff, vpkgNames_append vals he,
      confMap_append vals he, hnames]
    constructor
    · rintro ⟨xhp', hvals, hval⟩
      obtain ⟨hnodup, rfl⟩ := (ih hvalid.1).mp hvals
      rw [storeVirtualpkg_eq, he] at hval
      obtain ⟨vpkgd, hd, hval⟩ := Option.bind_eq_some_iff.mp hval
      obtain ⟨vpkgdConf, hc, rfl⟩ := Option.map_eq_some_iff.mp hval
      obtain ⟨hnew, rfl⟩ := vpkgMapAdd_eq_some_iff.mp hd
      obtain ⟨-, rfl⟩ := vpkgMapAdd_eq_some_iff.mp hc
      exact ⟨fun h => ⟨hnodup h, hnew h⟩, rfl⟩
    · rintro ⟨hnodup, rfl⟩
      refine ⟨_, (ih hvalid.1).mpr ⟨fun h => (hnodup h).1, rfl⟩, ?_⟩
      have hadd : vpkgMapAdd alloc (confMap vals) e.1.1 e.1.2 e.2 =
          some (setProvider (confMap vals) e.1.1 e.1.2 e.2) :=
        vpkgMapAdd_eq_some_iff.mpr ⟨fun h => (hnodup h).2, rfl⟩
      rw [storeVirtualpkg_eq, he]
      simp only [hadd, Option.bind_some, Option.map_some]

theorem ValidLine.entry {val : Str} (h : ValidLine val) : (lineEntry val).isSome := by
  obtain ⟨e, he, -⟩ := h
  rw [he]
  rfl

/-- A valid line files a version under the name of the version. -/
theorem ValidLine.name {val : Str} (h : ValidLine val) {e : (Str × Str) × Str}
    (he : lineEntry val = some e) : pkgName e.1.2 = some e.1.1 ∧ request e.1.1 = .pkgname := by
  obtain ⟨e', he', hreq, hlen⟩ := h
  obtain rfl := Option.some.inj (he.symm.trans he')
  refine ⟨?_, hreq⟩
  have hentry : ∃ vpkg, e.1 = vpkgNameVersion vpkg := by
    rw [lineEntry] at he
    split at he
    · cases he
    · cases he
    · next vpkg provider _ _ => exact ⟨vpkg, by rw [← Option.some.inj he]⟩
  obtain ⟨vpkg, hvpkg⟩ := hentry
  rw [hvpkg] at hlen ⊢
  rw [vpkgNameVersion] at hlen ⊢
  cases hn : pkgName vpkg with
  | some n => exact hn
  | none =>
    -- the version is put behind the name, and there is room for it
    simp only [hn] at hlen ⊢
    rw [List.take_of_length_le (by rw [List.length_append]; omega), pkgName_eq_some]
    exact ⟨"99999_1".toList, rfl, by decide, by decide, hlen⟩

theorem configuredProvider_append (vals : List Str) (val v : Str) :
    configuredProvider (vals ++ [val]) v =
      ((lineEntry val).bind fun e => if e.1.2 = v then some e.2 else none).or
        (configuredProvider vals v) := by
  rw [configuredProvider, List.reverse_append, List.reverse_singleton, List.singleton_append,
    List.findSome?_cons, configuredProvider]
  cases (lineEntry val).bind fun e => if e.1.2 = v then some e.2 else none <;> rfl

/-- **The map of the configuration** says what the lines say, and its keys are names. -/
theorem confMap_spec {vals : List Str} (hvalid : ∀ val ∈ vals, ValidLine val) :
    (∀ n v p, vpkgProvider (confMap vals) n v = some p ↔
        pkgName v = some n ∧ configuredProvider vals v = some p) ∧
      VpkgFilled (confMap vals) ∧ ∀ n, IsConfigured vals n → request n = .pkgname := by
  induction vals using List.reverseRecOn with
  | nil =>
    refine ⟨fun n v p => ?_, fun n => ?_, fun n => ?_⟩
    · simp [confMap, vpkgProvider, configuredProvider, Dict.get, Dict.empty]
    · simp [confMap, Dict.get, Dict.empty]
    · rintro ⟨v, p, hp, -⟩
      cases hp
  | append_singleton vals val ih =>
    obtain ⟨hprov, hfilled, hnames⟩ := ih fun val' hval' => hvalid val' (List.mem_append_left _ hval')
    have hline := hvalid val (List.mem_append_right _ List.mem_cons_self)
    obtain ⟨e, he, -⟩ := id hline
    obtain ⟨hname, hreq⟩ := hline.name he
    have hrun : confMap (vals ++ [val]) = setProvider (confMap vals) e.1.1 e.1.2 e.2 :=
      confMap_append vals he
    -- a later line for the same version takes the place of the earlier one
    have hconf : ∀ v, configuredProvider (vals ++ [val]) v =
        if e.1.2 = v then some e.2 else configuredProvider vals v := by
      intro v
      rw [configuredProvider_append, he, Option.bind_some]
      split <;> rfl
    refine ⟨fun n v p => ?_, ?_, fun n => ?_⟩
    · rw [hrun, setProvider_provider, hconf]
      by_cases hv : e.1.2 = v
      · subst hv
        by_cases hn : n = e.1.1
        · simp [hn, hname]
        · rw [if_neg fun h => hn h.1, hprov, hname, Option.some.injEq]
          simp [Ne.symm hn]
      · rw [if_neg fun h => hv h.2.symm, if_neg hv, hprov]
    · rw [hrun]
      exact hfilled.add _ _ _
    · rintro ⟨v, p, hp, hv⟩
      rw [hconf] at hp
      split at hp
      · next heq =>
        rw [← heq, hname] at hv
        exact Option.some.inj hv ▸ hreq
      · exact hnames n ⟨v, p, hp, hv⟩

/-! ### Looking a request up in a repository -/

/-- The key of the package that `flappy_repo_get_pkg` returns. -/
def repoKey (env : Env) (xhp : Handle) (pool : Rpool) (i : Nat) (pkg : Str) : Option Str :=
  (repoGetPkg env xhp pool i pkg).2.map PkgRef.key

section Honours

variable {env : Env} {xhp : Handle} {pool : Rpool} {i : Nat} {repo : Repo} {str : Str}

/-- Every package with a name can be described, so the key decides. -/
theorem repoKey_eq (env : Env) (xhp : Handle) (hi : pool.queue[i]? = some repo)
    (hkeys : Dict.NamedKeys repo.idx) (str : Str) :
    repoKey env xhp pool i str = repoFindKey env xhp repo.idx str := by
  rw [repoKey, repoGetPkg, hi]
  simp only [Rpool.describe, hi]
  cases hk : repoFindKey env xhp repo.idx str with
  | none => rfl
  | some key =>
    have hget : (repo.idx.get key).isSome := by
      rw [repoFindKey, Option.or_eq_some_iff] at hk
      rcases hk with hk | ⟨-, hk⟩
      · obtain ⟨cur, -, hcur⟩ := Option.bind_eq_some_iff.mp hk
        exact findKeyInDict_get hcur
      · exact findKeyInDict_get hk
    obtain ⟨d, hd⟩ := Option.isSome_iff_exists.mp hget
    have hname := hkeys (key, d) (Dict.mem_entries_iff.mpr hd)
    simp only [hd, Option.map_some, isDescribable, hname, Option.isSome_some, Bool.or_true,
      Option.getD_some, if_true]

/-- The package for a bare name: the provider of the first configured version, else the package
of that name. -/
def bareKey (d : VpkgMap) (idx : Dict Str PkgDict) (n : Str) : Option Str :=
  ((vpkgFirst d n).bind fun e => findKeyInDict idx e.2).or (findKeyInDict idx n)

/-- `flappy_find_virtualpkg_in_conf` knows bare names. -/
theorem virtualpkgInConf_pkgname (env : Env)
    (hname : ∀ v p, vpkgProvider xhp.vpkgdConf str v = some p → pkgName v = some str)
    (hreq : request str = .pkgname) :
    virtualpkgInConf env xhp str = (vpkgFirst xhp.vpkgdConf str).map Prod.snd := by
  rw [virtualpkgInConf, vpkgFirst, Option.map_bind]
  cases hget : xhp.vpkgdConf.get str with
  | none => rfl
  | some providers =>
    simp only [Option.bind_some, Function.comp]
    cases hentries : providers.entries with
    | nil => rfl
    | cons e entries =>
      have hn : pkgName e.1 = some str := by
        refine hname e.1 e.2 ?_
        rw [vpkgProvider, hget, Option.bind_some, ← Dict.mem_entries_iff, hentries]
        exact List.mem_cons_self
      have hpass : virtualpkgConfMatches env str e.1 = true := by
        simp [virtualpkgConfMatches, hreq, pkgVersion_isSome hn, hn]
      rw [List.find?_cons, hpass]
      rfl

/-- The configuration answers a request: with a provider that is configured for it, and with the
same one for a pattern as for its name. -/
structure Honours (vals : List Str) (idx : Dict Str PkgDict) (str : Str)
    (key : Str → Option Str) : Prop where
  provider : ∃ v p, configuredProvider vals v = some p ∧ ConfSatisfies v str ∧
    key str = findKeyInDict idx p
  same : ∀ n, pkgpatternName str = some n → IsConfigured vals n → key str = key n

/-- The request is a bare name, or the index alone leads to the right package. -/
def HonoursWhen (vals : List Str) (idx : Dict Str PkgDict) (str : Str) : Prop :=
  request str = .pkgname ∨
    (∃ v p, configuredProvider vals v = some p ∧ ConfSatisfies v str ∧
        findKeyInDict idx str = findKeyInDict idx p) ∧
      ∀ n, pkgpatternName str = some n → IsConfigured vals n →
        findKeyInDict idx str = bareKey (confMap vals) idx n

/-- **Configured providers are honoured** for bare names; for other requests the configuration
plays no part. -/
theorem honours_iff {vals : List Str} (hvalid : ∀ val ∈ vals, ValidLine val)
    (hconf : xhp.vpkgdConf = confMap vals) {idx : Dict Str PkgDict}
    (hsat : ∃ v p, configuredProvider vals v = some p ∧ ConfSatisfies v str)
    (hidx : ∀ v p, configuredProvider vals v = some p → ConfSatisfies v str →
      (findPkgInDict idx p).isSome) :
    Honours vals idx str (repoFindKey env xhp idx) ↔ HonoursWhen vals idx str := by
  obtain ⟨hprov, hfilled, hnames⟩ := confMap_spec hvalid
  rw [HonoursWhen]
  rw [← hconf] at hprov hfilled ⊢
  have hbare : ∀ n, request n = .pkgname →
      repoFindKey env xhp idx n = bareKey xhp.vpkgdConf idx n := by
    intro n hn
    rw [repoFindKey, bareKey, virtualpkgInConf_pkgname env (fun v p h => ((hprov n v p).mp h).1) hn]
    cases vpkgFirst xhp.vpkgdConf n <;> rfl
  by_cases hreq : request str = .pkgname
  · refine iff_of_true ⟨?_, fun n hn => ?_⟩ (Or.inl hreq)
    · -- the first version under the name
      obtain ⟨v, p, hp, hv⟩ := hsat
      simp only [ConfSatisfies, hreq] at hv
      have hget : (xhp.vpkgdConf.get str).isSome := by
        obtain ⟨providers, h, -⟩ := Option.bind_eq_some_iff.mp ((hprov str v p).mpr ⟨hv, hp⟩)
        rw [h]
        rfl
      obtain ⟨e, he⟩ := Option.isSome_iff_exists.mp (hfilled.first hget)
      obtain ⟨hname, hp'⟩ := (hprov str e.1 e.2).mp (vpkgFirst_provider he)
      have hsat' : ConfSatisfies e.1 str := by simpa only [ConfSatisfies, hreq] using hname
      refine ⟨e.1, e.2, hp', hsat', ?_⟩
      have hfound := hidx e.1 e.2 hp' hsat'
      rw [← findKeyInDict_isSome] at hfound
      obtain ⟨key, hkey⟩ := Option.isSome_iff_exists.mp hfound
      rw [hbare str hreq, bareKey, he, Option.bind_some, hkey, Option.some_or]
    · rw [request_of_pkgpatternName (by rw [hn]; rfl)] at hreq
      cases hreq
  · rw [or_iff_right hreq]
    -- no key of the map is a pattern or a pkgver
    have hkey : repoFindKey env xhp idx str = findKeyInDict idx str := by
      have hget : xhp.vpkgdConf.get str = none := by
        by_contra hsome
        obtain ⟨e, he⟩ := Option.isSome_iff_exists.mp
          (hfilled.first (Option.isSome_iff_ne_none.mpr hsome))
        obtain ⟨hname, hp⟩ := (hprov str e.1 e.2).mp (vpkgFirst_provider he)
        exact hreq (hnames str ⟨e.1, e.2, hp, hname⟩)
      rw [repoFindKey, virtualpkgInConf, hget, Option.bind_none, Option.bind_none, Option.none_or]
    constructor
    · rintro ⟨⟨v, p, hp, hv, hfound⟩, hsame⟩
      refine ⟨⟨v, p, hp, hv, hkey ▸ hfound⟩, fun n hn hc => ?_⟩
      rw [← hkey, hsame n hn hc, hbare n (hnames n hc)]
    · rintro ⟨⟨v, p, hp, hv, hfound⟩, hsame⟩
      refine ⟨⟨v, p, hp, hv, hkey.trans hfound⟩, fun n hn hc => ?_⟩
      rw [hkey, hsame n hn hc, hbare n (hnames n hc)]

end Honours

/-- The handle after the configuration has been read and the database opened. -/
def vpkgConfigured (alloc : Bool) (start : Handle) (vals : List Str) : Option Handle :=
  (storeVirtualpkgs alloc start vals).bind pkgdbMapVpkgs

/-- `pkgdb_map_names` has set the names of the packages. -/
def NamesSet (d : Dict Str PkgDict) : Prop := ∀ pkgd ∈ d.values, pkgd.pkgname.isSome

instance (d : Dict Str PkgDict) : Decidable (NamesSet d) :=
  inferInstanceAs (Decidable (∀ pkgd ∈ d.values, _))

theorem mapVpkgs_isSome : ∀ {pkgs : List PkgDict} {d : VpkgMap},
    (∀ pkgd ∈ pkgs, pkgd.pkgname.isSome) → (mapVpkgs pkgs d).isSome := by
  intro pkgs
  induction pkgs with
  | nil => exact fun _ => rfl
  | cons pkgd pkgs ih =>
    intro d h
    rw [List.forall_mem_cons] at h
    rw [mapVpkgs]
    split
    · exact ih h.2
    · next hnone =>
      rw [hnone] at h
      cases h.1
    · exact ih h.2

/-- The database leaves the map of the configuration alone. -/
theorem configured_vpkgdConf {alloc : Bool} {start xhp : Handle} {vals : List Str}
    (hempty : start.vpkgd = Dict.empty ∧ start.vpkgdConf = Dict.empty)
    (hvalid : ∀ val ∈ vals, ValidLine val) (h : vpkgConfigured alloc start vals = some xhp) :
    xhp.vpkgdConf = confMap vals := by
  obtain ⟨conf, hconf, hmap⟩ := Option.bind_eq_some_iff.mp h
  obtain ⟨-, rfl⟩ := (storeVirtualpkgs_eq_some_iff hempty fun val hval => (hvalid val hval).entry).mp
    hconf
  obtain ⟨vpkgd, -, rfl⟩ := Option.map_eq_some_iff.mp hmap
  rfl

/-- Configured virtual packages in `flappy_repo_get_pkg`: they are honoured under this condition
and only then, and the installed packages make no difference. -/
theorem repoGetPkg_honours_iff (alloc : Bool) (env : Env) (start : Handle) (vals : List Str)
    (pool : Rpool) (i : Nat) (repo : Repo) (str : Str)
    (hempty : start.vpkgd = Dict.empty ∧ start.vpkgdConf = Dict.empty)
    (hnames : NamesSet start.pkgdb) (hvalid : ∀ val ∈ vals, ValidLine val)
    (hi : pool.queue[i]? = some repo) (hkeys : Dict.NamedKeys repo.idx)
    (hsat : ∃ v p, configuredProvider vals v = some p ∧ ConfSatisfies v str)
    (hidx : ∀ v p, configuredProvider vals v = some p → ConfSatisfies v str →
      (findPkgInDict repo.idx p).isSome) :
    ((∃ xhp, vpkgConfigured alloc start vals = some xhp ∧
          Honours vals repo.idx str (repoKey env xhp pool i)) ↔
        (alloc = true → (vpkgNames vals).Nodup) ∧ HonoursWhen vals repo.idx str) ∧
      ∀ start' xhp xhp' : Handle,
        start'.vpkgd = Dict.empty ∧ start'.vpkgdConf = Dict.empty →
        vpkgConfigured alloc start vals = some xhp → vpkgConfigured alloc start' vals = some xhp' →
          repoKey env xhp' pool i str = repoKey env xhp pool i str := by
  have hlines : ∀ val ∈ vals, (lineEntry val).isSome := fun val hval => (hvalid val hval).entry
  have hiff : ∀ xhp, xhp.vpkgdConf = confMap vals →
      (Honours vals repo.idx str (repoKey env xhp pool i) ↔ HonoursWhen vals repo.idx str) := by
    intro xhp hconf
    rw [show repoKey env xhp pool i = repoFindKey env xhp repo.idx from
      funext (repoKey_eq env xhp hi hkeys)]
    exact honours_iff hvalid hconf hsat hidx
  refine ⟨⟨?_, ?_⟩, fun start' xhp xhp' hempty' h h' => ?_⟩
  · -- the lines were stored, so no name of theirs was named twice
    rintro ⟨xhp, hxhp, hhonours⟩
    refine ⟨?_, (hiff xhp (configured_vpkgdConf hempty hvalid hxhp)).mp hhonours⟩
    obtain ⟨conf, hconf, -⟩ := Option.bind_eq_some_iff.mp hxhp
    exact ((storeVirtualpkgs_eq_some_iff hempty hlines).mp hconf).1
  · rintro ⟨hnodup, hwhen⟩
    have hconf := (storeVirtualpkgs_eq_some_iff hempty hlines).mpr ⟨hnodup, rfl⟩
    obtain ⟨vpkgd, hvpkgd⟩ := Option.isSome_iff_exists.mp
      (mapVpkgs_isSome (d := confMap vals) hnames)
    have hxhp : vpkgConfigured alloc start vals =
        some { start with vpkgd, vpkgdConf := confMap vals } := by
      rw [vpkgConfigured, hconf, Option.bind_some, pkgdbMapVpkgs, hvpkgd]
      rfl
    exact ⟨_, hxhp, (hiff _ rfl).mpr hwhen⟩
  · -- the lookup reads nothing of the handle but the lines
    have hconf := configured_vpkgdConf hempty hvalid h
    have hconf' := configured_vpkgdConf hempty' hvalid h'
    rw [repoKey_eq env xhp' hi hkeys, repoKey_eq env xhp hi hkeys, repoFindKey, repoFindKey,
      virtualpkgInConf, virtualpkgInConf, hconf, hconf']

/-- The configuration of a virtual package with a version. -/
def awkLines : List Str := ["awk-0_1:gawk".toList]

def gawkRepo : Repo :=
  { uri := "r".toList, idx := Dict.empty.set "gawk".toList { pkgver := "gawk-5.3_1".toList } }

/-- The handle after the configuration has been read; nothing is installed. -/
def awkHandle : Handle :=
  (vpkgConfigured true { pkgdb := Dict.empty } awkLines).getD { pkgdb := Dict.empty }

theorem awkLines_valid : ∀ val ∈ awkLines, ValidLine val := by
  intro val hval
  rw [List.mem_singleton.mp hval]
  exact ⟨_, rfl, by decide, by decide⟩

theorem awkLines_configured {v p : Str} (h : configuredProvider awkLines v = some p) :
    v = "awk-0_1".toList ∧ p = "gawk".toList := by
  have hline : lineEntry "awk-0_1:gawk".toList =
      some (("awk".toList, "awk-0_1".toList), "gawk".toList) := by decide
  rw [configuredProvider, awkLines, List.reverse_singleton, List.findSome?_singleton, hline,
    Option.bind_some] at h
  split at h
  · next hv => exact ⟨hv.symm, (Option.some.inj h).symm⟩
  · cases h

theorem repoGetPkg_honours_iff_awk :
    ((∃ xhp, vpkgConfigured true { pkgdb := Dict.empty } awkLines = some xhp ∧
          Honours awkLines gawkRepo.idx "awk".toList
            (repoKey { repoOpen := fun _ => none } xhp { queue := [gawkRepo] } 0)) ↔
        (true = true → (vpkgNames awkLines).Nodup) ∧
          HonoursWhen awkLines gawkRepo.idx "awk".toList) ∧
      ∀ start' xhp xhp' : Handle,
        start'.vpkgd = Dict.empty ∧ start'.vpkgdConf = Dict.empty →
        vpkgConfigured true { pkgdb := Dict.empty } awkLines = some xhp →
        vpkgConfigured true start' awkLines = some xhp' →
          repoKey { repoOpen := fun _ => none } xhp' { queue := [gawkRepo] } 0 "awk".toList =
            repoKey { repoOpen := fun _ => none } xhp { queue := [gawkRepo] } 0 "awk".toList :=
  repoGetPkg_honours_iff true { repoOpen := fun _ => none } { pkgdb := Dict.empty } awkLines
    { queue := [gawkRepo] } 0 gawkRepo "awk".toList ⟨rfl, rfl⟩ (by decide) awkLines_valid rfl
    (by decide) ⟨"awk-0_1".toList, "gawk".toList, by decide, by decide⟩
    fun v p h _ => by rw [(awkLines_configured h).2]; decide

/-- The provider is configured for a pattern and is in the repository, and nothing is found.  A
second line for the name does not survive an `alloc` that is taken for true. -/
theorem pattern_not_honoured :
    configuredProvider awkLines "awk-0_1".toList = some "gawk".toList ∧
      ConfSatisfies "awk-0_1".toList "awk>=0".toList ∧
      (findPkgInDict gawkRepo.idx "gawk".toList).isSome ∧
      repoKey { repoOpen := fun _ => none } awkHandle { queue := [gawkRepo] } 0
        "awk".toList = some "gawk".toList ∧
      repoKey { repoOpen := fun _ => none } awkHandle { queue := [gawkRepo] } 0
        "awk>=0".toList = none ∧
      vpkgConfigured true { pkgdb := Dict.empty } (awkLines ++ ["awk-1_1:mawk".toList]) = none := by
  refine ⟨by decide, by decide, by decide, by decide, by decide, by rfl⟩

end Flappy
