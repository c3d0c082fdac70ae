/-
The maps of virtual packages (`lib/conf.c`, `pkgdb_map_vpkgs` of `lib/pkgdb.c`).

`vpkgd` maps the name of a virtual package to its versions, each with one
provider, and `vpkgd_conf` does the same for the configuration alone.  Both are
filled by the `virtualpkg` lines; the installed packages' `provides` go into the
first one, where the last package to provide a version is kept.

* `MapsProvides` — what the map says about the installed packages;
* `pkgdbGetVirtualpkg_sound_iff` — when the package that is found provides what was
  asked for;
* `repoGetPkg_honours_iff` — which requests a configured provider answers.
-/
import Flappy.Lookup

open CStr

namespace Flappy

/-! ### Filling the maps -/

/-- A map of virtual packages: name, version, provider. -/
abbrev VpkgMap := Dict Str (Dict Str Str)

/-- Give a version of a virtual package to a provider. -/
def setProvider (d : VpkgMap) (pkgname vpkgver provider : Str) : VpkgMap :=
  d.set pkgname (((d.get pkgname).getD Dict.empty).set vpkgver provider)

/-- Does `vpkg_map_add` release the dictionary of providers that the map holds?  It tests `alloc`
at its end, which it sets only if it has made that dictionary itself; the argument is what the
variable holds if it has not been set. -/
def releasesHeld (alloc : Bool) (d : VpkgMap) (pkgname : Str) : Bool :=
  alloc && (d.get pkgname).isSome

/-- `vpkg_map_add`; `none` if the map is left with a dictionary that has been released. -/
def vpkgMapAdd (alloc : Bool) (d : VpkgMap) (pkgname vpkgver provider : Str) : Option VpkgMap :=
  if releasesHeld alloc d pkgname then none else some (setProvider d pkgname vpkgver provider)

/-- The version a configured virtual package has if none is given. -/
def defaultVersion : Str := "-99999_1".toList

/-- The name and the version that `store_virtualpkg` reads off the text before the colon. -/
def vpkgNameVersion (val : Str) : Str × Str :=
  match pkgName val with
  | some vpkgname => (vpkgname, val)
  -- `snprintf` into a buffer of `FLAPPY_NAME_SIZE + sizeof("-99999_1")` bytes
  | none => (val, (val ++ defaultVersion).take (nameSize + defaultVersion.length))

/-- `store_virtualpkg`. -/
def storeVirtualpkg (alloc : Bool) (xhp : Handle) (val : Str) : Option Handle :=
  match strchr ':' val with
  | none => some xhp
  | some (_, []) => some xhp
  | some (vpkg, provider) =>
    let (vpkgname, vpkgver) := vpkgNameVersion vpkg
    (vpkgMapAdd alloc xhp.vpkgd vpkgname vpkgver provider).bind fun vpkgd =>
      (vpkgMapAdd alloc xhp.vpkgdConf vpkgname vpkgver provider).map fun vpkgdConf =>
        { xhp with vpkgd, vpkgdConf }

/-- The `virtualpkg` lines of the configuration. -/
def storeVirtualpkgs (alloc : Bool) : Handle → List Str → Option Handle
  | xhp, [] => some xhp
  | xhp, val :: vals =>
    (storeVirtualpkg alloc xhp val).bind fun xhp => storeVirtualpkgs alloc xhp vals

/-- The inner loop of `pkgdb_map_vpkgs`: one element of `provides`. -/
def mapVpkg (pkgname : Str) (vpkgd : VpkgMap) (vpkg : Str) : VpkgMap :=
  match pkgName vpkg with
  | none => vpkgd
  | some vpkgname => setProvider vpkgd vpkgname vpkg pkgname

/-- The outer loop of `pkgdb_map_vpkgs`; `none` is a failed assertion. -/
def mapVpkgs : List PkgDict → VpkgMap → Option VpkgMap
  | [], vpkgd => some vpkgd
  | pkgd :: pkgs, vpkgd =>
    match pkgd.provides.getD [], pkgd.pkgname with
    | [], _ => mapVpkgs pkgs vpkgd
    | _ :: _, none => none
    | vpkg :: provides, some pkgname =>
      mapVpkgs pkgs ((vpkg :: provides).foldl (mapVpkg pkgname) vpkgd)

/-- `pkgdb_map_vpkgs`. -/
def pkgdbMapVpkgs (xhp : Handle) : Option Handle :=
  (mapVpkgs xhp.pkgdb.values xhp.vpkgd).map fun vpkgd => { xhp with vpkgd }

/-- What the map says under a name and a version. -/
def vpkgProvider (d : VpkgMap) (pkgname vpkgver : Str) : Option Str :=
  (d.get pkgname).bind fun providers => providers.get vpkgver

theorem setProvider_provider (d : VpkgMap) (n v p n' v' : Str) :
    vpkgProvider (setProvider d n v p) n' v' =
      if n' = n ∧ v' = v then some p else vpkgProvider d n' v' := by
  rw [vpkgProvider, vpkgProvider, setProvider]
  by_cases hn : n' = n
  · subst hn
    rw [Dict.get_set_self, Option.bind_some]
    by_cases hv : v' = v
    · subst hv
      rw [Dict.get_set_self, if_pos ⟨rfl, rfl⟩]
    · rw [Dict.get_set_ne _ _ hv, if_neg fun h => hv h.2]
      cases d.get n' <;> simp [Dict.get, Dict.empty]
  · rw [Dict.get_set_ne _ _ hn, if_neg fun h => hn h.1]

/-- Under every name that the map has there is some version. -/
def VpkgFilled (d : VpkgMap) : Prop := ∀ n, d.get n ≠ some Dict.empty

theorem VpkgFilled.add {d : VpkgMap} (h : VpkgFilled d) (n v p : Str) :
    VpkgFilled (setProvider d n v p) := by
  intro n' hn'
  rw [setProvider] at hn'
  by_cases hn : n' = n
  · subst hn
    rw [Dict.get_set_self, Option.some.injEq, Dict.eq_empty_iff] at hn'
    exact hn' v ((Dict.mem_keys_set _ _ _).mpr (Or.inr rfl))
  · rw [Dict.get_set_ne _ _ hn] at hn'
    exact h n' hn'

/-- The first version under a name. -/
def vpkgFirst (d : VpkgMap) (n : Str) : Option (Str × Str) :=
  (d.get n).bind fun providers => providers.entries.head?

theorem vpkgFirst_provider {d : VpkgMap} {n : Str} {e : Str × Str} (h : vpkgFirst d n = some e) :
    vpkgProvider d n e.1 = some e.2 := by
  obtain ⟨providers, hget, hhead⟩ := Option.bind_eq_some_iff.mp h
  rw [vpkgProvider, hget, Option.bind_some, ← Dict.mem_entries_iff]
  exact List.mem_of_mem_head? hhead

theorem VpkgFilled.first {d : VpkgMap} (h : VpkgFilled d) {n : Str}
    (hn : (d.get n).isSome) : (vpkgFirst d n).isSome := by
  obtain ⟨providers, hget⟩ := Option.isSome_iff_exists.mp hn
  rw [vpkgFirst, hget, Option.bind_some, List.isSome_head?]
  intro hnil
  refine h n (hget.trans ?_)
  rw [Option.some.injEq, Dict.eq_empty_iff]
  intro k hk
  rw [Dict.keys, hnil] at hk
  cases hk

/-! ### Installed providers -/

/-- The map holds what installed packages provide, and nothing else. -/
structure MapsProvides (pkgs : List PkgDict) (d : VpkgMap) : Prop where
  name : ∀ {n v p}, vpkgProvider d n v = some p → pkgName v = some n
  provides : ∀ {n v p}, vpkgProvider d n v = some p →
    ∃ pkgd ∈ pkgs, pkgd.pkgname = some p ∧ v ∈ pkgd.provides.getD []
  filled : VpkgFilled d

theorem MapsProvides.empty (pkgs : List PkgDict) : MapsProvides pkgs Dict.empty := by
  have hnone : ∀ n v : Str, vpkgProvider Dict.empty n v = none := fun _ _ => rfl
  refine ⟨fun h => ?_, fun h => ?_, fun n h => by cases h⟩
  · rw [hnone] at h
    cases h
  · rw [hnone] at h
    cases h

theorem MapsProvides.mapVpkg {pkgs : List PkgDict} {d : VpkgMap} (h : MapsProvides pkgs d) {pkgd : PkgDict}
    (hmem : pkgd ∈ pkgs) {pkgname : Str} (hname : pkgd.pkgname = some pkgname) {vpkg : Str}
    (hv : vpkg ∈ pkgd.provides.getD []) : MapsProvides pkgs (mapVpkg pkgname d vpkg) := by
  rw [Flappy.mapVpkg]
  cases hn : pkgName vpkg with
  | none => exact h
  | some vpkgname =>
    refine ⟨?_, ?_, h.filled.add _ _ _⟩
    · intro n v p hp
      rw [setProvider_provider] at hp
      split at hp
      · next heq =>
        rw [heq.1, heq.2]
        exact hn
      · exact h.name hp
    · intro n v p hp
      rw [setProvider_provider] at hp
      split at hp
      · next heq =>
        obtain rfl := Option.some.inj hp
        exact ⟨pkgd, hmem, hname, heq.2 ▸ hv⟩
      · exact h.provides hp

theorem MapsProvides.foldl {pkgs : List PkgDict} {pkgd : PkgDict} (hmem : pkgd ∈ pkgs) {pkgname : Str}
    (hname : pkgd.pkgname = some pkgname) :
    ∀ {vpkgs : List Str} {d : VpkgMap}, MapsProvides pkgs d → (∀ v ∈ vpkgs, v ∈ pkgd.provides.getD []) →
      MapsProvides pkgs (vpkgs.foldl (Flappy.mapVpkg pkgname) d) := by
  intro vpkgs
  induction vpkgs with
  | nil => exact fun h _ => h
  | cons vpkg vpkgs ih =>
    intro d h hv
    rw [List.forall_mem_cons] at hv
    exact ih (h.mapVpkg hmem hname hv.1) hv.2

/-- What `pkgdb_map_vpkgs` records, package by package. -/
theorem MapsProvides.mapVpkgs {pkgs : List PkgDict} :
    ∀ {l : List PkgDict} {d d' : VpkgMap}, (∀ pkgd ∈ l, pkgd ∈ pkgs) → MapsProvides pkgs d →
      Flappy.mapVpkgs l d = some d' → MapsProvides pkgs d' := by
  intro l
  induction l with
  | nil =>
    intro d d' _ h hrun
    obtain rfl := Option.some.inj hrun
    exact h
  | cons pkgd l ih =>
    intro d d' hl h hrun
    rw [List.forall_mem_cons] at hl
    rw [Flappy.mapVpkgs] at hrun
    split at hrun
    · exact ih hl.2 h hrun
    · cases hrun
    · next vpkg provides pkgname hprov hname =>
      exact ih hl.2 (MapsProvides.foldl hl.1 hname h fun v hv => by rw [hprov]; exact hv) hrun

/-- A database of packages that are filed under their names, which are names for the library. -/
def NamesPlain (d : Dict Str PkgDict) : Prop :=
  ∀ e ∈ d.entries, pkgName e.2.pkgver = some e.1 ∧ e.2.pkgname = some e.1 ∧
    request e.1 = .pkgname

instance (d : Dict Str PkgDict) : Decidable (NamesPlain d) :=
  inferInstanceAs (Decidable (∀ e ∈ d.entries, _))

theorem NamesPlain.find {d : Dict Str PkgDict} (h : NamesPlain d) {pkgd : PkgDict}
    (hmem : pkgd ∈ d.values) {p : Str} (hp : pkgd.pkgname = some p) :
    d.get p = some pkgd ∧ findPkgInDict d p = d.get p := by
  obtain ⟨key, hkey⟩ := Dict.mem_values_iff.mp hmem
  obtain ⟨-, hname, hreq⟩ := h (key, pkgd) (Dict.mem_entries_iff.mpr hkey)
  obtain rfl := Option.some.inj (hp.symm.trans hname)
  exact ⟨hkey, by simp only [findPkgInDict, hreq]⟩

/-! ### What a list of `provides` satisfies -/

/-- The list satisfies a request.  A name has to be found before an entry that is no pkgver. -/
def Satisfies (provides : List Str) (str : Str) : Prop :=
  match request str with
  | .pattern => ∃ v ∈ provides, pkgpatternMatch str v = true ∨ pkgpatternMatch v str = true
  | .pkgver => str ∈ provides
  | .pkgname => ∃ pre v post, provides = pre ++ v :: post ∧ pkgName v = some str ∧
      ∀ w ∈ pre, (pkgName w).isSome

theorem matchPkgnameInArray_iff {array : List Str} {pkgname : Str} :
    matchPkgnameInArray array pkgname = true ↔
      ∃ pre v post, array = pre ++ v :: post ∧ pkgName v = some pkgname ∧
        ∀ w ∈ pre, (pkgName w).isSome := by
  induction array with
  | nil => simp [matchPkgnameInArray]
  | cons obj array ih =>
    rw [matchPkgnameInArray]
    cases hn : pkgName obj with
    | none =>
      simp only [Bool.false_eq_true, false_iff]
      rintro ⟨_ | ⟨w, pre⟩, v, post, heq, hv, hpre⟩
      · obtain ⟨rfl, -⟩ := List.cons.inj heq
        rw [hn] at hv
        cases hv
      · obtain ⟨rfl, -⟩ := List.cons.inj heq
        simpa [hn] using hpre obj List.mem_cons_self
    | some n =>
      by_cases hnp : n = pkgname
      · simp only [if_pos hnp, true_iff]
        exact ⟨[], obj, array, rfl, hnp ▸ hn, by simp⟩
      · simp only [if_neg hnp, ih]
        constructor
        · rintro ⟨pre, v, post, rfl, hv, hpre⟩
          exact ⟨obj :: pre, v, post, rfl, hv, by simpa [hn] using hpre⟩
        · rintro ⟨_ | ⟨w, pre⟩, v, post, heq, hv, hpre⟩
          · obtain ⟨rfl, -⟩ := List.cons.inj heq
            rw [hn] at hv
            exact absurd (Option.some.inj hv) hnp
          · obtain ⟨-, rfl⟩ := List.cons.inj heq
            exact ⟨pre, v, post, rfl, hv, fun w hw => hpre w (List.mem_cons_of_mem _ hw)⟩

theorem matchVirtualPkgInDict_iff {d : PkgDict} {str : Str} :
    matchVirtualPkgInDict d str = true ↔ Satisfies (d.provides.getD []) str := by
  have harray : ∀ array : List Str,
      matchVirtualPkgInArray array str = true ↔ Satisfies array str := by
    intro array
    rw [matchVirtualPkgInArray, Satisfies]
    cases request str with
    | pattern =>
      simp only [Bool.or_eq_true, matchPkgdepInArray, matchPkgpatternInArray, List.any_eq_true]
      rw [← exists_or]
      exact exists_congr fun v => by rw [← and_or_left]
    | pkgver => simp [matchStringInArray]
    | pkgname => exact matchPkgnameInArray_iff
  rw [matchVirtualPkgInDict]
  cases d.provides with
  | some provides => exact harray provides
  | none =>
    rw [Option.getD_none, ← harray, matchVirtualPkgInArray]
    cases request str <;>
      simp [matchPkgdepInArray, matchPkgpatternInArray, matchStringInArray, matchPkgnameInArray]

/-! ### Looking up what is installed -/

section Installed

variable {xhp : Handle} {str : Str}

/-- The name under which `vpkg_user_conf` looks for a request that has no pattern name. -/
def vpkgKey (str : Str) : Str := (pkgName str).getD str

/-- The package that is recorded under the first version of the virtual package. -/
def recordedProvider (xhp : Handle) (str : Str) : Option PkgDict :=
  (vpkgFirst xhp.vpkgd (vpkgKey str)).bind fun e => xhp.pkgdb.get e.2

/-- The package that is recorded for a request that has no pattern name provides it. -/
def ProviderFits (xhp : Handle) (str : Str) : Prop :=
  (pkgpatternName str).isSome ∨
    ∀ q, recordedProvider xhp str = some q → Satisfies (q.provides.getD []) str

/-- For a request that has no pattern name the first version decides. -/
theorem vpkgUserConf_first (hrec : MapsProvides xhp.pkgdb.values xhp.vpkgd)
    (hpat : pkgpatternName str = none) :
    vpkgUserConf xhp str = (vpkgFirst xhp.vpkgd (vpkgKey str)).map Prod.snd := by
  -- every version under the key passes the test
  have hfirst : ∀ how : Request, how ≠ .pattern → (how = .pkgname → vpkgKey str = str) →
      ((xhp.vpkgd.get (vpkgKey str)).bind fun providers =>
        (providers.entries.find? fun e => vpkgConfMatches how str e.1).map Prod.snd) =
          (vpkgFirst xhp.vpkgd (vpkgKey str)).map Prod.snd := by
    intro how hhow hkey
    rw [vpkgFirst, Option.map_bind]
    cases hget : xhp.vpkgd.get (vpkgKey str) with
    | none => rfl
    | some providers =>
      rw [Option.bind_some, Option.bind_some]
      simp only [Function.comp]
      cases hentries : providers.entries with
      | nil => rfl
      | cons e entries =>
        have hprov : vpkgProvider xhp.vpkgd (vpkgKey str) e.1 = some e.2 := by
          rw [vpkgProvider, hget, Option.bind_some, ← Dict.mem_entries_iff, hentries]
          exact List.mem_cons_self
        have hname := hrec.name hprov
        have hver := pkgVersion_isSome hname
        have hpass : vpkgConfMatches how str e.1 = true := by
          cases how with
          | pattern => exact absurd rfl hhow
          | pkgver => simp [vpkgConfMatches, hver]
          | pkgname =>
            rw [hkey rfl] at hname
            simp [vpkgConfMatches, hver, hname]
        rw [List.find?_cons, hpass]
        rfl
  rw [vpkgUserConf, hpat]
  cases hn : pkgName str with
  | some n =>
    have hk : vpkgKey str = n := by rw [vpkgKey, hn]; rfl
    have := hfirst .pkgver (by simp) (by simp)
    rw [hk] at this
    rw [hk, ← this]
    simp only
    cases xhp.vpkgd.get n <;> rfl
  | none =>
    have hk : vpkgKey str = str := by rw [vpkgKey, hn]; rfl
    have := hfirst .pkgname (by simp) fun _ => hk
    rw [hk] at this
    rw [hk, ← this]
    simp only
    cases xhp.vpkgd.get str <;> rfl

/-- For a pattern with a name, the provider that is chosen has a version that matches. -/
theorem vpkgUserConf_pattern (hrec : MapsProvides xhp.pkgdb.values xhp.vpkgd)
    (hpat : (pkgpatternName str).isSome) {p : Str} (h : vpkgUserConf xhp str = some p) :
    ∃ pkgd ∈ xhp.pkgdb.values, pkgd.pkgname = some p ∧
      ∃ v ∈ pkgd.provides.getD [], pkgpatternMatch v str = true := by
  obtain ⟨n, hn⟩ := Option.isSome_iff_exists.mp hpat
  rw [vpkgUserConf, hn] at h
  simp only at h
  cases hget : xhp.vpkgd.get n with
  | none => simp [hget] at h
  | some providers =>
    simp only [hget] at h
    obtain ⟨e, hfind, rfl⟩ := Option.map_eq_some_iff.mp h
    have hprov : vpkgProvider xhp.vpkgd n e.1 = some e.2 := by
      rw [vpkgProvider, hget, Option.bind_some, ← Dict.mem_entries_iff]
      exact List.mem_of_find?_eq_some hfind
    obtain ⟨pkgd, hmem, hname, hv⟩ := hrec.provides hprov
    have hver := pkgVersion_isSome (hrec.name hprov)
    refine ⟨pkgd, hmem, hname, e.1, hv, ?_⟩
    have hpass := List.find?_some hfind
    simpa [vpkgConfMatches, Option.isNone_iff_eq_none, Option.isSome_iff_ne_none.mp hver]
      using hpass

/-- **The package that is found provides what was asked for** where the recorded provider does,
and nowhere else. -/
theorem pkgdbGetVirtualpkg_sound_iff (hplain : NamesPlain xhp.pkgdb)
    (hrec : MapsProvides xhp.pkgdb.values xhp.vpkgd) :
    (∀ r, pkgdbGetVirtualpkg xhp str = some r → matchVirtualPkgInDict r str = true) ↔
      ProviderFits xhp str := by
  rw [pkgdbGetVirtualpkg, findVirtualpkgInDict]
  by_cases hpat : (pkgpatternName str).isSome
  · refine iff_of_true (fun r hr => ?_) (Or.inl hpat)
    rcases Option.or_eq_some_iff.mp hr with h | ⟨-, h⟩
    · obtain ⟨p, hp, hfind⟩ := Option.bind_eq_some_iff.mp h
      obtain ⟨pkgd, hmem, hname, v, hv, hm⟩ := vpkgUserConf_pattern hrec hpat hp
      obtain ⟨hget, heq⟩ := hplain.find hmem hname
      rw [heq, hget] at hfind
      obtain rfl := Option.some.inj hfind
      rw [matchVirtualPkgInDict_iff, Satisfies, request_of_pkgpatternName hpat]
      exact ⟨v, hv, Or.inr hm⟩
    · exact List.find?_some (p := fun pkgd => matchVirtualPkgInDict pkgd str) h
  · rw [ProviderFits, or_iff_right hpat]
    have hnone : pkgpatternName str = none := Option.not_isSome_iff_eq_none.mp hpat
    -- the lookup of the provider is the lookup of the recorded package
    have hfirst : (vpkgUserConf xhp str).bind (findPkgInDict xhp.pkgdb) =
        recordedProvider xhp str := by
      rw [vpkgUserConf_first hrec hnone, recordedProvider]
      cases he : vpkgFirst xhp.vpkgd (vpkgKey str) with
      | none => rfl
      | some e =>
        obtain ⟨pkgd, hmem, hname, -⟩ := hrec.provides (vpkgFirst_provider he)
        exact (hplain.find hmem hname).2
    rw [hfirst]
    cases hq : recordedProvider xhp str with
    | none =>
      refine iff_of_true (fun r hr => ?_) (fun q h => by cases h)
      rw [Option.none_or] at hr
      exact List.find?_some (p := fun pkgd => matchVirtualPkgInDict pkgd str) hr
    | some q =>
      simp only [Option.some_or, Option.some.injEq, forall_eq', matchVirtualPkgInDict_iff]

/-- Nothing is found only if no package provides what was asked for. -/
theorem pkgdbGetVirtualpkg_complete (h : pkgdbGetVirtualpkg xhp str = none) :
    ∀ pkgd ∈ xhp.pkgdb.values, matchVirtualPkgInDict pkgd str = false := by
  rw [pkgdbGetVirtualpkg, findVirtualpkgInDict, Option.or_eq_none_iff, List.find?_eq_none] at h
  exact fun pkgd hmem => Bool.eq_false_iff.mpr (h.2 pkgd hmem)

end Installed

/-- Virtual packages of the installed packages, with no configuration: what is found provides
the request under this condition and only then, and nothing is found only if nothing does. -/
theorem installed_virtualpkg_iff (start xhp : Handle) (str : Str) (hplain : NamesPlain start.pkgdb)
    (hempty : start.vpkgd = Dict.empty) (hmap : pkgdbMapVpkgs start = some xhp) :
    ((∀ r, pkgdbGetVirtualpkg xhp str = some r →
          r ∈ xhp.pkgdb.values ∧ matchVirtualPkgInDict r str = true) ∧
        (pkgdbGetVirtualpkg xhp str = none →
          ∀ pkgd ∈ xhp.pkgdb.values, matchVirtualPkgInDict pkgd str = false)) ↔
      ProviderFits xhp str := by
  obtain ⟨vpkgd, hrun, rfl⟩ := Option.map_eq_some_iff.mp hmap
  rw [hempty] at hrun
  have hrec := MapsProvides.mapVpkgs (fun _ h => h) (MapsProvides.empty start.pkgdb.values) hrun
  rw [← @pkgdbGetVirtualpkg_sound_iff { start with vpkgd } str hplain hrec]
  constructor
  · rintro ⟨hsound, -⟩ r hr
    exact (hsound r hr).2
  · intro hsound
    exact ⟨fun r hr => ⟨findVirtualpkgInDict_mem hr, hsound r hr⟩, pkgdbGetVirtualpkg_complete⟩

/-- Two packages that provide a virtual package in different versions. -/
def twoProviders : Handle :=
  { pkgdb := (Dict.empty.set "a".toList
        { pkgver := "a-1_1".toList, pkgname := some "a".toList,
          provides := some ["v-1_1".toList] }).set "b".toList
        { pkgver := "b-1_1".toList, pkgname := some "b".toList,
          provides := some ["v-2_1".toList] } }

/-- The database after `pkgdb_map_vpkgs`. -/
def twoProvidersMapped : Handle := (pkgdbMapVpkgs twoProviders).getD twoProviders

theorem installed_virtualpkg_iff_two :
    ((∀ r, pkgdbGetVirtualpkg twoProvidersMapped "v-1_1".toList = some r →
          r ∈ twoProvidersMapped.pkgdb.values ∧ matchVirtualPkgInDict r "v-1_1".toList = true) ∧
        (pkgdbGetVirtualpkg twoProvidersMapped "v-1_1".toList = none →
          ∀ pkgd ∈ twoProvidersMapped.pkgdb.values,
            matchVirtualPkgInDict pkgd "v-1_1".toList = false)) ↔
      ProviderFits twoProvidersMapped "v-1_1".toList :=
  installed_virtualpkg_iff twoProviders twoProvidersMapped "v-1_1".toList (by decide) rfl rfl

/-- The second version is asked for, and the package with the first one is found. -/
theorem other_version_found :
    ∃ r ∈ twoProvidersMapped.pkgdb.values,
      pkgdbGetVirtualpkg twoProvidersMapped "v-2_1".toList = some r ∧
        matchVirtualPkgInDict r "v-2_1".toList = false := by
  decide

end Flappy
