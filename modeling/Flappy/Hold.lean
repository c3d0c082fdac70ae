/-
Packages on hold.

Three places keep a package on hold from being touched: `trans_find_pkg` looks at
the `hold` of the dictionary in the repository, which has taken over that of the
installed package it consulted; `repo_deps` looks at the installed package that it
found under the name of the dependency; and the `replaces` pass looks at the
package that a pattern finds.  The first two look at the package that a *name*
leads to among the installed ones, while the package they queue is the one that
the name leads to in the repositories.

* `FindOk`, `LookOk` — the two agree about the hold at one call, at one dependency;
* `hold_safe` — if they always do, nothing on hold is ever installed, updated,
  reinstalled or replaced;
* `hold_unsafe` — a run in which they do not.
-/
import Flappy.Prepare

open CStr

namespace Flappy

/-- The package with this pkgver is installed and on hold. -/
def Held (xhp : Handle) (pkgver : Str) : Prop :=
  ∃ n p, pkgName pkgver = some n ∧ xhp.pkgdb.get n = some p ∧ p.hold = some true

/-- An entry of the transaction respects the hold of the installed package: it does not
unpack anything, and it is not a removal for the sake of another package. -/
def HoldEntry (xhp : Handle) (e : PkgDict) : Prop :=
  ∀ n p, pkgName e.pkgver = some n → xhp.pkgdb.get n = some p → p.hold = some true →
    e.transaction.unpacks = false ∧
      (e.transaction = .remove → e.replaced = some true → p.replaced = some true)

/-- The name of the package is not itself a pkgver or a pattern. -/
def PlainName (pkgver : Str) : Prop := ∀ n, pkgName pkgver = some n → request n = .pkgname

/-- What is relied on: the database is keyed by the names of its packages, and the names of
all packages are plain. -/
structure NamesOk (env : Env) (xhp : Handle) : Prop where
  keys : KeysNamed xhp
  plain : ∀ p ∈ xhp.pkgdb.values, PlainName p.pkgver
  fresh : ∀ d, env.Fresh d → PlainName d.pkgver

/-- At this call of `trans_find_pkg`, if the package found in the repositories is
installed and on hold, so is the installed package that is consulted (or its hold is known
already). -/
def FindOk (env : Env) (c : FindCall) : Prop :=
  ∀ st₁ found d, transLookup env c.st c.pkg c.force = (st₁, .ok found) →
    st₁.pool.get found.pkgRepod = some d → Held c.st.xhp d.pkgver →
    (found.pkgPkgdb.bind PkgDict.hold).isSome ∨ d.hold.isSome

/-- At this dependency, if the package found in the repositories is installed and on hold,
so is the installed package that is consulted.  A transaction that only downloads does not
ask. -/
def LookOk (env : Env) (l : Look) : Prop :=
  ∀ st₁ curpkgd ttype autoinst st₂ ref d,
    depInstalled l.st l.queued l.pkgRepod l.reqpkg = (st₁, .resolve curpkgd ttype autoinst) →
    depLookup env st₁ curpkgd l.reqpkg = (st₂, some ref) → st₂.pool.get ref = some d →
    l.st.xhp.flags.downloadOnly = false → Held l.st.xhp d.pkgver →
    (curpkgd.bind PkgDict.hold).isSome

instance (xhp : Handle) (pkgver : Str) : Decidable (Held xhp pkgver) :=
  match hn : pkgName pkgver with
  | none => isFalse fun ⟨_, _, h, _⟩ => by cases hn.symm.trans h
  | some n =>
    match hp : xhp.pkgdb.get n with
    | none => isFalse fun ⟨_, _, h, h', _⟩ => by cases hn.symm.trans h; cases hp.symm.trans h'
    | some p => decidable_of_iff (p.hold = some true) ⟨fun h => ⟨n, p, hn, hp, h⟩,
        fun ⟨_, _, h, h', hh⟩ => by cases hn.symm.trans h; cases hp.symm.trans h'; exact hh⟩

instance (pkgver : Str) : Decidable (PlainName pkgver) :=
  match hn : pkgName pkgver with
  | none => isTrue fun _ h => by cases hn.symm.trans h
  | some n => decidable_of_iff (request n = .pkgname) ⟨fun h _ h' => by cases hn.symm.trans h'; exact h,
      fun h => h n hn⟩

instance (env : Env) (c : FindCall) : Decidable (FindOk env c) :=
  match hf : transLookup env c.st c.pkg c.force with
  | (st₁, .error _) => isTrue fun _ _ _ h => by cases hf.symm.trans h
  | (st₁, .ok found) =>
    match hd : st₁.pool.get found.pkgRepod with
    | none => isTrue fun _ _ _ h h' => by cases hf.symm.trans h; cases hd.symm.trans h'
    | some d =>
      decidable_of_iff (Held c.st.xhp d.pkgver →
        (found.pkgPkgdb.bind PkgDict.hold).isSome ∨ d.hold.isSome)
        ⟨fun hok _ _ _ h h' => by cases hf.symm.trans h; cases hd.symm.trans h'; exact hok,
          fun hok => hok st₁ found d hf hd⟩

instance (env : Env) (l : Look) : Decidable (LookOk env l) :=
  match hi : depInstalled l.st l.queued l.pkgRepod l.reqpkg with
  | (st₁, .resolve curpkgd ttype autoinst) =>
    match hk : depLookup env st₁ curpkgd l.reqpkg with
    | (_, none) => isTrue fun _ _ _ _ _ _ _ h h' => by cases hi.symm.trans h; cases hk.symm.trans h'
    | (st₂, some ref) =>
      match hd : st₂.pool.get ref with
      | none => isTrue fun _ _ _ _ _ _ _ h h' h'' => by
          cases hi.symm.trans h; cases hk.symm.trans h'; cases hd.symm.trans h''
      | some d =>
        decidable_of_iff (l.st.xhp.flags.downloadOnly = false → Held l.st.xhp d.pkgver →
          (curpkgd.bind PkgDict.hold).isSome)
          ⟨fun hok _ _ _ _ _ _ _ h h' h'' => by
            cases hi.symm.trans h; cases hk.symm.trans h'; cases hd.symm.trans h''; exact hok,
            fun hok => hok st₁ curpkgd ttype autoinst st₂ ref d hi hk hd⟩
  | (_, .fail _) | (_, .skip) | (_, .missing) | (_, .configure _) =>
    isTrue fun _ _ _ _ _ _ _ h => by cases hi.symm.trans h

/-! ### Bookkeeping does not matter -/

theorem Held.congr {a b : Handle} (h : SameDb a b) {pkgver : Str} (hh : Held a pkgver) :
    Held b pkgver := by
  obtain ⟨n, p, hn, hp, hold⟩ := hh
  obtain ⟨p', hp', hc⟩ := h.symm.get_some hp
  exact ⟨n, p', hn, hp', (PkgDict.of_core_eq hc).2.2.2.1.trans hold⟩

theorem HoldEntry.congr {a b : Handle} (h : SameDb a b) {e : PkgDict} (he : HoldEntry a e) :
    HoldEntry b e := by
  intro n p hn hp hold
  obtain ⟨p', hp', hc⟩ := h.get_some hp
  obtain ⟨-, -, -, hh, -, hr⟩ := PkgDict.of_core_eq hc
  obtain ⟨hu, hrem⟩ := he n p' hn hp' (hh.trans hold)
  exact ⟨hu, fun ht hx => hr.symm.trans (hrem ht hx)⟩

/-- An entry for a package that is not on hold. -/
theorem holdEntry_of_not_held {xhp : Handle} {e : PkgDict} (h : ¬ Held xhp e.pkgver) :
    HoldEntry xhp e :=
  fun n p hn hp hold => absurd ⟨n, p, hn, hp, hold⟩ h

/-- An entry that does nothing to the package. -/
theorem holdEntry_of_idle {xhp : Handle} {e : PkgDict} (hu : e.transaction.unpacks = false)
    (hr : e.transaction ≠ .remove) : HoldEntry xhp e :=
  fun _ _ _ _ _ => ⟨hu, fun h => absurd h hr⟩

/-! ### Requests and dependencies -/

variable {env : Env} {xhp : Handle}

theorem respect_hold (p : Option PkgDict) (d : PkgDict) :
    (respect p d).hold = (p.bind PkgDict.hold).or d.hold := by
  cases p with
  | none => simp [respect]
  | some p => rfl

theorem depType_unpacks {xhp : Handle} {curpkgd : Option PkgDict} {ttype : TransType}
    (h : xhp.flags.downloadOnly = true ∨ (curpkgd.bind PkgDict.hold).isSome) :
    depType xhp curpkgd ttype = .download ∨ depType xhp curpkgd ttype = .hold := by
  rw [depType]
  by_cases hd : xhp.flags.downloadOnly = true
  · exact Or.inl (if_pos hd)
  · rw [if_neg hd]
    right
    exact if_pos (h.resolve_left hd)

/-- An entry that is on hold or only downloaded. -/
theorem holdEntry_of_kept {e : PkgDict} (h : e.transaction = .download ∨ e.transaction = .hold) :
    HoldEntry xhp e := by
  refine holdEntry_of_idle ?_ ?_
  · rcases h with h | h
    · rw [h]
      rfl
    · rw [h]
      rfl
  · rcases h with h | h
    · rw [h]
      decide
    · rw [h]
      decide

/-- The entries of a transaction: the hold is respected, and the names are plain. -/
def HoldOk (xhp : Handle) (e : PkgDict) : Prop := HoldEntry xhp e ∧ PlainName e.pkgver

/-- Requests without force and dependencies respect the hold of installed packages. -/
theorem holdOk_rule (hn : NamesOk env xhp) :
    DictRule env xhp false (FindOk env) (LookOk env) (fun d => PlainName d.pkgver)
      (HoldOk xhp) where
  fresh hf := hn.fresh _ hf
  evolves hd h := h.pkgver.symm ▸ hd
  runDepends _ h := h
  installed {xhp' pkgd ttype pkgname} autoinst hdb hp ht _ := by
    have hkeys := hn.keys.congr hdb
    constructor
    · intro n p hname hget hold
      refine ⟨?_, fun _ hrep => ?_⟩
      · show ttype.unpacks = false
        rcases ht with rfl | rfl
        · rfl
        · rfl
      · -- the entry is a copy of the installed package
        obtain ⟨p', hp', hc⟩ := hdb.get_some (hkeys.get hp hname)
        obtain rfl := Option.some.inj (hget.symm.trans hp')
        exact (PkgDict.of_core_eq hc).2.2.2.2.2.trans hrep
    · intro n hname
      obtain ⟨p', hp', hc⟩ := hdb.get_some (hkeys.get hp hname)
      have hver := (PkgDict.of_core_eq hc).1
      exact hn.plain p' (Dict.mem_values_of_get hp') n (hver ▸ hname)
  found _ _ _ _ _ hp := by
    rw [respect_pkgver]
    exact hp
  queued {c st₁ found d ttype state pkgname} hf hok hdb hfound hd hp _ _ := by
    have hplain : PlainName (respect found.pkgPkgdb d).pkgver := by
      rw [respect_pkgver]
      exact hp
    refine ⟨?_, hplain⟩
    have hforce : c.force = false := by simpa using hf
    by_cases hheld : Held xhp (respect found.pkgPkgdb d).pkgver
    · -- the hold has reached the dictionary
      rw [respect_pkgver] at hheld
      have hhold : (respect found.pkgPkgdb d).hold.isSome := by
        rw [respect_hold, Option.isSome_or, Bool.or_eq_true]
        exact hok st₁ found d hfound hd (hheld.congr hdb)
      refine holdEntry_of_kept (Or.inr ?_)
      show transType ttype state (respect found.pkgPkgdb d) c.force = .hold
      rw [transType, if_pos ⟨hforce, hhold⟩]
    · exact holdEntry_of_not_held hheld
  resolved {l xhp' st₁ st₂ curpkgd ttype autoinst ref d d' pkgname} hok hl hdb h₁ h₂ hd hev hp
      _ := by
    refine ⟨?_, hp⟩
    by_cases hheld : Held xhp d'.pkgver
    · -- the installed package that was consulted is on hold
      have hheld' : Held l.st.xhp d.pkgver := by
        have := hheld.congr hl
        rwa [hev.pkgver] at this
      refine holdEntry_of_kept (depType_unpacks ?_)
      rw [hdb.downloadOnly, ← hl.downloadOnly]
      by_cases hdl : l.st.xhp.flags.downloadOnly = true
      · exact Or.inl hdl
      · exact Or.inr (hok st₁ curpkgd ttype autoinst st₂ ref d h₁ h₂ hd
          (Bool.eq_false_iff.mpr hdl) hheld')
    · exact holdEntry_of_not_held hheld

/-! ### The `replaces` pass -/

/-- The invariant of the pass, for the array it works on. -/
def HoldArray (xhp : Handle) (pkgs : List PkgDict) : Prop := ∀ e ∈ pkgs, HoldOk xhp e

/-- A package that a pattern finds is not on hold under its name. -/
theorem FindsReplaced.not_held {pkgs : List PkgDict} {pattern n : Str} {instd : PkgDict}
    {inArray : Bool} (hf : FindsReplaced xhp pkgs pattern instd inArray n)
    (hkeys : KeysNamed xhp) (h : HoldArray xhp pkgs) {p : PkgDict}
    (hp : xhp.pkgdb.get n = some p) : p.hold ≠ some true := by
  cases inArray with
  | false =>
    have hget := hkeys.get (mem_of_replacedCandidate hf.candidate) hf.name
    obtain rfl := Option.some.inj (hget.symm.trans hp)
    exact hf.not_hold
  | true =>
    intro hold
    obtain ⟨hfind, hinst⟩ := find?_of_replacedCandidate hf.candidate
    obtain ⟨hu, -⟩ := (h instd (List.mem_of_find?_eq_some hfind)).1 n p hf.name hp hold
    rw [hinst] at hu
    cases hu

/-- The name of a package that a pattern finds is plain. -/
theorem FindsReplaced.plain {pkgs : List PkgDict} {pattern n : Str} {instd : PkgDict}
    {inArray : Bool} (hf : FindsReplaced xhp pkgs pattern instd inArray n)
    (hplain : ∀ p ∈ xhp.pkgdb.values, PlainName p.pkgver) (h : HoldArray xhp pkgs) :
    PlainName instd.pkgver := by
  cases inArray with
  | false => exact hplain instd (mem_of_replacedCandidate hf.candidate)
  | true =>
    exact (h instd (List.mem_of_find?_eq_some (find?_of_replacedCandidate hf.candidate).1)).2

/-- A decision about a pattern keeps the invariant. -/
theorem HoldArray.applyReplace (hkeys : KeysNamed xhp)
    (hplain : ∀ p ∈ xhp.pkgdb.values, PlainName p.pkgver) {pkgs : List PkgDict} {pos : Nat}
    {obj : PkgDict} {pattern : Str} (h : HoldArray xhp pkgs) (hobj : pkgs[pos]? = some obj) :
    HoldArray xhp (applyReplace pkgs pos obj pattern (replaceAction xhp pkgs obj pattern)).1 := by
  intro x hx
  rcases mem_applyReplace hobj hx with hx | ⟨rfl, -⟩ | ⟨instd, inArray, n, hf, y, hver, hy⟩
  · exact h x hx
  · exact h obj (List.mem_of_getElem? hobj)
  · -- the entry that was marked has the name of the package that was found
    have hinst := hf.plain hplain h
    have hname : pkgName x.pkgver = some n := by
      have hpkgver : (dropAutomaticInstall x).pkgver =
          (dropAutomaticInstall (markReplaced y)).pkgver := congrArg PkgDict.pkgver hver
      rw [show x.pkgver = y.pkgver from hpkgver]
      rcases hy with rfl | hy
      · exact hf.name
      · have hm := List.find?_some hy
        rw [matchesRequest, if_neg (by simp), hinst n hf.name] at hm
        exact of_decide_eq_true hm
    refine ⟨fun n' p hn' hp hold => ?_, fun n' hn' => ?_⟩
    · obtain rfl := Option.some.inj (hname.symm.trans hn')
      exact absurd hold (hf.not_held hkeys h hp)
    · obtain rfl := Option.some.inj (hname.symm.trans hn')
      exact hinst n hf.name

/-! ### Every run -/

/-- **Hold safety.**  Take any requests without force.  If every lookup that leads, in the
repositories, to a package that is installed and on hold has consulted an installed package
with a hold, then in every state (after the requests, after the dependencies have been
resolved, during the `replaces` pass, and when the transaction is prepared) no entry for a
package on hold unpacks anything or replaces it. -/
theorem hold_safe (env : Env) (orphansOf : Handle → Str → Option (List Str)) (xhp : Handle)
    (repositories : List Str) (reqs : List Req) (s : Session)
    (hs : s = (Session.start xhp repositories).requests env orphansOf reqs)
    (hn : NamesOk env xhp) (hreqs : ∀ r ∈ reqs, r.unforced = true)
    (hfind : ∀ c ∈ s.calls, FindOk env c)
    (hlook : ∀ l ∈ (prepareDeps env s.st).2.1, LookOk env l) :
    (∀ e ∈ s.st.packages, HoldEntry xhp e) ∧
      (∀ e ∈ (prepareDeps env s.st).1.packages, HoldEntry xhp e) ∧
      (∀ n, ∀ e ∈ (Walk.run (prepareDeps env s.st).1.xhp n
        { pkgs := (prepareDeps env s.st).1.packages }).pkgs, HoldEntry xhp e) ∧
      ∀ stats fuel st' rv, transactionPrepare env stats fuel s.st = some (st', rv) →
        ∀ e ∈ st'.packages, HoldEntry xhp e := by
  obtain ⟨hst, hdeps⟩ := (holdOk_rule hn).prepared orphansOf repositories hs
    (fun r hr hu => by rw [hreqs r hr] at hu; cases hu) hfind hlook
  -- the `replaces` pass works with the database as it is now
  have hplain : ∀ p ∈ (prepareDeps env s.st).1.xhp.pkgdb.values, PlainName p.pkgver := by
    intro p hp
    obtain ⟨k, hk⟩ := Dict.mem_values_iff.mp hp
    obtain ⟨p', hp', hc⟩ := hdeps.db.get_some hk
    exact (PkgDict.of_core_eq hc).1 ▸ hn.plain p' (Dict.mem_values_of_get hp')
  have hwalk : ∀ n, HoldArray (prepareDeps env s.st).1.xhp (Walk.run (prepareDeps env s.st).1.xhp n
      { pkgs := (prepareDeps env s.st).1.packages }).pkgs := fun n =>
    Walk.run_inv (fun _ _ _ _ h hobj => h.applyReplace (hn.keys.congr hdeps.db) hplain hobj) n _
      fun e he => ⟨(hdeps.entries e he).1.congr hdeps.db, (hdeps.entries e he).2⟩
  have hwalk' : ∀ n, ∀ e ∈ (Walk.run (prepareDeps env s.st).1.xhp n
      { pkgs := (prepareDeps env s.st).1.packages }).pkgs, HoldEntry xhp e := fun n e he =>
    (hwalk n e he).1.congr hdeps.db.symm
  refine ⟨fun e he => (hst.entries e he).1, fun e he => (hdeps.entries e he).1, hwalk', ?_⟩
  intro stats fuel st' rv hprep e he
  rcases transactionPrepare_packages hprep with h | h | h
  · rw [h] at he
    exact (hdeps.entries e he).1
  · rw [h] at he
    exact hwalk' fuel e he
  · rw [h] at he
    cases he

/-- A repository: `a` needs the virtual package `v`, which the new version of `c` provides;
`b` needs `d`. -/
def holdRepo : Dict Str PkgDict :=
  ⟨[("a".toList, { pkgver := "a-1_1".toList, runDepends := some ["v>=0".toList], runDependsId := 1 }),
    ("b".toList, { pkgver := "b-1_1".toList, runDepends := some ["d>=0".toList], runDependsId := 2 }),
    ("c".toList, { pkgver := "c-2_1".toList, provides := some ["v-1_1".toList] }),
    ("d".toList, { pkgver := "d-1_1".toList })], by decide⟩

def holdEnv : Env := { repoOpen := fun uri => if uri = "r".toList then some holdRepo else none }

/-- An old version of `c` is installed and on hold. -/
def holdDemo : Handle :=
  { pkgdb := ⟨[("c".toList, { pkgver := "c-1_1".toList, pkgname := some "c".toList
                              repository := some "r".toList, state := some .installed
                              hold := some true })], by decide⟩ }

theorem namesOk_holdDemo : NamesOk holdEnv holdDemo := by
  refine ⟨by decide, by decide, ?_⟩
  rintro d ⟨uri, idx, h, hd⟩
  have hall : ∀ d ∈ holdRepo.values, PlainName d.pkgver := by decide
  simp only [holdEnv] at h
  split at h
  · obtain rfl := Option.some.inj h
    exact hall d hd
  · cases h

/-- The session of requests for `pkgs`, and no orphans. -/
def holdSession (pkgs : List Str) : Session :=
  (Session.start holdDemo ["r".toList]).requests holdEnv (fun _ _ => none)
    (pkgs.map fun pkg => .install pkg false)

/-- The entries of the prepared transaction, and what the preparation returns. -/
def holdPrepared (pkgs : List Str) : Option (List (Str × TransType) × Rv) :=
  (transactionPrepare holdEnv (fun _ => .ok) 100 (holdSession pkgs).st).map fun r =>
    (r.1.packages.map fun e => (e.pkgver, e.transaction), r.2)

/-- Asked for by its name, `c` is kept back, and `b` is installed with its dependency. -/
theorem hold_safe_holdDemo :
    holdPrepared ["c".toList, "b".toList] =
        some ([("c-2_1".toList, .hold), ("d-1_1".toList, .install), ("b-1_1".toList, .install)],
          .ok) ∧
      ∀ stats fuel st' rv,
        transactionPrepare holdEnv stats fuel (holdSession ["c".toList, "b".toList]).st =
          some (st', rv) → ∀ e ∈ st'.packages, HoldEntry holdDemo e :=
  ⟨by decide +kernel,
    (hold_safe holdEnv (fun _ _ => none) holdDemo ["r".toList] _ _ rfl namesOk_holdDemo
      (by decide +kernel) (by decide +kernel) (by decide +kernel)).2.2.2⟩

/-- Reached as the provider of a virtual dependency, the package on hold is installed over:
nothing installed answers to `v`, so no hold is seen. -/
theorem hold_unsafe :
    NamesOk holdEnv holdDemo ∧ Held holdDemo "c-2_1".toList ∧
      holdPrepared ["a".toList] =
        some ([("c-2_1".toList, .install), ("a-1_1".toList, .install)], .ok) ∧
      ¬ ∀ stats fuel st' rv,
        transactionPrepare holdEnv stats fuel (holdSession ["a".toList]).st = some (st', rv) →
          ∀ e ∈ st'.packages, HoldEntry holdDemo e := by
  refine ⟨namesOk_holdDemo, by decide, by decide +kernel, fun h => ?_⟩
  have hrun : (transactionPrepare holdEnv (fun _ => .ok) 100 (holdSession ["a".toList]).st).map
      (fun r => r.1.packages.any fun e =>
        e.pkgver = "c-2_1".toList ∧ e.transaction = .install) = some true := by
    decide +kernel
  obtain ⟨⟨st', rv⟩, hprep, hany⟩ := Option.map_eq_some_iff.mp hrun
  obtain ⟨e, he, hc⟩ := List.any_eq_true.mp hany
  obtain ⟨hver, htype⟩ := of_decide_eq_true hc
  obtain ⟨p, hp, hold⟩ : ∃ p, holdDemo.pkgdb.get "c".toList = some p ∧ p.hold = some true :=
    ⟨_, rfl, rfl⟩
  have hname : pkgName e.pkgver = some "c".toList := by
    rw [hver]
    decide
  obtain ⟨hu, -⟩ := h _ _ st' rv hprep e he _ p hname hp hold
  rw [htype] at hu
  cases hu

end Flappy
