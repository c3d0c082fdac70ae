/-
The full dependency tree of an installed package (`lib/package_fulldeptree.c`,
with `rpool` false).

The source walks the dependencies depth first.  A package that it meets for the
first time gets an *item* in a table keyed by package names, and goes to the head
of the result when its dependencies are done; the package it started with does
not.  An item that it meets again is added to the result if it is not there yet.

* `TreeOk`, `Grows`, `Ordered` — what the walk keeps, what it leaves done behind it, and
  the order of the result while some packages are still being walked;
* `pkgdbGetPkgFulldeptree_order` — the walk ends; if no package needs itself, the result holds
  the transitive dependencies of the package, each once and before its own dependencies;
* `DeptreeInput.fulldeptree` — where no dependency is passed over, they are all of them.
-/
import Flappy.Resolve
import Mathlib.Logic.Relation
import Mathlib.Data.List.Perm.Subperm
import Mathlib.Data.Set.Insert

open CStr

namespace Flappy

/-! ### The walk -/

/-- `struct item`, without the key and the array nothing reads; `dbase` holds keys. -/
structure DepItem where
  pkgver : Str
  dbase : List Str := []
deriving DecidableEq, Repr

/-- The static variables `items` and `result`. -/
structure DepTree where
  items : Dict Str DepItem := Dict.empty
  result : List Str := []

/-- `addItem`, for a name that has no item. -/
def DepTree.addItem (t : DepTree) (pkgn pkgver : Str) : DepTree :=
  { t with items := t.items.set pkgn { pkgver } }

/-- `addDepn`: the item `xitem` gets `item` in its list. -/
def DepTree.addDepn (t : DepTree) (item xitem : Str) : DepTree :=
  { t with items := t.items.modify xitem fun x => { x with dbase := item :: x.dbase } }

/-- `add_deps_recursive`. -/
def addDepsRecursive (items : Dict Str DepItem) : Nat → DepItem → Bool → List Str →
    Option (List Str)
  | 0, _, _, _ => none
  | n + 1, item, first, result =>
    if matchStringInArray result item.pkgver then some result
    else
      (item.dbase.foldlM (fun result dep =>
        (items.get dep).bind fun x => addDepsRecursive items n x false result) result).bind
        fun result => some (if first then result else item.pkgver :: result)

/-- `add_deps_recursive` on the static variables. -/
def DepTree.addDeps (t : DepTree) (item : DepItem) (first : Bool) : Option DepTree :=
  (addDepsRecursive t.items (t.items.entries.length + 1) item first t.result).map fun result =>
    { t with result }

/-- The loop of `ordered_depends` over the dependencies of `pkgd`; `recur` is the recursive
call.  `none` is the call of `abort`. -/
def dependsLoop (xhp : Handle) (recur : PkgDict → DepTree → Option (DepTree × Str))
    (pkgd : PkgDict) (pkgname : Str) : List Str → DepTree → Option DepTree
  | [], t => some t
  | curdep :: rdeps, t =>
    match pkgdbResolve xhp curdep with
    -- missing local runtime dependencies are ignored
    | none => dependsLoop xhp recur pkgd pkgname rdeps t
    | some curpkgd =>
      match depName curdep with
      | none => none
      | some curdepname =>
        if matchPkgnameInArray (pkgd.provides.getD []) curdepname then
          dependsLoop xhp recur pkgd pkgname rdeps t
        else
          match t.items.get curdepname with
          | some xitem =>
            (t.addDeps xitem false).bind (dependsLoop xhp recur pkgd pkgname rdeps)
          | none =>
            (recur curpkgd t).bind fun r =>
              dependsLoop xhp recur pkgd pkgname rdeps (r.1.addDepn pkgname r.2)

/-- `ordered_depends`: the static variables and the key of the item.  A package without a
`pkgname` makes the process crash. -/
def orderedDepends (xhp : Handle) : Nat → PkgDict → Nat → DepTree → Option (DepTree × Str)
  | 0, _, _, _ => none
  | n + 1, pkgd, depth, t =>
    match pkgd.pkgname with
    | none => none
    | some pkgname =>
      match t.items.get pkgname with
      | some item => (t.addDeps item (depth = 0)).map fun t => (t, pkgname)
      | none =>
        (dependsLoop xhp (fun d t => orderedDepends xhp n d (depth + 1) t) pkgd pkgname
          (pkgd.runDepends.getD []) (t.addItem pkgname pkgd.pkgver)).map fun t =>
            -- all deps were processed, add item to head
            if depth > 0 ∧ matchStringInArray t.result pkgd.pkgver = false then
              ({ t with result := pkgd.pkgver :: t.result }, pkgname)
            else (t, pkgname)

/-- `flappy_pkgdb_get_pkg_fulldeptree`; a `NULL` array is empty.  Every level of the recursion
but the last has an item of its own, so the number of packages bounds the depth. -/
def pkgdbGetPkgFulldeptree (xhp : Handle) (pkg : Str) : Option (List Str) :=
  match pkgdbResolve xhp pkg with
  | none => some []
  | some pkgd =>
    (orderedDepends xhp (xhp.pkgdb.keys.length + 1) pkgd 0 {}).map fun r => r.1.result

/-! ### Dependencies -/

/-- A dependency of the installed package `q` resolves to `d`. -/
def Depends (xhp : Handle) (q d : PkgDict) : Prop :=
  q ∈ xhp.pkgdb.values ∧ ∃ dep ∈ q.runDepends.getD [], pkgdbResolve xhp dep = some d

/-- What the walk relies on: packages know their own name, dependencies name packages; no
package provides the name of a dependency that another one fulfils; and a dependency with the
name of an installed package is fulfilled by that package or not at all. -/
structure DeptreeInput (xhp : Handle) : Prop where
  keys : KeysNamed xhp
  named : ∀ e ∈ xhp.pkgdb.entries, e.2.pkgname = some e.1
  deps : DepsNamed xhp
  own : ∀ q ∈ xhp.pkgdb.values, ∀ dep ∈ q.runDepends.getD [], ∀ n ∈ depName dep,
    matchPkgnameInArray (q.provides.getD []) n = true → ∀ d ∈ pkgdbResolve xhp dep, d = q
  clash : ∀ q ∈ xhp.pkgdb.values, ∀ dep ∈ q.runDepends.getD [], ∀ n ∈ depName dep,
    ∀ p ∈ xhp.pkgdb.get n, ∀ d ∈ pkgdbResolve xhp dep, d = p

/-- A dependency that the tree follows: one on a name that the package itself provides is passed
over. -/
def Needs (xhp : Handle) (q d : PkgDict) : Prop :=
  q ∈ xhp.pkgdb.values ∧ ∃ dep ∈ q.runDepends.getD [], ∃ n ∈ depName dep,
    matchPkgnameInArray (q.provides.getD []) n = false ∧ pkgdbResolve xhp dep = some d

/-- What the walk itself relies on: packages know their own name, dependencies that resolve name
packages, and one with the name of an installed package resolves to that package. -/
structure TreeInput (xhp : Handle) : Prop where
  keys : KeysNamed xhp
  named : ∀ e ∈ xhp.pkgdb.entries, e.2.pkgname = some e.1
  deps : ∀ q ∈ xhp.pkgdb.values, ∀ dep ∈ q.runDepends.getD [],
    (pkgdbResolve xhp dep).isSome → (depName dep).isSome
  clash : ∀ q ∈ xhp.pkgdb.values, ∀ dep ∈ q.runDepends.getD [], ∀ n ∈ depName dep,
    ∀ p ∈ xhp.pkgdb.get n, ∀ d ∈ pkgdbResolve xhp dep, d = p

theorem DeptreeInput.treeInput {xhp : Handle} (hin : DeptreeInput xhp) : TreeInput xhp :=
  ⟨hin.keys, hin.named, fun q hq dep hdep _ => hin.deps q hq dep hdep, hin.clash⟩

theorem Needs.depends {xhp : Handle} {q d : PkgDict} (h : Needs xhp q d) : Depends xhp q d := by
  obtain ⟨hq, dep, hdep, -, -, -, hres⟩ := h
  exact ⟨hq, dep, hdep, hres⟩

/-- A dependency that is passed over leads back to the package. -/
theorem DeptreeInput.needs {xhp : Handle} (hin : DeptreeInput xhp) {q d : PkgDict}
    (h : Depends xhp q d) (hne : d ≠ q) : Needs xhp q d := by
  obtain ⟨hq, dep, hdep, hres⟩ := h
  obtain ⟨n, hn⟩ := Option.isSome_iff_exists.mp (hin.deps q hq dep hdep)
  refine ⟨hq, dep, hdep, n, hn, ?_, hres⟩
  by_contra hprov
  exact hne (hin.own q hq dep hdep n hn (by simpa using hprov) d hres)

theorem pkgdbResolve_mem {xhp : Handle} {dep : Str} {d : PkgDict}
    (h : pkgdbResolve xhp dep = some d) : d ∈ xhp.pkgdb.values := by
  rw [pkgdbResolve, Option.or_eq_some_iff] at h
  rcases h with h | ⟨-, h⟩
  · exact findPkgInDict_mem h
  · exact findVirtualpkgInDict_mem h

/-! ### What the walk keeps -/

/-- Items are installed packages, the result is made of items, and an item with a list is in
the result. -/
structure TreeOk (xhp : Handle) (t : DepTree) : Prop where
  items : ∀ k it, t.items.get k = some it → ∃ p, xhp.pkgdb.get k = some p ∧ p.pkgver = it.pkgver
  result : ∀ v ∈ t.result, ∃ k it, t.items.get k = some it ∧ it.pkgver = v
  dbase : ∀ k it, t.items.get k = some it → it.dbase ≠ [] → it.pkgver ∈ t.result
  nodup : t.result.Nodup

/-- From `t` to `t'` nothing is lost, and every package that got an item has what it needs in the
result. -/
structure Grows (xhp : Handle) (t t' : DepTree) : Prop where
  result : ∀ v ∈ t.result, v ∈ t'.result
  items : ∀ k ∈ t.items.keys, k ∈ t'.items.keys
  done : ∀ k ∈ t'.items.keys, k ∉ t.items.keys → ∀ p, xhp.pkgdb.get k = some p →
    ∀ d, Needs xhp p d → d.pkgver ∈ t'.result

/-- The packages of `O` are being walked: any other package with an item is in the result, and
with a package what it needs is in the result, after it. -/
structure Ordered (xhp : Handle) (O : Set PkgDict) (t : DepTree) : Prop where
  items : ∀ k p, k ∈ t.items.keys → xhp.pkgdb.get k = some p → p ∈ O ∨ p.pkgver ∈ t.result
  closed : ∀ q d, Needs xhp q d → q.pkgver ∈ t.result → d.pkgver ∈ t.result
  sorted : t.result.Pairwise fun v w => ∀ q d, Needs xhp q d → q.pkgver = w → d.pkgver ≠ v

/-- No package needs itself. -/
def Acyclic (xhp : Handle) : Prop := ∀ p, ¬ Relation.TransGen (Needs xhp) p p

/-- What was added to the result is in `S`. -/
def Adds (xhp : Handle) (S : Set PkgDict) (t t' : DepTree) : Prop :=
  ∀ v ∈ t'.result, v ∈ t.result ∨ ∃ p ∈ xhp.pkgdb.values, p.pkgver = v ∧ p ∈ S

variable {xhp : Handle}

theorem Grows.refl (t : DepTree) : Grows xhp t t :=
  ⟨fun _ h => h, fun _ h => h, fun _ h hn => absurd h hn⟩

theorem Grows.trans {t t' t'' : DepTree} (h : Grows xhp t t') (h' : Grows xhp t' t'') :
    Grows xhp t t'' := by
  refine ⟨fun v hv => h'.result v (h.result v hv), fun k hk => h'.items k (h.items k hk), ?_⟩
  intro k hk hn p hp d hd
  by_cases hk' : k ∈ t'.items.keys
  · exact h'.result _ (h.done k hk' hn p hp d hd)
  · exact h'.done k hk hk' p hp d hd

theorem Adds.refl (S : Set PkgDict) (t : DepTree) : Adds xhp S t t := fun _ hv => Or.inl hv

theorem Adds.trans {S : Set PkgDict} {t t' t'' : DepTree} (h : Adds xhp S t t')
    (h' : Adds xhp S t' t'') : Adds xhp S t t'' := by
  intro v hv
  rcases h' v hv with hv | hv
  · exact h v hv
  · exact Or.inr hv

/-- The items are packages of the database, each at most once. -/
theorem TreeOk.length_le {t : DepTree} (h : TreeOk xhp t) :
    t.items.keys.length ≤ xhp.pkgdb.keys.length := by
  refine (List.subperm_of_subset t.items.nodup fun k hk => ?_).length_le
  obtain ⟨it, hit⟩ := Dict.mem_keys_iff.mp hk
  obtain ⟨p, hp, -⟩ := h.items k it hit
  exact Dict.mem_keys_iff.mpr ⟨p, hp⟩

theorem Grows.length_le {t t' : DepTree} (h : Grows xhp t t') :
    t.items.keys.length ≤ t'.items.keys.length :=
  (List.subperm_of_subset t.items.nodup h.items).length_le

/-- An item that is not in the result has an empty list, so nothing is followed: it goes to the
head of the result. -/
theorem TreeOk.addDeps {t : DepTree} (h : TreeOk xhp t) {k : Str} {it : DepItem}
    (hit : t.items.get k = some it) (first : Bool) :
    t.addDeps it first = some (if it.pkgver ∈ t.result ∨ first = true then t
      else { t with result := it.pkgver :: t.result }) := by
  rw [DepTree.addDeps, addDepsRecursive]
  by_cases hin : it.pkgver ∈ t.result
  · simp [matchStringInArray, hin]
  · have hnil : it.dbase = [] := by
      by_contra hne
      exact hin (h.dbase k it hit hne)
    cases first <;> simp [matchStringInArray, hin, hnil]

/-- Adding an item of `S` to the head of the result. -/
theorem TreeOk.cons {t : DepTree} (h : TreeOk xhp t) {k : Str} {it : DepItem}
    (hit : t.items.get k = some it) (hin : it.pkgver ∉ t.result) :
    TreeOk xhp { t with result := it.pkgver :: t.result } where
  items := h.items
  result := List.forall_mem_cons.mpr ⟨⟨k, it, hit, rfl⟩, h.result⟩
  dbase := fun k' it' hit' hne => List.mem_cons_of_mem _ (h.dbase k' it' hit' hne)
  nodup := List.nodup_cons.mpr ⟨hin, h.nodup⟩

theorem Grows.cons (t : DepTree) (v : Str) : Grows xhp t { t with result := v :: t.result } :=
  ⟨fun _ h => List.mem_cons_of_mem _ h, fun _ h => h, fun _ h hn => absurd h hn⟩

theorem Adds.cons {S : Set PkgDict} {t : DepTree} {p : PkgDict} (hp : p ∈ xhp.pkgdb.values)
    (hS : p ∈ S) : Adds xhp S t { t with result := p.pkgver :: t.result } := by
  intro v hv
  rcases List.mem_cons.mp hv with rfl | hv
  · exact Or.inr ⟨p, hp, rfl, hS⟩
  · exact Or.inl hv

/-- Giving an item of the result one more dependent. -/
theorem TreeOk.addDepn {t : DepTree} (h : TreeOk xhp t) {x : Str} {it : DepItem}
    (hit : t.items.get x = some it) (hin : it.pkgver ∈ t.result) (item : Str) :
    TreeOk xhp (t.addDepn item x) := by
  have hget : ∀ k it', (t.addDepn item x).items.get k = some it' →
      ∃ it₀, t.items.get k = some it₀ ∧ it₀.pkgver = it'.pkgver ∧ (k ≠ x → it₀ = it') := by
    intro k it' hk
    by_cases hkx : k = x
    · subst hkx
      rw [DepTree.addDepn, Dict.get_modify_self, hit, Option.map_some, Option.some.injEq] at hk
      exact ⟨it, hit, by rw [← hk], fun hne => absurd rfl hne⟩
    · rw [DepTree.addDepn, Dict.get_modify_ne _ _ hkx] at hk
      exact ⟨it', hk, rfl, fun _ => rfl⟩
  refine ⟨fun k it' hk => ?_, fun v hv => ?_, fun k it' hk hne => ?_, h.nodup⟩
  · obtain ⟨it₀, hit₀, hver, -⟩ := hget k it' hk
    rw [← hver]
    exact h.items k it₀ hit₀
  · obtain ⟨k, it', hk, rfl⟩ := h.result v hv
    by_cases hkx : k = x
    · subst hkx
      obtain rfl := Option.some.inj (hk.symm.trans hit)
      refine ⟨k, { it' with dbase := item :: it'.dbase }, ?_, rfl⟩
      rw [DepTree.addDepn, Dict.get_modify_self, hk, Option.map_some]
    · exact ⟨k, it', by rw [DepTree.addDepn, Dict.get_modify_ne _ _ hkx, hk], rfl⟩
  · obtain ⟨it₀, hit₀, hver, hsame⟩ := hget k it' hk
    by_cases hkx : k = x
    · subst hkx
      obtain rfl := Option.some.inj (hit₀.symm.trans hit)
      rw [← hver]
      exact hin
    · rw [← hver]
      exact h.dbase k it₀ hit₀ (by rwa [hsame hkx])

theorem DepTree.keys_addDepn (t : DepTree) (item x : Str) :
    (t.addDepn item x).items.keys = t.items.keys :=
  Dict.map_fst_modify t.items.entries x fun e => { e with dbase := item :: e.dbase }

/-- The dependents of an item are not looked at. -/
theorem Grows.addDepn (t : DepTree) (item x : Str) : Grows xhp t (t.addDepn item x) := by
  refine ⟨fun _ h => h, fun k hk => ?_, fun k hk hn => ?_⟩
  · rwa [DepTree.keys_addDepn]
  · rw [DepTree.keys_addDepn] at hk
    exact absurd hk hn

/-- A package that got its item. -/
theorem TreeOk.addItem {t : DepTree} (h : TreeOk xhp t) {k : Str} {p : PkgDict}
    (hp : xhp.pkgdb.get k = some p) (hnew : t.items.get k = none) :
    TreeOk xhp (t.addItem k p.pkgver) := by
  have hold : ∀ k' it, t.items.get k' = some it →
      (t.addItem k p.pkgver).items.get k' = some it := by
    intro k' it hit
    have hne : k' ≠ k := by
      rintro rfl
      rw [hnew] at hit
      cases hit
    rw [DepTree.addItem, Dict.get_set_ne _ _ hne, hit]
  have hcases : ∀ k' it, (t.addItem k p.pkgver).items.get k' = some it →
      (k' = k ∧ it = { pkgver := p.pkgver }) ∨ t.items.get k' = some it := by
    intro k' it hit
    by_cases hk : k' = k
    · subst hk
      rw [DepTree.addItem, Dict.get_set_self, Option.some.injEq] at hit
      exact Or.inl ⟨rfl, hit.symm⟩
    · rw [DepTree.addItem, Dict.get_set_ne _ _ hk] at hit
      exact Or.inr hit
  refine ⟨fun k' it hit => ?_, fun v hv => ?_, fun k' it hit hne => ?_, h.nodup⟩
  · rcases hcases k' it hit with ⟨rfl, rfl⟩ | hit
    · exact ⟨p, hp, rfl⟩
    · exact h.items k' it hit
  · obtain ⟨k', it, hit, hver⟩ := h.result v hv
    exact ⟨k', it, hold k' it hit, hver⟩
  · rcases hcases k' it hit with ⟨rfl, rfl⟩ | hit
    · exact absurd rfl hne
    · exact h.dbase k' it hit hne

theorem DepTree.mem_keys_addItem {t : DepTree} {k pkgver k' : Str} :
    k' ∈ (t.addItem k pkgver).items.keys ↔ k' = k ∨ k' ∈ t.items.keys := by
  rw [Dict.mem_keys_iff, Dict.mem_keys_iff, DepTree.addItem]
  by_cases hk : k' = k
  · subst hk
    simp
  · rw [Dict.get_set_ne _ _ hk]
    simp [hk]

theorem DepTree.length_addItem {t : DepTree} {k : Str} (pkgver : Str)
    (hnew : t.items.get k = none) :
    t.items.keys.length + 1 ≤ (t.addItem k pkgver).items.keys.length := by
  have hnodup : (k :: t.items.keys).Nodup :=
    List.nodup_cons.mpr ⟨Dict.get_eq_none_iff.mp hnew, t.items.nodup⟩
  refine (List.subperm_of_subset hnodup fun k' hk' => ?_).length_le
  rw [DepTree.mem_keys_addItem]
  exact List.mem_cons.mp hk'

/-! ### The order of the result -/

theorem Ordered.init : Ordered xhp ∅ {} := by
  refine ⟨?_, ?_, List.Pairwise.nil⟩
  · simp [Dict.keys, Dict.empty]
  · simp

theorem Ordered.mono {O O' : Set PkgDict} {t : DepTree} (h : Ordered xhp O t) (hO : O ⊆ O') :
    Ordered xhp O' t :=
  ⟨fun k p hk hget => (h.items k p hk hget).imp_left (hO ·), h.closed, h.sorted⟩

theorem Ordered.addItem {O : Set PkgDict} {t : DepTree} (h : Ordered xhp O t) {k : Str}
    {p : PkgDict} (hget : xhp.pkgdb.get k = some p) (hO : p ∈ O) :
    Ordered xhp O (t.addItem k p.pkgver) := by
  refine ⟨fun k' p' hk' hget' => ?_, h.closed, h.sorted⟩
  rcases DepTree.mem_keys_addItem.mp hk' with rfl | hk'
  · obtain rfl := Option.some.inj (hget.symm.trans hget')
    exact Or.inl hO
  · exact h.items k' p' hk' hget'

theorem Ordered.addDepn {O : Set PkgDict} {t : DepTree} (h : Ordered xhp O t) (item x : Str) :
    Ordered xhp O (t.addDepn item x) :=
  ⟨fun k p hk => h.items k p (DepTree.keys_addDepn t item x ▸ hk), h.closed, h.sorted⟩

/-- A package that is done is needed by nothing that was done before it. -/
theorem Ordered.cons (hkeys : KeysNamed xhp) {O : Set PkgDict} {t : DepTree} {p : PkgDict}
    (h : Ordered xhp (insert p O) t) (hp : p ∈ xhp.pkgdb.values)
    (hneeds : ∀ d, Needs xhp p d → d.pkgver ∈ t.result) (hout : p.pkgver ∉ t.result) :
    Ordered xhp O { t with result := p.pkgver :: t.result } where
  items k p' hk hget := by
    rcases h.items k p' hk hget with (rfl | hO) | hin
    · exact Or.inr List.mem_cons_self
    · exact Or.inl hO
    · exact Or.inr (List.mem_cons_of_mem _ hin)
  closed q d hd hq := by
    refine List.mem_cons_of_mem _ ?_
    rcases List.mem_cons.mp hq with hq | hq
    · obtain rfl := hkeys.eq_of_pkgver hd.1 hp hq
      exact hneeds d hd
    · exact h.closed q d hd hq
  sorted := by
    refine List.pairwise_cons.mpr ⟨?_, h.sorted⟩
    rintro w hw q d hd rfl hdp
    exact hout (hdp ▸ h.closed q d hd hw)

/-- Packages stop being walked when they are in the result. -/
theorem Ordered.close {O : Set PkgDict} {t : DepTree} {p : PkgDict}
    (h : Ordered xhp (insert p O) t) (hin : p.pkgver ∈ t.result) : Ordered xhp O t where
  items k p' hk hget := by
    rcases h.items k p' hk hget with (rfl | hO) | hin'
    · exact Or.inr hin
    · exact Or.inl hO
    · exact Or.inr hin'
  closed := h.closed
  sorted := h.sorted

/-! ### The whole walk -/

/-- What a piece of the walk does, when everything it may add is in `S` and the packages of `O`
are being walked. -/
structure Walked (xhp : Handle) (S O : Set PkgDict) (t t' : DepTree) : Prop where
  ok : TreeOk xhp t'
  grows : Grows xhp t t'
  adds : Adds xhp S t t'
  ordered : Acyclic xhp → Ordered xhp O t → Ordered xhp O t'

theorem Walked.trans {S O : Set PkgDict} {t t' t'' : DepTree} (h : Walked xhp S O t t')
    (h' : Walked xhp S O t' t'') : Walked xhp S O t t'' :=
  ⟨h'.ok, h.grows.trans h'.grows, h.adds.trans h'.adds,
    fun hacyclic => h'.ordered hacyclic ∘ h.ordered hacyclic⟩

theorem TreeOk.walked {t : DepTree} (h : TreeOk xhp t) (S O : Set PkgDict) :
    Walked xhp S O t t :=
  ⟨h, Grows.refl t, Adds.refl S t, fun _ => id⟩

/-- Meeting an item again. -/
theorem TreeOk.walked_addDeps {S O : Set PkgDict} {t : DepTree} (h : TreeOk xhp t) {k : Str}
    {it : DepItem} (hit : t.items.get k = some it) {p : PkgDict} (hget : xhp.pkgdb.get k = some p)
    (hver : p.pkgver = it.pkgver) (first : Bool) (hS : first = false → p ∈ S)
    (hO : Acyclic xhp → first = false → p ∉ O) :
    ∃ t', t.addDeps it first = some t' ∧ Walked xhp S O t t' ∧ t'.items = t.items ∧
      (first = false → p.pkgver ∈ t'.result) := by
  refine ⟨_, h.addDeps hit first, ?_⟩
  split
  · next hcond =>
    refine ⟨h.walked S O, rfl, fun hfirst => ?_⟩
    rw [hver]
    simpa [hfirst] using hcond
  · next hcond =>
    push Not at hcond
    obtain ⟨hout, hfirst⟩ := hcond
    have hfirst : first = false := by simpa using hfirst
    refine ⟨⟨h.cons hit hout, Grows.cons t _, ?_, fun hacyclic hord => ?_⟩, rfl, fun _ => ?_⟩
    · rw [← hver]
      exact Adds.cons (Dict.mem_values_of_get hget) (hS hfirst)
    · -- the package is not being walked, so it would be in the result
      refine absurd ?_ hout
      rw [← hver]
      exact (hord.items k p (Dict.mem_keys_iff.mpr ⟨it, hit⟩) hget).resolve_left
        (hO hacyclic hfirst)
    · rw [hver]
      exact List.mem_cons_self

/-- The key of an installed package. -/
theorem TreeInput.key (hin : TreeInput xhp) {p : PkgDict} (hp : p ∈ xhp.pkgdb.values) :
    ∃ k, p.pkgname = some k ∧ xhp.pkgdb.get k = some p := by
  obtain ⟨k, hk⟩ := Dict.mem_values_iff.mp hp
  exact ⟨k, hin.named (k, p) (Dict.mem_entries_iff.mpr hk), hk⟩

/-- The room the recursion has: every level takes an item. -/
def Room (xhp : Handle) (t : DepTree) (n : Nat) : Prop :=
  xhp.pkgdb.keys.length < t.items.keys.length + n

/-- What a call for `d` gives, at a depth at which `d` itself goes to the result. -/
def Visits (xhp : Handle) (S O : Set PkgDict) (n : Nat)
    (call : PkgDict → DepTree → Option (DepTree × Str)) : Prop :=
  ∀ d t, d ∈ xhp.pkgdb.values → d ∈ S → (∀ o ∈ O, Relation.TransGen (Needs xhp) o d) →
    TreeOk xhp t → Room xhp t n →
    ∃ t' k it, call d t = some (t', k) ∧ Walked xhp S O t t' ∧ t'.items.get k = some it ∧
      it.pkgver = d.pkgver ∧ d.pkgver ∈ t'.result

/-- The loop brings the packages that are needed into the result. -/
theorem TreeInput.dependsLoop (hin : TreeInput xhp) {S O : Set PkgDict} {n : Nat}
    {recur : PkgDict → DepTree → Option (DepTree × Str)} (hrec : Visits xhp S O n recur)
    {pkgd : PkgDict} (hp : pkgd ∈ xhp.pkgdb.values) (hS : ∀ d, Needs xhp pkgd d → d ∈ S)
    (hO : ∀ o ∈ O, Relation.ReflTransGen (Needs xhp) o pkgd) (pkgname : Str) :
    ∀ {rdeps : List Str} {t : DepTree}, (∀ dep ∈ rdeps, dep ∈ pkgd.runDepends.getD []) →
      TreeOk xhp t → Room xhp t n →
      ∃ t', Flappy.dependsLoop xhp recur pkgd pkgname rdeps t = some t' ∧ Walked xhp S O t t' ∧
        ∀ dep ∈ rdeps, ∀ n ∈ depName dep, matchPkgnameInArray (pkgd.provides.getD []) n = false →
          ∀ d, pkgdbResolve xhp dep = some d → d.pkgver ∈ t'.result := by
  intro rdeps
  induction rdeps with
  | nil => exact fun {t} _ hok _ => ⟨t, rfl, hok.walked S O, by simp⟩
  | cons dep rdeps ih =>
    intro t hdeps hok hroom
    rw [List.forall_mem_cons] at hdeps
    obtain ⟨hdep, hdeps⟩ := hdeps
    rw [Flappy.dependsLoop]
    -- what is left of the loop, once `dep` has its package in the result
    have hrest : ∀ t₁, Walked xhp S O t t₁ →
        (∀ n ∈ depName dep, matchPkgnameInArray (pkgd.provides.getD []) n = false →
          ∀ d, pkgdbResolve xhp dep = some d → d.pkgver ∈ t₁.result) →
        ∃ t', Flappy.dependsLoop xhp recur pkgd pkgname rdeps t₁ = some t' ∧
          Walked xhp S O t t' ∧
          ∀ dep' ∈ dep :: rdeps, ∀ n ∈ depName dep',
            matchPkgnameInArray (pkgd.provides.getD []) n = false →
              ∀ d, pkgdbResolve xhp dep' = some d → d.pkgver ∈ t'.result := by
      intro t₁ hw hin₁
      have hroom₁ : Room xhp t₁ n := by
        have := hw.grows.length_le
        rw [Room] at hroom ⊢
        omega
      obtain ⟨t', hrun, hw', hall⟩ := ih hdeps hw.ok hroom₁
      refine ⟨t', hrun, hw.trans hw', ?_⟩
      rw [List.forall_mem_cons]
      exact ⟨fun n hn hprov d hd => hw'.grows.result _ (hin₁ n hn hprov d hd), hall⟩
    cases hres : pkgdbResolve xhp dep with
    | none =>
      refine hrest t (hok.walked S O) fun _ _ _ d hd => ?_
      rw [hres] at hd
      cases hd
    | some d =>
      obtain ⟨name, hname⟩ :=
        Option.isSome_iff_exists.mp (hin.deps pkgd hp dep hdep (by rw [hres]; rfl))
      have hd : d ∈ xhp.pkgdb.values := pkgdbResolve_mem hres
      simp only [hname]
      by_cases hprov : matchPkgnameInArray (pkgd.provides.getD []) name = true
      · rw [if_pos hprov]
        refine hrest t (hok.walked S O) fun n hn hn' => ?_
        obtain rfl := Option.some.inj (hname.symm.trans hn)
        exact absurd hprov (by simp [hn'])
      · rw [if_neg hprov]
        have hneeds : Needs xhp pkgd d := ⟨hp, dep, hdep, name, hname, by simpa using hprov, hres⟩
        have hpath : ∀ o ∈ O, Relation.TransGen (Needs xhp) o d :=
          fun o ho => Relation.TransGen.tail' (hO o ho) hneeds
        have honly : ∀ {t₁ : DepTree}, d.pkgver ∈ t₁.result →
            ∀ n ∈ depName dep, matchPkgnameInArray (pkgd.provides.getD []) n = false →
              ∀ d', pkgdbResolve xhp dep = some d' → d'.pkgver ∈ t₁.result := by
          intro t₁ hmem _ _ _ d' hd'
          obtain rfl := Option.some.inj (hres.symm.trans hd')
          exact hmem
        cases hitem : t.items.get name with
        | some xitem =>
          obtain ⟨p, hget, hver⟩ := hok.items name xitem hitem
          obtain rfl := hin.clash pkgd hp dep hdep name hname p hget d hres
          obtain ⟨t₁, hrun, hw, -, hmem⟩ := hok.walked_addDeps hitem hget hver false
            (fun _ => hS d hneeds) fun hacyclic _ hdO => hacyclic d (hpath d hdO)
          simp only [hrun, Option.bind_some]
          exact hrest t₁ hw (honly (hmem rfl))
        | none =>
          obtain ⟨t₁, k, it, hrun, hw, hit, hver, hmem⟩ :=
            hrec d t hd (hS d hneeds) hpath hok hroom
          simp only [hrun, Option.bind_some]
          have hw' : Walked xhp S O t₁ (t₁.addDepn pkgname k) :=
            ⟨hw.ok.addDepn hit (hver ▸ hmem) pkgname, Grows.addDepn t₁ pkgname k, Adds.refl S t₁,
              fun _ hord => hord.addDepn pkgname k⟩
          exact hrest _ (hw.trans hw') (honly hmem)

/-- The loop over the dependencies of a package that had no item: it is done with the package. -/
theorem Grows.of_addItem {t t' : DepTree} {k : Str} {pkgd : PkgDict}
    (hget : xhp.pkgdb.get k = some pkgd) (h : Grows xhp (t.addItem k pkgd.pkgver) t')
    (hneeds : ∀ d, Needs xhp pkgd d → d.pkgver ∈ t'.result) : Grows xhp t t' := by
  refine ⟨h.result, fun k' hk' => ?_, fun k' hk' hnew p hp d hd => ?_⟩
  · exact h.items k' (DepTree.mem_keys_addItem.mpr (Or.inr hk'))
  · by_cases hkk : k' = k
    · subst hkk
      obtain rfl := Option.some.inj (hget.symm.trans hp)
      exact hneeds d hd
    · refine h.done k' hk' ?_ p hp d hd
      rw [DepTree.mem_keys_addItem]
      tauto

/-- The end of a call: below depth zero the package goes to the result, unless it is there. -/
theorem TreeInput.leave (hin : TreeInput xhp) {S O : Set PkgDict} {t t' : DepTree} {k : Str}
    {pkgd : PkgDict} {depth : Nat} (hp : pkgd ∈ xhp.pkgdb.values) (hpS : 0 < depth → pkgd ∈ S)
    (hw : Walked xhp S (insert pkgd O) t t') {it : DepItem} (hit : t'.items.get k = some it)
    (hver : it.pkgver = pkgd.pkgver) (hneeds : ∀ d, Needs xhp pkgd d → d.pkgver ∈ t'.result) :
    ∃ t'', (if depth > 0 ∧ matchStringInArray t'.result pkgd.pkgver = false then
        ({ t' with result := pkgd.pkgver :: t'.result }, k) else (t', k)) = (t'', k) ∧
      Walked xhp S (if depth = 0 then insert pkgd O else O) t t'' ∧ t''.items = t'.items ∧
      (0 < depth → pkgd.pkgver ∈ t''.result) := by
  split
  · next hcond =>
    obtain ⟨hdepth, hout⟩ := hcond
    have hout : pkgd.pkgver ∉ t'.result := by simpa [matchStringInArray] using hout
    refine ⟨_, rfl, ⟨?_, hw.grows.trans (Grows.cons t' _),
      Adds.trans hw.adds (Adds.cons hp (hpS hdepth)), ?_⟩, rfl, fun _ => List.mem_cons_self⟩
    · rw [← hver] at hout ⊢
      exact hw.ok.cons hit hout
    · rw [if_neg hdepth.ne']
      exact fun hacyclic hord => (hw.ordered hacyclic
        (hord.mono (Set.subset_insert _ _))).cons hin.keys hp hneeds hout
  · next hcond =>
    have hmem : 0 < depth → pkgd.pkgver ∈ t'.result := by
      intro hdepth
      by_contra hout
      exact hcond ⟨hdepth, by simpa [matchStringInArray] using hout⟩
    refine ⟨t', rfl, ⟨hw.ok, hw.grows, hw.adds, fun hacyclic => ?_⟩, rfl, hmem⟩
    split
    · exact hw.ordered hacyclic
    · next hdepth =>
      exact fun hord => (hw.ordered hacyclic (hord.mono (Set.subset_insert _ _))).close
        (hmem (Nat.pos_of_ne_zero hdepth))

/-- One call, at any depth: at depth zero the package itself need not be in the result, and is
still being walked. -/
theorem TreeInput.orderedDepends (hin : TreeInput xhp) {S : Set PkgDict}
    (hclosed : ∀ p ∈ S, ∀ d, Needs xhp p d → d ∈ S) :
    ∀ {n : Nat} {pkgd : PkgDict} {depth : Nat} {O : Set PkgDict} {t : DepTree},
      pkgd ∈ xhp.pkgdb.values → (∀ d, Needs xhp pkgd d → d ∈ S) → (0 < depth → pkgd ∈ S) →
      (∀ o ∈ O, Relation.TransGen (Needs xhp) o pkgd) → TreeOk xhp t → Room xhp t n →
      ∃ t' k it, Flappy.orderedDepends xhp n pkgd depth t = some (t', k) ∧
        Walked xhp S (if depth = 0 then insert pkgd O else O) t t' ∧
        pkgd.pkgname = some k ∧ t'.items.get k = some it ∧ it.pkgver = pkgd.pkgver ∧
        (0 < depth → pkgd.pkgver ∈ t'.result) := by
  intro n
  induction n with
  | zero =>
    intro pkgd depth O t _ _ _ _ hok hroom
    have := hok.length_le
    rw [Room] at hroom
    omega
  | succ n ih =>
    intro pkgd depth O t hp hS hpS hO hok hroom
    obtain ⟨k, hname, hget⟩ := hin.key hp
    rw [Flappy.orderedDepends]
    simp only [hname]
    cases hitem : t.items.get k with
    | some item =>
      obtain ⟨p, hget', hver⟩ := hok.items k item hitem
      obtain rfl := Option.some.inj (hget.symm.trans hget')
      have hdepth : decide (depth = 0) = false → depth ≠ 0 := of_decide_eq_false
      obtain ⟨t', hrun, hw, hitems, hmem⟩ :=
        hok.walked_addDeps (O := if depth = 0 then insert pkgd O else O) hitem hget hver
          (decide (depth = 0)) (fun h => hpS (Nat.pos_of_ne_zero (hdepth h)))
          fun hacyclic h hpO => by
            rw [if_neg (hdepth h)] at hpO
            exact hacyclic pkgd (hO pkgd hpO)
      simp only [hrun, Option.map_some]
      refine ⟨t', k, item, rfl, hw, rfl, hitems ▸ hitem, hver.symm, fun hdepth => ?_⟩
      exact hmem (decide_eq_false (Nat.pos_iff_ne_zero.mp hdepth))
    | none =>
      have hok₁ := hok.addItem hget hitem
      have hvisits : Visits xhp S (insert pkgd O) n
          fun d t => Flappy.orderedDepends xhp n d (depth + 1) t := by
        intro d t₁ hd hdS hOd hokd hroomd
        obtain ⟨t', k', it, hrun, hw, -, hit, hver, hmem⟩ :=
          ih hd (hclosed d hdS) (fun _ => hdS) hOd hokd hroomd
        exact ⟨t', k', it, hrun, hw, hit, hver, hmem (Nat.succ_pos depth)⟩
      have hroom₁ : Room xhp (t.addItem k pkgd.pkgver) n := by
        have := DepTree.length_addItem pkgd.pkgver hitem
        rw [Room] at hroom ⊢
        omega
      have hO₁ : ∀ o ∈ insert pkgd O, Relation.ReflTransGen (Needs xhp) o pkgd := by
        rintro o (rfl | ho)
        · exact Relation.ReflTransGen.refl
        · exact (hO o ho).to_reflTransGen
      obtain ⟨t₂, hrun, hw, hall⟩ :=
        hin.dependsLoop hvisits hp hS hO₁ k (fun dep hdep => hdep) hok₁ hroom₁
      have hneeds : ∀ d, Needs xhp pkgd d → d.pkgver ∈ t₂.result := by
        rintro d ⟨-, dep, hdep, name, hname, hprov, hres⟩
        exact hall dep hdep name hname hprov d hres
      obtain ⟨it, hit⟩ := Dict.mem_keys_iff.mp
        (hw.grows.items k (DepTree.mem_keys_addItem.mpr (Or.inl rfl)))
      have hver : it.pkgver = pkgd.pkgver := by
        obtain ⟨p, hget', hver⟩ := hw.ok.items k it hit
        obtain rfl := Option.some.inj (hget.symm.trans hget')
        exact hver.symm
      have hw₂ : Walked xhp S (insert pkgd O) t t₂ :=
        ⟨hw.ok, hw.grows.of_addItem hget hneeds, hw.adds, fun hacyclic hord =>
          hw.ordered hacyclic (hord.addItem hget (Set.mem_insert _ _))⟩
      obtain ⟨t', hend, hw', hitems, hmem⟩ := hin.leave hp hpS hw₂ hit hver hneeds
      refine ⟨t', k, it, ?_, hw', rfl, hitems ▸ hit, hver, hmem⟩
      rw [hrun, Option.map_some, hend]

/-- The tree of an installed package: its transitive dependencies without duplicates, in their
order if no package needs itself. -/
theorem TreeInput.fulldeptree (hin : TreeInput xhp) {pkg : Str} {p : PkgDict}
    (hp : pkgdbResolve xhp pkg = some p) :
    ∃ l, pkgdbGetPkgFulldeptree xhp pkg = some l ∧ l.Nodup ∧
      (∀ v ∈ l, ∃ d ∈ xhp.pkgdb.values, d.pkgver = v ∧ Relation.TransGen (Needs xhp) p d) ∧
      (∀ d, Relation.TransGen (Needs xhp) p d → d.pkgver ∈ l) ∧
      (Acyclic xhp →
        l.Pairwise fun v w => ∀ q d, Needs xhp q d → q.pkgver = w → d.pkgver ≠ v) := by
  have hmem : p ∈ xhp.pkgdb.values := pkgdbResolve_mem hp
  have hempty : TreeOk xhp {} := ⟨by simp [Dict.get, Dict.empty], by simp,
    by simp [Dict.get, Dict.empty], List.nodup_nil⟩
  obtain ⟨t, k, it, hrun, hw, hname, hit, -, -⟩ :=
    hin.orderedDepends (fun q hq d hd => Relation.TransGen.tail hq hd) hmem
      (fun d hd => Relation.TransGen.single hd) (fun h => absurd h (Nat.lt_irrefl 0))
      (O := ∅) (fun o ho => ho.elim) hempty
      (show Room xhp {} (xhp.pkgdb.keys.length + 1) by rw [Room]; omega)
  refine ⟨t.result, by simp [pkgdbGetPkgFulldeptree, hp, hrun], hw.ok.nodup, ?_, ?_, ?_⟩
  · intro v hv
    rcases hw.adds v hv with hv | ⟨d, hd, hver, hdS⟩
    · cases hv
    · exact ⟨d, hd, hver, hdS⟩
  · -- all items are done, and what is in the result has an item
    have hdone : ∀ q, q = p ∨ q.pkgver ∈ t.result → ∀ d, Needs xhp q d → d.pkgver ∈ t.result := by
      intro q hq d hd
      have hitem : ∃ k', xhp.pkgdb.get k' = some q ∧ k' ∈ t.items.keys := by
        rcases hq with rfl | hq
        · obtain ⟨k', hname', hget⟩ := hin.key hmem
          obtain rfl := Option.some.inj (hname.symm.trans hname')
          exact ⟨k, hget, Dict.mem_keys_iff.mpr ⟨it, hit⟩⟩
        · obtain ⟨k', it', hit', hver'⟩ := hw.ok.result _ hq
          obtain ⟨q', hget, hver⟩ := hw.ok.items k' it' hit'
          have hq' := hin.keys.eq_of_pkgver (Dict.mem_values_of_get hget) hd.1
            (hver.trans hver')
          exact ⟨k', hq' ▸ hget, Dict.mem_keys_iff.mpr ⟨it', hit'⟩⟩
      obtain ⟨k', hget, hkeys⟩ := hitem
      exact hw.grows.done k' hkeys (by simp [Dict.keys, Dict.empty]) q hget d hd
    intro d hd
    induction hd with
    | single hd => exact hdone p (Or.inl rfl) _ hd
    | tail hpath hd ih => exact hdone _ (by tauto) _ hd
  · intro hacyclic
    exact (hw.ordered hacyclic (Ordered.init.mono (Set.empty_subset _))).sorted

/-- The full dependency tree: pkgvers of transitive dependencies without duplicates, and every
transitive dependency other than the package itself. -/
theorem DeptreeInput.fulldeptree (hin : DeptreeInput xhp) {pkg : Str} {p : PkgDict}
    (hp : pkgdbResolve xhp pkg = some p) :
    ∃ l, pkgdbGetPkgFulldeptree xhp pkg = some l ∧ l.Nodup ∧
      (∀ v ∈ l, ∃ d ∈ xhp.pkgdb.values, d.pkgver = v ∧ Relation.TransGen (Depends xhp) p d) ∧
      ∀ d, Relation.TransGen (Depends xhp) p d → d ≠ p → d.pkgver ∈ l := by
  obtain ⟨l, hl, hnodup, hsound, hall, -⟩ := hin.treeInput.fulldeptree hp
  refine ⟨l, hl, hnodup, fun v hv => ?_, fun d hd hne => hall d ?_⟩
  · obtain ⟨d, hd, hver, hpath⟩ := hsound v hv
    exact ⟨d, hd, hver, hpath.lift id fun _ _ h => h.depends⟩
  · -- what is passed over does not lead anywhere else
    have hreach : d = p ∨ Relation.TransGen (Needs xhp) p d := by
      induction hd with
      | @single d hd =>
        by_cases hdp : d = p
        · exact Or.inl hdp
        · exact Or.inr (Relation.TransGen.single (hin.needs hd hdp))
      | @tail q d hpath hd ih =>
        by_cases hdq : d = q
        · subst hdq
          exact ih hne
        · have hneeds := hin.needs hd hdq
          by_cases hqp : q = p
          · exact Or.inr (Relation.TransGen.single (hqp ▸ hneeds))
          · exact Or.inr (((ih hqp).resolve_left hqp).tail hneeds)
    exact hreach.resolve_left hne

/-- The tree of an installed package is computed in any case.  If no package needs itself it
holds the transitive dependencies of the package, without the package and without duplicates, and
every package comes before its own dependencies. -/
theorem pkgdbGetPkgFulldeptree_order (hin : TreeInput xhp) {pkg : Str} {p : PkgDict}
    (hp : pkgdbResolve xhp pkg = some p) :
    ∃ l, pkgdbGetPkgFulldeptree xhp pkg = some l ∧
      (Acyclic xhp →
        l.Nodup ∧ p.pkgver ∉ l ∧
          (∀ v, v ∈ l ↔ ∃ d, Relation.TransGen (Needs xhp) p d ∧ d.pkgver = v) ∧
          ∀ q d, Needs xhp q d → q.pkgver ∈ l → d.pkgver ∈ l ∧
            l.idxOf q.pkgver < l.idxOf d.pkgver) := by
  obtain ⟨l, hl, hnodup, hsound, hall, hsorted⟩ := hin.fulldeptree hp
  refine ⟨l, hl, fun hacyclic => ⟨hnodup, fun hpl => ?_, fun v => ⟨fun hv => ?_, ?_⟩, ?_⟩⟩
  · obtain ⟨d, hd, hver, hpath⟩ := hsound _ hpl
    obtain rfl := hin.keys.eq_of_pkgver hd (pkgdbResolve_mem hp) hver
    exact hacyclic d hpath
  · obtain ⟨d, -, hver, hpath⟩ := hsound v hv
    exact ⟨d, hpath, hver⟩
  · rintro ⟨d, hpath, rfl⟩
    exact hall d hpath
  · intro q d hneeds hq
    have hd : d.pkgver ∈ l := by
      obtain ⟨q', hq', hver, hpath⟩ := hsound _ hq
      obtain rfl := hin.keys.eq_of_pkgver hq' hneeds.1 hver
      exact hall d (hpath.tail hneeds)
    refine ⟨hd, ?_⟩
    by_contra! hle
    have hlt : l.idxOf d.pkgver < l.idxOf q.pkgver := by
      refine lt_of_le_of_ne hle fun heq => ?_
      have hver := (List.idxOf_inj hd).mp heq
      obtain ⟨-, dep, -, -, -, -, hres⟩ := id hneeds
      obtain rfl := hin.keys.eq_of_pkgver (pkgdbResolve_mem hres) hneeds.1 hver
      exact hacyclic d (Relation.TransGen.single hneeds)
    refine List.pairwise_iff_getElem.mp (hsorted hacyclic) _ _ (List.idxOf_lt_length_of_mem hd)
      (List.idxOf_lt_length_of_mem hq) hlt q d hneeds ?_ ?_
    · rw [List.getElem_idxOf]
    · rw [List.getElem_idxOf]

/-- A relation along which a number falls has no cycle. -/
theorem not_transGen_self {r : PkgDict → PkgDict → Prop} {f : PkgDict → Nat}
    (h : ∀ q d, r q d → f d < f q) (p : PkgDict) : ¬ Relation.TransGen r p p := by
  have hlt : ∀ d, Relation.TransGen r p d → f d < f p := by
    intro d hd
    induction hd with
    | single hd => exact h p _ hd
    | tail _ hd ih => exact (h _ _ hd).trans ih
  exact fun hp => Nat.lt_irrefl _ (hlt p hp)

/-- An installed package with these dependencies and provided packages. -/
def treePkg (name pkgver : String) (deps provides : List String) : Str × PkgDict :=
  (name.toList, { pkgver := pkgver.toList
                  pkgname := some name.toList
                  runDepends := some (deps.map String.toList)
                  provides := some (provides.map String.toList) })

/-- An application needs a shell, which `dash` provides, and a library that `dash` needs too. -/
def treeDemo : Handle :=
  { pkgdb := ⟨[treePkg "app" "app-1_1" ["sh>=0", "lib>=1"] [],
      treePkg "dash" "dash-2_1" ["lib>=1", "sh>=1"] ["sh-1_1"],
      treePkg "lib" "lib-3_1" ["gone>=0"] []], by decide⟩ }

theorem treeDemo_order :
    pkgdbGetPkgFulldeptree treeDemo "app".toList =
        some ["dash-2_1".toList, "lib-3_1".toList] ∧
      ∃ l, pkgdbGetPkgFulldeptree treeDemo "app".toList = some l ∧ l.Nodup ∧
        "app-1_1".toList ∉ l := by
  have hin : TreeInput treeDemo :=
    ⟨by decide +kernel, by decide +kernel, by decide +kernel, by decide +kernel⟩
  obtain ⟨l, hl, hl'⟩ := pkgdbGetPkgFulldeptree_order hin
    (show pkgdbResolve treeDemo "app".toList = some (treePkg "app" "app-1_1" ["sh>=0", "lib>=1"] []).2
      by decide +kernel)
  have hacyclic : Acyclic treeDemo := by
    have hfall : ∀ q ∈ treeDemo.pkgdb.values, ∀ dep ∈ q.runDepends.getD [], ∀ n ∈ depName dep,
        matchPkgnameInArray (q.provides.getD []) n = false →
          ∀ d ∈ pkgdbResolve treeDemo dep,
            treeDemo.pkgdb.values.idxOf q < treeDemo.pkgdb.values.idxOf d ∧
              treeDemo.pkgdb.values.idxOf d < 3 := by decide +kernel
    refine not_transGen_self (f := fun p => 3 - treeDemo.pkgdb.values.idxOf p) ?_
    rintro q d ⟨hq, dep, hdep, n, hn, hprov, hres⟩
    obtain ⟨hlt, hlt'⟩ := hfall q hq dep hdep n hn hprov d hres
    omega
  exact ⟨by decide +kernel, l, hl, (hl' hacyclic).1, (hl' hacyclic).2.1⟩

/-- The dependency of the application has no version. -/
def treePlain : Handle :=
  { pkgdb := ⟨[treePkg "app" "app-1_1" ["lib"] [], treePkg "lib" "lib-3_1" [] []], by decide⟩ }

/-- Nothing is wrong with the database but that a dependency is a plain name, and the process is
aborted. -/
theorem treePlain_aborts :
    (KeysNamed treePlain ∧ (∀ e ∈ treePlain.pkgdb.entries, e.2.pkgname = some e.1) ∧
      (∀ q ∈ treePlain.pkgdb.values, ∀ dep ∈ q.runDepends.getD [],
        (pkgdbResolve treePlain dep).map (fun d => d.pkgname) = some (some dep)) ∧
      ∀ p, ¬ Relation.TransGen (Depends treePlain) p p) ∧
    pkgdbResolve treePlain "app".toList = some (treePkg "app" "app-1_1" ["lib"] []).2 ∧
      pkgdbGetPkgFulldeptree treePlain "app".toList = none := by
  refine ⟨⟨by decide +kernel, by decide +kernel, by decide +kernel, ?_⟩, by decide +kernel,
    by decide +kernel⟩
  have hfall : ∀ q ∈ treePlain.pkgdb.values, ∀ dep ∈ q.runDepends.getD [],
      ∀ d ∈ pkgdbResolve treePlain dep,
        (d.runDepends.getD []).length < (q.runDepends.getD []).length := by decide +kernel
  refine not_transGen_self (f := fun p => (p.runDepends.getD []).length) ?_
  rintro q d ⟨hq, dep, hdep, hres⟩
  exact hfall q hq dep hdep d hres

end Flappy
