/-
Broken reverse dependencies (`lib/transaction_check_revdeps.c`).

For every entry of the transaction that changes or removes an installed package,
the packages that depend on it are checked against what the transaction makes of
it.  What is found broken is added to `missing_deps`, as text.
-/
import Flappy.Pkgdb

open CStr

namespace Flappy

/-- The message about a virtual package. -/
def brokenVirtual (revpkgver pkgpattern vpkgver : Str) : Str :=
  revpkgver ++ " broken, needs '".toList ++ pkgpattern ++ "' virtual pkg (got `".toList ++
    vpkgver ++ "')".toList

/-- The message about a package. -/
def brokenPkg (dep pkg : Str) : Str :=
  pkg ++ " in transaction breaks installed pkg `".toList ++ dep ++ "'".toList

/-- The dependencies of one reverse dependency that a provided package has the name
of, but does not match. -/
def unmetVirtual (vpkgver vpkgname : Str) (rundeps : List Str) : List Str :=
  rundeps.filter fun pkgpattern =>
    depName pkgpattern = some vpkgname ∧
      ¬ (vpkgver = pkgpattern ∨ pkgpatternMatch vpkgver pkgpattern = true)

/-- `check_virtual_pkgs` for the reverse dependency `revpkgver` with these dependencies:
the messages it adds. -/
def checkVirtualPkgs (revpkgver : Str) (rundeps : List Str) : List Str → List Str
  | [] => []
  | vpkgver :: provides =>
    match pkgName vpkgver with
    | none => []
    | some vpkgname =>
      ((unmetVirtual vpkgver vpkgname rundeps).map fun pkgpattern =>
        brokenVirtual revpkgver pkgpattern vpkgver) ++ checkVirtualPkgs revpkgver rundeps provides

/-- Is one of the dependencies filed under this name?  `none` if one that comes before
it has no name. -/
def dependsOnName (curpkgname : Str) : List Str → Option Bool
  | [] => some false
  | curdep :: rundeps =>
    match depName curdep with
    | none => none
    | some curdepname =>
      if curdepname = curpkgname then some true else dependsOnName curpkgname rundeps

/-- The dictionary of a reverse dependency: its entry in the transaction, else the
installed package. -/
def revdepDict (xhp : Handle) (pkgs : List PkgDict) (pkgname curpkgver : Str) : Option PkgDict :=
  (findPkgInArray pkgs pkgname .unknown).or (pkgdbGetPkg xhp curpkgver)

/-- The check of a reverse dependency, with these dependencies, against an entry that
changes the package. -/
def checkChanged (pkgs : List PkgDict) (obj : PkgDict) (pkgname curpkgver revpkgver : Str)
    (rundeps : List Str) : Option (List Str) :=
  let virtual := checkVirtualPkgs revpkgver rundeps (obj.provides.getD [])
  if virtual ≠ [] then some virtual
  else
    match pkgName obj.pkgver with
    | none => none
    | some curpkgname =>
      match dependsOnName curpkgname rundeps with
      | none => none
      | some false => some []
      | some true =>
        if matchPkgdepInArray rundeps obj.pkgver then some []
        -- a new version of the dependent package is in the transaction
        else if (findPkgInArray pkgs pkgname .update).isSome then some []
        else some [brokenPkg curpkgver obj.pkgver]

/-- The body of the inner loop: the reverse dependency `curpkgver` of the entry `obj`.
`none` is the return value `false`. -/
def checkRevdep (xhp : Handle) (pkgs : List PkgDict) (obj : PkgDict) (curpkgver : Str) :
    Option (List Str) :=
  match pkgName curpkgver with
  | none => none
  | some pkgname =>
    if (findPkgInArray pkgs pkgname .unknown).map PkgDict.transaction = some .remove then some []
    else if obj.transaction = .remove then
      if obj.replaced.isSome then some []
      else if (findPkgInArray pkgs pkgname .remove).isSome then some []
      else some [brokenPkg curpkgver obj.pkgver]
    else
      let revpkgd := revdepDict xhp pkgs pkgname curpkgver
      checkChanged pkgs obj pkgname curpkgver ((revpkgd.map PkgDict.pkgver).getD [])
        ((revpkgd.bind PkgDict.runDepends).getD [])

/-- The body of the outer loop: an entry of the transaction. -/
def checkRevdepsOf (xhp : Handle) (pkgs : List PkgDict) (obj : PkgDict) : Option (List Str) :=
  if obj.transaction = .hold then some []
  else
    match pkgName obj.pkgver with
    | none => none
    | some pkgname =>
      if obj.transaction = .install then some []
      else
        match pkgdbGetPkgRevdeps xhp pkgname with
        | none => none
        | some pkgrdeps =>
          if pkgrdeps = [] then some []
          else if pkgIsIgnored xhp obj.pkgver then some []
          else gather (checkRevdep xhp pkgs obj) pkgrdeps

/-- `flappy_transaction_check_revdeps`: `missing_deps` afterwards, the inner `none` if it
was removed; the outer `none` is the return value `false` (or the end of the process). -/
def transactionCheckRevdeps (xhp : Handle) (pkgs : List PkgDict) (mdeps : Option (List Str)) :
    Option (Option (List Str)) :=
  (gather (checkRevdepsOf xhp pkgs) pkgs).map fun found =>
    match mdeps with
    | none => none
    | some mdeps => if mdeps ++ found = [] then none else some (mdeps ++ found)

end Flappy
