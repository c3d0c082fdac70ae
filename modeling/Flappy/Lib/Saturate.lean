/-
Saturation: repeat a scan until it adds nothing.

A *pass* walks a list of candidates once and appends to an accumulator every
candidate that the test accepts; the test sees the accumulator as it grows.
`saturate` repeats passes until one adds nothing.  When the test accepts
exactly the candidates that are not in yet and are *ready* relative to the
accumulator, and readiness is monotone, the result is the least set closed
under readiness (`saturate_isLeast`), whatever the order of the candidates.

The test may fail (`none`), which ends the whole run.
-/
import Mathlib.Order.Bounds.Basic
import Mathlib.Data.List.Nodup
import Mathlib.Data.List.Perm.Subperm

namespace Saturate

variable {α : Type*}

/-- One pass over the candidates: the accumulator, and whether it grew. -/
def pass (add : List α → α → Option Bool) : List α → List α → Option (List α × Bool)
  | [], acc => some (acc, false)
  | p :: ps, acc =>
    match add acc p with
    | none => none
    | some true => (pass add ps (acc ++ [p])).map fun r => (r.1, true)
    | some false => pass add ps acc

/-- Passes over `db` until one adds nothing; `none` when the test fails or the
fuel runs out. -/
def saturate (add : List α → α → Option Bool) (db : List α) : Nat → List α → Option (List α)
  | 0, _ => none
  | n + 1, acc =>
    match pass add db acc with
    | none => none
    | some (acc', true) => saturate add db n acc'
    | some (acc', false) => some acc'

/-- A set is closed if every candidate that is ready relative to it is in it. -/
def Closed (ready : Set α → α → Prop) (db : List α) (S : Set α) : Prop :=
  ∀ p ∈ db, ready S p → p ∈ S

/-- More in the set never makes a candidate unready. -/
def MonotoneReady (ready : Set α → α → Prop) : Prop :=
  ∀ S T p, S ⊆ T → ready S p → ready T p

/-- What holds of the accumulator at any time: no duplicates, candidates only,
and nothing that some closed set leaves out. -/
structure Sound (ready : Set α → α → Prop) (db acc : List α) : Prop where
  nodup : acc.Nodup
  subset : ∀ p ∈ acc, p ∈ db
  least : ∀ S, Closed ready db S → ∀ p ∈ acc, p ∈ S

variable {ready : Set α → α → Prop} {add : List α → α → Option Bool} {db : List α}

theorem Sound.nil : Sound ready db [] :=
  ⟨List.nodup_nil, fun _ h => absurd h List.not_mem_nil, fun _ _ _ h => absurd h List.not_mem_nil⟩

/-- Appending a ready candidate keeps the accumulator sound. -/
theorem Sound.snoc (hmono : MonotoneReady ready)
    {acc : List α} {p : α} (h : Sound ready db acc) (hp : p ∈ db) (hn : p ∉ acc)
    (hr : ready {x | x ∈ acc} p) : Sound ready db (acc ++ [p]) := by
  refine ⟨?_, ?_, ?_⟩
  · rw [List.nodup_append]
    exact ⟨h.nodup, List.nodup_singleton p, fun a ha b hb hab => by
      rw [List.mem_singleton] at hb
      exact hn (hb ▸ hab ▸ ha)⟩
  · intro q hq
    rw [List.mem_append, List.mem_singleton] at hq
    rcases hq with hq | rfl
    · exact h.subset q hq
    · exact hp
  · intro S hS q hq
    rw [List.mem_append, List.mem_singleton] at hq
    rcases hq with hq | rfl
    · exact h.least S hS q hq
    · exact hS q hp (hmono _ _ q (fun x hx => h.least S hS x hx) hr)

theorem Sound.length_le {acc : List α} (h : Sound ready db acc) : acc.length ≤ db.length :=
  (List.subperm_of_subset h.nodup h.subset).length_le

/-- The test decides readiness, on accumulators made of candidates. -/
def Decides (ready : Set α → α → Prop) (add : List α → α → Option Bool) (db : List α) : Prop :=
  ∀ acc, (∀ x ∈ acc, x ∈ db) → ∀ p ∈ db,
    ∃ b, add acc p = some b ∧ (b = true ↔ p ∉ acc ∧ ready {x | x ∈ acc} p)

/-- One pass keeps the accumulator sound; it grows iff something was added, and
if nothing was, no visited candidate is missing. -/
theorem pass_spec (hmono : MonotoneReady ready)
    (hadd : Decides ready add db) : ∀ {ps acc : List α}, (∀ p ∈ ps, p ∈ db) →
      Sound ready db acc → ∃ acc' b, pass add ps acc = some (acc', b) ∧ Sound ready db acc' ∧
        (b = true → acc.length < acc'.length) ∧
        (b = false → acc' = acc ∧ ∀ p ∈ ps, ready {x | x ∈ acc} p → p ∈ acc) := by
  intro ps
  induction ps with
  | nil =>
    intro acc _ hs
    exact ⟨acc, false, rfl, hs, by simp, by simp⟩
  | cons p ps ih =>
    intro acc hps hs
    have hp : p ∈ db := hps p List.mem_cons_self
    have hps' : ∀ q ∈ ps, q ∈ db := fun q hq => hps q (List.mem_cons_of_mem p hq)
    obtain ⟨b, hb, hiff⟩ := hadd acc hs.subset p hp
    cases b with
    | true =>
      obtain ⟨hn, hr⟩ := hiff.mp rfl
      obtain ⟨acc', b', hpass, hs', hgrow, hstay⟩ := ih hps' (hs.snoc hmono hp hn hr)
      refine ⟨acc', true, ?_, hs', fun _ => ?_, by simp⟩
      · simp [pass, hb, hpass]
      · cases b' with
        | true =>
          have := hgrow rfl
          simp only [List.length_append, List.length_singleton] at this
          omega
        | false => simp [(hstay rfl).1]
    | false =>
      obtain ⟨acc', b', hpass, hs', hgrow, hstay⟩ := ih hps' hs
      refine ⟨acc', b', ?_, hs', hgrow, fun hb' => ⟨(hstay hb').1, ?_⟩⟩
      · simp [pass, hb, hpass]
      · rw [List.forall_mem_cons]
        refine ⟨fun hr => ?_, (hstay hb').2⟩
        by_contra hn
        exact absurd (hiff.mpr ⟨hn, hr⟩) (by simp)

/-- Enough fuel for every candidate not yet in gives a sound and closed result. -/
theorem saturate_spec (hmono : MonotoneReady ready)
    (hadd : Decides ready add db) : ∀ {n : Nat} {acc : List α},
      Sound ready db acc → db.length < acc.length + n →
        ∃ res, saturate add db n acc = some res ∧ Sound ready db res ∧
          Closed ready db {x | x ∈ res} := by
  intro n
  induction n with
  | zero =>
    intro acc hs hlen
    have := hs.length_le
    omega
  | succ n ih =>
    intro acc hs hlen
    obtain ⟨acc', b, hpass, hs', hgrow, hstay⟩ := pass_spec hmono hadd (fun p hp => hp) hs
    cases b with
    | true =>
      obtain ⟨res, hres, hsound, hclosed⟩ := ih hs' (by have := hgrow rfl; omega)
      exact ⟨res, by simp [saturate, hpass, hres], hsound, hclosed⟩
    | false =>
      obtain ⟨rfl, hall⟩ := hstay rfl
      exact ⟨acc', by simp [saturate, hpass], hs', hall⟩

/-- **Saturation computes the least closed set.**  The result has no
duplicates, holds candidates only, and is the least set closed under
readiness; the fuel `db.length + 1` suffices. -/
theorem saturate_isLeast (hmono : MonotoneReady ready)
    (hadd : Decides ready add db) :
    ∃ res, saturate add db (db.length + 1) [] = some res ∧ res.Nodup ∧ (∀ p ∈ res, p ∈ db) ∧
      IsLeast {S | Closed ready db S} {x | x ∈ res} := by
  obtain ⟨res, hres, hsound, hclosed⟩ :=
    saturate_spec hmono hadd (show Sound ready db [] from Sound.nil) (n := db.length + 1) (by
      rw [List.length_nil]
      omega)
  exact ⟨res, hres, hsound.nodup, hsound.subset, hclosed,
    fun S hS p hp => hsound.least S hS p hp⟩

end Saturate
