/-
Taking a tree apart, node by node.

A tree is a list of nodes with a relation that says when a node lies below another
one.  A node can be removed once nothing lies below it; an extraction brings a node
back, together with the nodes it lies in.

* `Nesting.run` — the nodes that are there after a list of actions;
* `Nesting.cleared_iff` — nothing is left below a node exactly when every node that
  ever was below it can be given a position in the list: there it is removed, after
  every extraction that brings it back and after all nodes below it.
-/
import Mathlib.Data.List.Induction
import Mathlib.Logic.Function.Basic

namespace Clearing

/-- `under d x`: the node `x` lies below `d`. -/
structure Nesting (α : Type*) where
  under : α → α → Bool
  /-- The nodes that a node lies in. -/
  above : α → List α
  mem_above : ∀ d x, d ∈ above x ↔ under d x = true
  trans : ∀ a b c, under a b = true → under b c = true → under a c = true
  irrefl : ∀ a, under a a = false

inductive Action (α : Type*) where
  | remove (x : α)
  | extract (x : α)
deriving DecidableEq, Repr

namespace Nesting

variable {α : Type*} (N : Nesting α)

/-- A removal fails while something lies below the node. -/
def apply [DecidableEq α] (nodes : List α) : Action α → List α
  | .remove x => if nodes.any (N.under x) then nodes else nodes.filter (· ≠ x)
  | .extract x => nodes ++ x :: N.above x

/-- The nodes after the actions. -/
def run [DecidableEq α] (nodes : List α) (acts : List (Action α)) : List α :=
  acts.foldl N.apply nodes

/-- Whatever a node lies in is there. -/
def Closed (nodes : List α) : Prop := ∀ x ∈ nodes, ∀ y, N.under y x = true → y ∈ nodes

/-- Extracting `x` brings `y` back. -/
def Brings (x y : α) : Prop := y = x ∨ N.under y x = true

/-- The node is there at the beginning, or an action brings it. -/
def Seen (nodes : List α) (acts : List (Action α)) (y : α) : Prop :=
  y ∈ nodes ∨ ∃ x, .extract x ∈ acts ∧ N.Brings x y

/-- The removal of `y` at the position `turn y` empties its place for good. -/
structure InTurn (nodes : List α) (acts : List (Action α)) (turn : α → ℕ) (y : α) : Prop where
  removed : acts[turn y]? = some (.remove y)
  later : ∀ i x, acts[i]? = some (.extract x) → N.Brings x y → i < turn y
  inner : ∀ z, N.Seen nodes acts z → N.under y z = true → turn z < turn y

/-- Every node that has gone has its turn. -/
def Turns [DecidableEq α] (nodes : List α) (acts : List (Action α)) (turn : α → ℕ) : Prop :=
  ∀ y, N.Seen nodes acts y → y ∉ N.run nodes acts → N.InTurn nodes acts turn y

variable {N} {nodes : List α} {acts : List (Action α)} {x y : α}

theorem seen_concat_remove :
    N.Seen nodes (acts ++ [.remove x]) y ↔ N.Seen nodes acts y := by
  simp [Seen]

theorem seen_concat_extract :
    N.Seen nodes (acts ++ [.extract x]) y ↔ N.Seen nodes acts y ∨ N.Brings x y := by
  simp only [Seen, List.mem_append, List.mem_singleton, Action.extract.injEq, or_and_right,
    exists_or, exists_eq_left, or_assoc]

/-- One more action that does not touch the node or what was below it. -/
theorem InTurn.concat {turn turn' : α → ℕ} {a : Action α} (h : N.InTurn nodes acts turn y)
    (hturn : turn' y = turn y) (hlater : ∀ x, a = .extract x → ¬ N.Brings x y)
    (hinner : ∀ z, N.Seen nodes (acts ++ [a]) z → N.under y z = true →
      N.Seen nodes acts z ∧ turn' z = turn z) :
    N.InTurn nodes (acts ++ [a]) turn' y := by
  have hlt : turn y < acts.length := (List.getElem?_eq_some_iff.mp h.removed).1
  constructor
  · rw [hturn, List.getElem?_append_left hlt]
    exact h.removed
  · intro i x hi hb
    rw [hturn]
    by_cases hil : i < acts.length
    · rw [List.getElem?_append_left hil] at hi
      exact h.later i x hi hb
    · rw [List.getElem?_append_right (by omega), List.getElem?_singleton] at hi
      split at hi
      · rw [Option.some.injEq] at hi
        exact absurd hb (hlater x hi)
      · cases hi
  · intro z hz hyz
    obtain ⟨hz, he⟩ := hinner z hz hyz
    rw [hturn, he]
    exact h.inner z hz hyz

variable [DecidableEq α]

@[simp] theorem run_nil : N.run nodes [] = nodes := rfl

@[simp] theorem run_concat (a : Action α) :
    N.run nodes (acts ++ [a]) = N.apply (N.run nodes acts) a := by
  simp [run, List.foldl_append]

theorem mem_apply_remove :
    y ∈ N.apply nodes (.remove x) ↔ y ∈ nodes ∧ (y = x → ∃ z ∈ nodes, N.under x z = true) := by
  rw [apply]
  by_cases h : nodes.any (N.under x) = true
  · rw [if_pos h]
    simp only [List.any_eq_true] at h
    simp [h]
  · rw [if_neg h, List.mem_filter]
    simp only [List.any_eq_true] at h
    simp [h]

theorem mem_apply_extract : y ∈ N.apply nodes (.extract x) ↔ y ∈ nodes ∨ N.Brings x y := by
  simp [apply, Brings, N.mem_above]

theorem Closed.apply (h : N.Closed nodes) (a : Action α) : N.Closed (N.apply nodes a) := by
  intro x hx y hyx
  cases a with
  | remove p =>
    rw [mem_apply_remove] at hx ⊢
    refine ⟨h x hx.1 y hyx, ?_⟩
    rintro rfl
    exact ⟨x, hx.1, hyx⟩
  | extract p =>
    rw [mem_apply_extract] at hx ⊢
    rcases hx with hx | rfl | hxp
    · exact Or.inl (h x hx y hyx)
    · exact Or.inr (Or.inr hyx)
    · exact Or.inr (Or.inr (N.trans y x p hyx hxp))

theorem Closed.run (h : N.Closed nodes) (acts : List (Action α)) : N.Closed (N.run nodes acts) := by
  induction acts using List.reverseRecOn with
  | nil => exact h
  | append_singleton acts a ih =>
    rw [run_concat]
    exact ih.apply a

/-- Only nodes that have been seen are there. -/
theorem seen_of_mem_run (h : y ∈ N.run nodes acts) : N.Seen nodes acts y := by
  induction acts using List.reverseRecOn with
  | nil => exact Or.inl h
  | append_singleton acts a ih =>
    rw [run_concat] at h
    cases a with
    | remove x => exact seen_concat_remove.mpr (ih (mem_apply_remove.mp h).1)
    | extract x => exact seen_concat_extract.mpr ((mem_apply_extract.mp h).imp_left ih)

/-! ### From the positions to the nodes -/

/-- A node whose turn has passed is gone. -/
theorem not_mem_run_take {turn : α → ℕ} {d : α}
    (h : ∀ y, N.Seen nodes acts y → N.under d y = true → N.InTurn nodes acts turn y) :
    ∀ n ≤ acts.length, ∀ y, N.Seen nodes acts y → N.under d y = true → turn y < n →
      y ∉ N.run nodes (acts.take n) := by
  intro n
  induction n with
  | zero => intro _ y _ _ hn; omega
  | succ n ih =>
    intro hlen y hy hd hn hmem
    have hget : acts[n]? = some acts[n] := List.getElem?_eq_getElem (by omega)
    rw [List.take_succ_eq_append_getElem (by omega), run_concat] at hmem
    have hturn := h y hy hd
    -- the node was there before the action
    have hbefore : y ∈ N.run nodes (acts.take n) := by
      cases ha : acts[n] with
      | remove x =>
        rw [ha] at hmem
        exact (mem_apply_remove.mp hmem).1
      | extract x =>
        rw [ha] at hmem hget
        rcases mem_apply_extract.mp hmem with hmem | hb
        · exact hmem
        · have := hturn.later n x hget hb
          omega
    by_cases hlt : turn y < n
    · exact ih (by omega) y hy hd hlt hbefore
    · -- the action is the removal of the node, and nothing is left below it
      obtain rfl : turn y = n := by omega
      have hrem : acts[turn y] = .remove y := by
        have := hturn.removed
        rw [hget, Option.some.injEq] at this
        exact this
      rw [hrem] at hmem
      obtain ⟨z, hz, hyz⟩ := (mem_apply_remove.mp hmem).2 rfl
      have hseen : N.Seen nodes acts z := by
        refine (seen_of_mem_run hz).imp_right ?_
        rintro ⟨x, hx, hb⟩
        exact ⟨x, List.mem_of_mem_take hx, hb⟩
      exact ih (by omega) z hseen (N.trans d y z hd hyz) (hturn.inner z hseen hyz) hz

/-! ### From the nodes to the positions -/

/-- What an action brings has not gone. -/
theorem Turns.extract {turn : α → ℕ} (h : N.Turns nodes acts turn) (p : α) :
    N.Turns nodes (acts ++ [.extract p]) turn := by
  intro y hy hmem
  rw [run_concat, mem_apply_extract, not_or] at hmem
  have hy := (seen_concat_extract.mp hy).resolve_right hmem.2
  refine (h y hy hmem.1).concat rfl ?_ fun z hz hyz => ⟨?_, rfl⟩
  · rintro x he
    rw [Action.extract.injEq] at he
    rw [← he]
    exact hmem.2
  · -- what the action brings lies in nodes that it brings
    rcases seen_concat_extract.mp hz with hz | rfl | hzp
    · exact hz
    · exact absurd (Or.inr hyz) hmem.2
    · exact absurd (Or.inr (N.trans y z p hyz hzp)) hmem.2

/-- A node that is removed has its turn at the last position. -/
theorem Turns.remove (hc : N.Closed nodes) {turn : α → ℕ} (h : N.Turns nodes acts turn) {p : α}
    (hp : p ∈ N.run nodes acts) (hempty : ¬ ∃ z ∈ N.run nodes acts, N.under p z = true) :
    N.Turns nodes (acts ++ [.remove p]) (Function.update turn p acts.length) := by
  intro y hy hmem
  rw [seen_concat_remove] at hy
  by_cases hyp : y = p
  · subst hyp
    constructor
    · rw [Function.update_self, List.getElem?_concat_length]
    · intro i x hi _
      have hlt := (List.getElem?_eq_some_iff.mp hi).1
      rw [List.length_append, List.length_singleton] at hlt
      have hne : i ≠ acts.length := by
        rintro rfl
        rw [List.getElem?_concat_length] at hi
        cases hi
      rw [Function.update_self]
      omega
    · intro z hz hyz
      rw [seen_concat_remove] at hz
      have hzy : z ≠ y := by
        rintro rfl
        rw [N.irrefl] at hyz
        cases hyz
      rw [Function.update_self, Function.update_of_ne hzy]
      have hzturn := h z hz fun hin => hempty ⟨z, hin, hyz⟩
      exact (List.getElem?_eq_some_iff.mp hzturn.removed).1
  · -- another node keeps its turn: the one that is removed does not lie below it
    have hrun : y ∉ N.run nodes acts := by
      rw [run_concat, mem_apply_remove] at hmem
      exact fun hin => hmem ⟨hin, fun he => absurd he hyp⟩
    refine (h y hy hrun).concat (Function.update_of_ne hyp _ _) (fun _ he => nomatch he) ?_
    intro z hz hyz
    have hzp : z ≠ p := by
      rintro rfl
      exact hrun (hc.run acts z hp y hyz)
    exact ⟨seen_concat_remove.mp hz, Function.update_of_ne hzp _ _⟩

/-- A removal that fails, or of a node that was gone before. -/
theorem Turns.kept {turn : α → ℕ} (h : N.Turns nodes acts turn) {p : α}
    (hgone : ¬ (p ∈ N.run nodes acts ∧ ¬ ∃ z ∈ N.run nodes acts, N.under p z = true)) :
    N.Turns nodes (acts ++ [.remove p]) turn := by
  intro y hy hmem
  have hrun : y ∉ N.run nodes acts := by
    intro hin
    refine hmem ?_
    rw [run_concat, mem_apply_remove]
    refine ⟨hin, ?_⟩
    rintro rfl
    by_contra hz
    exact hgone ⟨hin, hz⟩
  exact (h y (seen_concat_remove.mp hy) hrun).concat rfl (fun _ he => nomatch he)
    fun z hz _ => ⟨seen_concat_remove.mp hz, rfl⟩

/-- Every node that has gone was removed for good at some position. -/
theorem exists_turn (hc : N.Closed nodes) (acts : List (Action α)) :
    ∃ turn : α → ℕ, N.Turns nodes acts turn := by
  induction acts using List.reverseRecOn with
  | nil =>
    refine ⟨fun _ => 0, fun y hy hmem => ?_⟩
    rcases hy with hy | ⟨x, hx, -⟩
    · exact absurd hy hmem
    · cases hx
  | append_singleton acts a ih =>
    obtain ⟨turn, hturn⟩ := ih
    cases a with
    | extract p => exact ⟨turn, hturn.extract p⟩
    | remove p =>
      by_cases hgone : p ∈ N.run nodes acts ∧ ¬ ∃ z ∈ N.run nodes acts, N.under p z = true
      · exact ⟨Function.update turn p acts.length, hturn.remove hc hgone.1 hgone.2⟩
      · exact ⟨turn, hturn.kept hgone⟩

/-- Nothing is left below a node exactly when every node below it has its turn. -/
theorem cleared_iff (hc : N.Closed nodes) (d : α) :
    (∀ x ∈ N.run nodes acts, N.under d x = false) ↔
      ∃ turn : α → ℕ, ∀ y, N.Seen nodes acts y → N.under d y = true →
        N.InTurn nodes acts turn y := by
  constructor
  · intro h
    obtain ⟨turn, hturn⟩ := exists_turn hc acts
    refine ⟨turn, fun y hy hd => hturn y hy fun hmem => ?_⟩
    rw [h y hmem] at hd
    cases hd
  · rintro ⟨turn, hturn⟩ x hx
    rw [← Bool.not_eq_true]
    intro hd
    have hseen := seen_of_mem_run hx
    have hlt := (List.getElem?_eq_some_iff.mp (hturn x hseen hd).removed).1
    refine not_mem_run_take hturn acts.length (Nat.le_refl _) x hseen hd hlt ?_
    rw [List.take_length]
    exact hx

end Nesting

end Clearing
