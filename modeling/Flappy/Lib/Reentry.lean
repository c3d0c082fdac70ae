/-
A depth-first walk that keeps no marks: it enters what is still on its stack again.

A frame is an element and those of its successors the walk has not taken yet; the first
frame is the one at work.  Some elements taken are entered, the others are passed over.
If an element that was entered once is never passed over while it is on the stack, an
element entered twice keeps the walk in the cycle it came through: its second visit
never ends.

* `Reentry.push`, `Reentry.skip`, `Reentry.pop` — the three steps keep the invariant;
* `Reentry.not_mem_of_done` — a frame that ends is the only one of its element.
-/
import Mathlib.Data.List.Basic

namespace Reentry

variable {α : Type*}

/-- The elements whose visits are going on. -/
def visiting (stack : List (α × List α)) : List α := stack.map Prod.fst

/-- The pairs of elements whose frames are next to each other, the caller first. -/
def calls : List (α × List α) → List (α × α)
  | [] => []
  | [_] => []
  | f :: g :: stack => (g.1, f.1) :: calls (g :: stack)

/-- A frame whose element has a frame further down still has to take the element that
one is waiting for, or waits for the same element (`child`). -/
def Trapped : Option α → List (α × List α) → Prop
  | _, [] => True
  | child, (a, left) :: stack =>
    (∀ b, (a, b) ∈ calls ((a, left) :: stack) → b ∈ left ∨ child = some b) ∧
      Trapped (some a) stack

variable {stack : List (α × List α)} {a b x : α} {left left' : List α} {child : Option α}

@[simp] theorem visiting_cons (f : α × List α) : visiting (f :: stack) = f.1 :: visiting stack :=
  rfl

theorem calls_cons_cons (f g : α × List α) :
    calls (f :: g :: stack) = (g.1, f.1) :: calls (g :: stack) := rfl

theorem mem_calls_cons {f : α × List α} (h : (a, b) ∈ calls stack) :
    (a, b) ∈ calls (f :: stack) := by
  cases stack with
  | nil => exact absurd h (by simp [calls])
  | cons g stack =>
    rw [calls_cons_cons]
    exact List.mem_cons_of_mem _ h

/-- What a frame has left plays no part in who called whom. -/
theorem calls_left (left left' : List α) : calls ((a, left) :: stack) = calls ((a, left') :: stack) := by
  cases stack <;> rfl

theorem mem_visiting_of_call (h : (a, b) ∈ calls stack) : b ∈ visiting stack := by
  induction stack with
  | nil => exact absurd h (by simp [calls])
  | cons f stack ih =>
    cases stack with
    | nil => exact absurd h (by simp [calls])
    | cons g stack =>
      rw [calls_cons_cons, List.mem_cons] at h
      rcases h with h | h
      · have : b = f.1 := congrArg Prod.snd h
        simp [this]
      · exact List.mem_cons_of_mem _ (ih h)

/-- Every frame but the one at work waits for a call. -/
theorem exists_call {f : α × List α} (h : a ∈ visiting stack) :
    ∃ b, (a, b) ∈ calls (f :: stack) := by
  induction stack generalizing f with
  | nil => exact absurd h (by simp [visiting])
  | cons g stack ih =>
    rw [visiting_cons, List.mem_cons] at h
    rcases h with rfl | h
    · exact ⟨f.1, List.mem_cons_self⟩
    · obtain ⟨b, hb⟩ := ih (f := g) h
      exact ⟨b, List.mem_cons_of_mem _ hb⟩

/-- A frame that ends is the only one of its element. -/
theorem not_mem_of_done (h : Trapped none ((a, []) :: stack)) : a ∉ visiting stack := by
  intro hmem
  obtain ⟨b, hb⟩ := exists_call (f := (a, [])) hmem
  rcases h.1 b hb with hb | hb
  · exact absurd hb List.not_mem_nil
  · exact absurd hb (by simp)

theorem pop (h : Trapped none ((a, []) :: stack)) : Trapped none stack := by
  have hnot := not_mem_of_done h
  obtain ⟨-, h⟩ := h
  cases stack with
  | nil => trivial
  | cons f stack =>
    obtain ⟨c, left⟩ := f
    refine ⟨fun b hb => ?_, h.2⟩
    rcases h.1 b hb with hleft | hchild
    · exact Or.inl hleft
    · obtain rfl : a = b := Option.some.inj hchild
      exact absurd (mem_visiting_of_call hb) hnot

/-- Passing over an element that no frame waits for. -/
theorem skip (hx : ∀ c, (c, x) ∉ calls ((a, x :: left) :: stack))
    (h : Trapped none ((a, x :: left) :: stack)) : Trapped none ((a, left) :: stack) := by
  refine ⟨fun b hb => ?_, h.2⟩
  rw [calls_left left (x :: left)] at hb
  rcases h.1 b hb with hleft | hchild
  · rcases List.mem_cons.mp hleft with rfl | hleft
    · exact absurd hb (hx a)
    · exact Or.inl hleft
  · exact absurd hchild (by simp)

/-- Entering an element: `next` are its successors. -/
theorem push {next : α → List α}
    (hcalls : ∀ c b, (c, b) ∈ calls ((a, x :: left) :: stack) → b ∈ next c)
    (hx : x ∈ next a) (h : Trapped none ((a, x :: left) :: stack)) :
    Trapped none ((x, next x) :: (a, left) :: stack) := by
  refine ⟨fun b hb => Or.inl ?_, fun b hb => ?_, h.2⟩
  · rw [calls_cons_cons, List.mem_cons] at hb
    rcases hb with hb | hb
    · obtain ⟨rfl, rfl⟩ := Prod.mk.injEq .. ▸ hb
      exact hx
    · rw [calls_left left (x :: left)] at hb
      exact hcalls x b hb
  · rw [calls_left left (x :: left)] at hb
    rcases h.1 b hb with hleft | hchild
    · rcases List.mem_cons.mp hleft with rfl | hleft
      · exact Or.inr rfl
      · exact Or.inl hleft
    · exact absurd hchild (by simp)

end Reentry
