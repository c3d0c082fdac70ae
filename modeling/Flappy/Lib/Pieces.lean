/-
The pieces of a string between separators.

Several separators in a row, and separators at the ends, make no pieces.

* `pieces_append` — a separator divides the pieces of the two sides;
* `mem_pieces` — a piece is not empty and holds no separator.
-/
import Flappy.Lib.CStr

namespace CStr

/-- The texts between the separators that are not empty. -/
def pieces (c : Char) (s : Str) : List Str := (s.splitOn c).filter fun e => !e.isEmpty

@[simp] theorem pieces_nil (c : Char) : pieces c [] = [] := by
  rw [pieces, List.splitOn_nil]
  rfl

theorem pieces_append (c : Char) (a b : Str) : pieces c (a ++ c :: b) = pieces c a ++ pieces c b := by
  rw [pieces, List.splitOn_append_cons_self, List.filter_append]
  rfl

@[simp] theorem pieces_cons (c : Char) (s : Str) : pieces c (c :: s) = pieces c s := by
  have h := pieces_append c [] s
  rwa [pieces_nil, List.nil_append, List.nil_append] at h

theorem pieces_single {c : Char} {e : Str} (hne : e ≠ []) (hc : c ∉ e) : pieces c e = [e] := by
  rw [pieces, List.splitOn_eq_singleton hc]
  simp [hne]

theorem splitOn_not_mem (c : Char) (s : Str) : ∀ e ∈ s.splitOn c, c ∉ e := by
  induction s with
  | nil => simp [List.splitOn_nil]
  | cons x s ih =>
    rw [List.splitOn_cons_eq_if_modifyHead]
    by_cases hx : (x == c) = true
    · rw [if_pos hx]
      intro e he
      rcases List.mem_cons.mp he with rfl | he
      · simp
      · exact ih e he
    · rw [if_neg hx]
      have hxc : c ≠ x := fun h => hx (by simp [h])
      rcases hsplit : s.splitOn c with _ | ⟨t, ts⟩
      · simp
      · rw [hsplit] at ih
        intro e he
        rcases List.mem_cons.mp he with rfl | he
        · simpa [hxc] using ih t List.mem_cons_self
        · exact ih e (List.mem_cons_of_mem _ he)

theorem mem_pieces {c : Char} {s e : Str} (h : e ∈ pieces c s) : e ≠ [] ∧ c ∉ e := by
  rw [pieces, List.mem_filter] at h
  exact ⟨by simpa using h.2, splitOn_not_mem c s e h.1⟩

end CStr
