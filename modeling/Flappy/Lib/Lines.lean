/-
The lines of a text.

A line ends in a newline; what stands behind the last newline is no line.  A
line is listed together with the text behind it, so that a statement about one
line can speak of all that follows.

* `lines_append` — the first line, and the lines behind it;
* `lines_induction` — induction on the number of lines.
-/
import Flappy.Lib.CStr

namespace CStr

/-- The lines, each with the text behind its newline. -/
def lines : Str → List (Str × Str)
  | [] => []
  | c :: s =>
    if c = '\n' then ([], s) :: lines s
    else
      match lines s with
      | [] => []
      | (line, next) :: rest => (c :: line, next) :: rest

/-- What stands behind the last newline. -/
def lastLine : Str → Str
  | [] => []
  | c :: s => if '\n' ∈ c :: s then lastLine s else c :: s

theorem lines_append {line : Str} (h : '\n' ∉ line) (next : Str) :
    lines (line ++ '\n' :: next) = (line, next) :: lines next := by
  induction line with
  | nil => rw [List.nil_append, lines, if_pos rfl]
  | cons c line ih =>
    rw [List.mem_cons, not_or] at h
    rw [List.cons_append, lines, if_neg (Ne.symm h.1), ih h.2]

theorem lines_eq_nil {s : Str} (h : '\n' ∉ s) : lines s = [] := by
  induction s with
  | nil => rfl
  | cons c s ih =>
    rw [List.mem_cons, not_or] at h
    rw [lines, if_neg (Ne.symm h.1), ih h.2]

theorem lastLine_append (line next : Str) : lastLine (line ++ '\n' :: next) = lastLine next := by
  induction line with
  | nil => rw [List.nil_append, lastLine, if_pos List.mem_cons_self]
  | cons c line ih => rw [List.cons_append, lastLine, if_pos (by simp), ih]

theorem lastLine_eq_self {s : Str} (h : '\n' ∉ s) : lastLine s = s := by
  rcases s with _ | ⟨c, s⟩
  · rfl
  · rw [lastLine, if_neg h]

/-- Induction on the number of lines. -/
theorem lines_induction {P : Str → Prop} (last : ∀ s, '\n' ∉ s → P s)
    (line : ∀ line next, '\n' ∉ line → P next → P (line ++ '\n' :: next)) (s : Str) : P s := by
  induction hn : s.length using Nat.strongRecOn generalizing s with
  | ind n ih =>
    cases hs : strchr '\n' s with
    | none => exact last s (strchr_eq_none.mp hs)
    | some r =>
      obtain ⟨a, b⟩ := r
      obtain ⟨rfl, ha⟩ := strchr_eq_some.mp hs
      rw [List.length_append, List.length_cons] at hn
      exact line a b ha (ih b.length (by omega) b rfl)

theorem mem_lines {s : Str} {l : Str × Str} (h : l ∈ lines s) : '\n' ∉ l.1 := by
  induction s using lines_induction with
  | last s hs =>
    rw [lines_eq_nil hs] at h
    exact absurd h List.not_mem_nil
  | line line next hline ih =>
    rw [lines_append hline] at h
    rcases List.mem_cons.mp h with rfl | h
    · exact hline
    · exact ih h

end CStr
