/-
Paths as lists of elements.

A path is read as its elements between the slashes.  Its lexical normal form
drops empty and `.` elements and lets `..` cancel the ordinary element before
it; what cannot be cancelled stays in front of a relative path and is dropped
at the root of an absolute one.

* `normal_isNormal`, `normal_eq_self` — the fold reaches a normal list, and
  leaves normal lists alone;
* `elements_render` — a rendered normal list is read back;
* `clean_clean`, `isAbs_clean`, `clean_length_le` — the normal form of a path.
-/
import Flappy.Lib.Pieces
import Mathlib.Data.List.Induction
import Mathlib.Algebra.GroupWithZero.Nat

open CStr

namespace Path

/-- The element for the directory itself. -/
def dot : Str := ['.']

/-- The element for the parent directory. -/
def dotdot : Str := ['.', '.']

/-- What can stand between two slashes. -/
def Element (e : Str) : Prop := e ≠ [] ∧ '/' ∉ e

/-- An element that names a directory entry. -/
structure Ordinary (e : Str) : Prop where
  element : Element e
  ne_dot : e ≠ dot
  ne_dotdot : e ≠ dotdot

instance (e : Str) : Decidable (Element e) := inferInstanceAs (Decidable (_ ∧ _))

instance (e : Str) : Decidable (Ordinary e) :=
  decidable_of_iff (Element e ∧ e ≠ dot ∧ e ≠ dotdot)
    ⟨fun h => ⟨h.1, h.2.1, h.2.2⟩, fun h => ⟨h.element, h.ne_dot, h.ne_dotdot⟩⟩

/-- The elements of a path. -/
def elements (s : Str) : List Str := pieces '/' s

/-- The elements with a slash between them. -/
def join (es : List Str) : Str := ['/'].intercalate es

/-- The path starts at the root. -/
def isAbs (s : Str) : Bool := s.head? = some '/'

/-- One element behind a normal list. -/
def push (rooted : Bool) (es : List Str) (e : Str) : List Str :=
  if e = dot then es
  else if e = dotdot then
    match es.getLast? with
    | none => if rooted then [] else [dotdot]
    | some t => if t = dotdot then es ++ [dotdot] else es.dropLast
  else es ++ [e]

/-- The normal form of a list of elements. -/
def normal (rooted : Bool) (es : List Str) : List Str := es.foldl (push rooted) []

/-- The path with the given elements. -/
def render (rooted : Bool) (es : List Str) : Str :=
  if rooted then '/' :: join es else if es = [] then dot else join es

/-- The lexical normal form of a path. -/
def clean (s : Str) : Str := render (isAbs s) (normal (isAbs s) (elements s))

/-! ### Elements -/

@[simp] theorem elements_nil : elements [] = [] := rfl

/-- The slash between two paths separates their elements. -/
theorem elements_append (a b : Str) : elements (a ++ '/' :: b) = elements a ++ elements b :=
  pieces_append '/' a b

@[simp] theorem elements_slash (s : Str) : elements ('/' :: s) = elements s := elements_append [] s

theorem elements_single {e : Str} (he : Element e) : elements e = [e] := pieces_single he.1 he.2

/-- A path is at its end, or at a slash. -/
def AtEnd (s : Str) : Prop := s = [] ∨ s.head? = some '/'

/-- The text from the first slash on. -/
theorem atEnd_dropWhile (s : Str) : AtEnd (s.dropWhile (· ≠ '/')) := by
  induction s with
  | nil => exact Or.inl rfl
  | cons c s ih =>
    by_cases hc : c = '/'
    · subst hc
      exact Or.inr rfl
    · rw [List.dropWhile_cons_of_pos (by simpa using hc)]
      exact ih

theorem elements_cons {e s : Str} (he : Element e) (hs : AtEnd s) :
    elements (e ++ s) = e :: elements s := by
  rcases s with _ | ⟨c, s⟩
  · rw [List.append_nil, elements_single he, elements_nil]
  · obtain rfl : c = '/' := by simpa [AtEnd] using hs
    rw [elements_append, elements_single he, elements_slash]
    rfl

theorem exists_root {s : Str} (h : isAbs s = true) : ∃ t, s = '/' :: t := by
  rcases s with _ | ⟨c, t⟩
  · cases h
  · exact ⟨t, by simpa [isAbs] using h⟩

theorem element_of_mem {s e : Str} (h : e ∈ elements s) : Element e := by
  exact mem_pieces h

/-! ### Joining -/

@[simp] theorem join_nil : join [] = [] := rfl

@[simp] theorem join_single (e : Str) : join [e] = e := List.intercalate_singleton

theorem join_cons {es : List Str} (e : Str) (h : es ≠ []) : join (e :: es) = e ++ '/' :: join es := by
  rw [join, List.intercalate_cons_of_ne_nil h]
  simp [join]

theorem join_append {es fs : List Str} (he : es ≠ []) (hf : fs ≠ []) :
    join (es ++ fs) = join es ++ '/' :: join fs := by
  induction es with
  | nil => exact absurd rfl he
  | cons e es ih =>
    rw [List.cons_append, join_cons e (by simp [hf])]
    rcases es with _ | ⟨e', es⟩
    · rw [join_single, List.nil_append]
    · rw [ih (by simp), join_cons e (by simp), List.append_assoc]
      rfl

theorem elements_join {es : List Str} (h : ∀ e ∈ es, Element e) : elements (join es) = es := by
  induction es with
  | nil => rfl
  | cons e es ih =>
    have he : Element e := h e List.mem_cons_self
    rcases es with _ | ⟨e', es⟩
    · rw [join_single, elements_single he]
    · rw [join_cons e (by simp), elements_append, elements_single he,
        ih fun x hx => h x (List.mem_cons_of_mem _ hx)]
      rfl

theorem join_ne_nil {es : List Str} (h : ∀ e ∈ es, Element e) (hne : es ≠ []) : join es ≠ [] := by
  intro hnil
  have hes := elements_join h
  rw [hnil] at hes
  exact hne hes.symm

theorem join_head {es : List Str} (h : ∀ e ∈ es, Element e) : (join es).head? ≠ some '/' := by
  rcases es with _ | ⟨e, es⟩
  · simp
  · obtain ⟨hne, hslash⟩ := h e List.mem_cons_self
    obtain ⟨c, e', rfl⟩ := List.exists_cons_of_ne_nil hne
    have hc : c ≠ '/' := fun heq => hslash (by simp [heq])
    rcases es with _ | ⟨f, es⟩
    · simpa using hc
    · rw [join_cons _ (by simp)]
      simpa using hc

/-! ### Normal lists -/

/-- A list in normal form: `..` elements in front, none of them below the root. -/
def IsNormal (rooted : Bool) (es : List Str) : Prop :=
  ∃ k os, es = List.replicate k dotdot ++ os ∧ (∀ o ∈ os, Ordinary o) ∧ (rooted = true → k = 0)

theorem dotdot_element : Element dotdot := by simp [Element, dotdot]

theorem IsNormal.element {rooted : Bool} {es : List Str} (h : IsNormal rooted es) :
    ∀ e ∈ es, Element e := by
  obtain ⟨k, os, rfl, hos, -⟩ := h
  intro e he
  rcases List.mem_append.mp he with he | he
  · rw [List.eq_of_mem_replicate he]
    exact dotdot_element
  · exact (hos e he).element

theorem isNormal_nil (rooted : Bool) : IsNormal rooted [] := ⟨0, [], rfl, by simp, fun _ => rfl⟩

/-- Behind `..` elements alone, one more of them stays; at the root it is dropped. -/
theorem push_dotdot_replicate (rooted : Bool) (k : Nat) (hk : rooted = true → k = 0) :
    push rooted (List.replicate k dotdot) dotdot =
      if rooted then [] else List.replicate (k + 1) dotdot := by
  have hne : dotdot ≠ dot := by simp [dotdot, dot]
  rw [push, if_neg hne, if_pos rfl]
  rcases k with _ | k
  · rfl
  · have hlast : (List.replicate (k + 1) dotdot).getLast? = some dotdot := by
      rw [List.replicate_succ', List.getLast?_concat]
    rw [hlast]
    cases rooted with
    | false =>
      simp only [if_true]
      exact List.replicate_succ'.symm
    | true => exact absurd (hk rfl) (by simp)

/-- A `..` cancels the ordinary element before it. -/
theorem push_dotdot_concat (rooted : Bool) (es : List Str) {o : Str} (ho : Ordinary o) :
    push rooted (es ++ [o]) dotdot = es := by
  have hne : dotdot ≠ dot := by simp [dotdot, dot]
  rw [push, if_neg hne, if_pos rfl, List.getLast?_concat]
  simp only [ho.ne_dotdot, if_false]
  exact List.dropLast_concat

theorem push_ordinary (rooted : Bool) (es : List Str) {o : Str} (ho : Ordinary o) :
    push rooted es o = es ++ [o] := by
  rw [push, if_neg ho.ne_dot, if_neg ho.ne_dotdot]

theorem push_ordinaries (rooted : Bool) (es : List Str) {os : List Str}
    (hos : ∀ o ∈ os, Ordinary o) : os.foldl (push rooted) es = es ++ os := by
  induction os generalizing es with
  | nil => simp
  | cons o os ih =>
    rw [List.foldl_cons, push_ordinary rooted es (hos o List.mem_cons_self),
      ih _ fun x hx => hos x (List.mem_cons_of_mem _ hx)]
    simp

/-- As many `..` elements as there are ordinary ones before them cancel these. -/
theorem push_dotdots (rooted : Bool) (es : List Str) {os : List Str} (hos : ∀ o ∈ os, Ordinary o) :
    (List.replicate os.length dotdot).foldl (push rooted) (es ++ os) = es := by
  induction os using List.reverseRecOn with
  | nil => simp
  | append_singleton os o ih =>
    rw [List.length_append, List.length_singleton, List.replicate_succ, List.foldl_cons,
      ← List.append_assoc, push_dotdot_concat rooted _ (hos o (by simp))]
    exact ih fun x hx => hos x (by simp [hx])

/-- An element behind a normal list leaves a normal list. -/
theorem IsNormal.push {rooted : Bool} {es : List Str} (h : IsNormal rooted es) {e : Str}
    (he : Element e) : IsNormal rooted (push rooted es e) := by
  obtain ⟨k, os, rfl, hos, hk⟩ := h
  by_cases hdot : e = dot
  · rw [Path.push, if_pos hdot]
    exact ⟨k, os, rfl, hos, hk⟩
  by_cases hdd : e = dotdot
  · subst hdd
    rcases List.eq_nil_or_concat' os with rfl | ⟨os, o, rfl⟩
    · rw [List.append_nil, push_dotdot_replicate rooted k hk]
      cases rooted with
      | true => exact isNormal_nil true
      | false => exact ⟨k + 1, [], by simp, by simp, by simp⟩
    · rw [← List.append_assoc, push_dotdot_concat rooted _ (hos o (by simp))]
      exact ⟨k, os, rfl, fun x hx => hos x (by simp [hx]), hk⟩
  · have ho : Ordinary e := ⟨he, hdot, hdd⟩
    rw [push_ordinary rooted _ ho]
    refine ⟨k, os ++ [e], by simp, ?_, hk⟩
    intro x hx
    rcases List.mem_append.mp hx with hx | hx
    · exact hos x hx
    · rw [List.mem_singleton.mp hx]
      exact ho

/-- The fold reaches a normal list. -/
theorem normal_isNormal (rooted : Bool) {es : List Str} (h : ∀ e ∈ es, Element e) :
    IsNormal rooted (normal rooted es) := by
  induction es using List.reverseRecOn with
  | nil => exact isNormal_nil rooted
  | append_singleton es e ih =>
    rw [normal, List.foldl_concat]
    exact IsNormal.push (ih fun x hx => h x (by simp [hx])) (h e (by simp))

/-- A normal list is its own normal form. -/
theorem normal_eq_self {rooted : Bool} {es : List Str} (h : IsNormal rooted es) :
    normal rooted es = es := by
  obtain ⟨k, os, rfl, hos, hk⟩ := h
  have hdd : normal rooted (List.replicate k dotdot) = List.replicate k dotdot := by
    induction k with
    | zero => rfl
    | succ k ih =>
      cases rooted with
      | true => exact absurd (hk rfl) (by simp)
      | false =>
        rw [List.replicate_succ', normal, List.foldl_concat]
        have hfold : (List.replicate k dotdot).foldl (push false) [] = List.replicate k dotdot :=
          ih (by simp)
        rw [hfold, push_dotdot_replicate false k (by simp), ← List.replicate_succ']
        rfl
  rw [normal, List.foldl_append]
  have hfold : (List.replicate k dotdot).foldl (push rooted) [] = List.replicate k dotdot := hdd
  rw [hfold, push_ordinaries rooted _ hos]

/-! ### The normal form of a path -/

/-- Rendering keeps the elements of a normal list, and the root. -/
theorem normal_render {rooted : Bool} {es : List Str} (h : IsNormal rooted es) :
    normal rooted (elements (render rooted es)) = es := by
  rw [render]
  cases rooted with
  | true =>
    rw [if_pos rfl, elements_slash, elements_join h.element, normal_eq_self h]
  | false =>
    rw [if_neg (by simp)]
    by_cases hes : es = []
    · subst hes
      rfl
    · rw [if_neg hes, elements_join h.element, normal_eq_self h]

theorem isAbs_render {rooted : Bool} {es : List Str} (h : ∀ e ∈ es, Element e) :
    isAbs (render rooted es) = rooted := by
  rw [render]
  cases rooted with
  | true => rfl
  | false =>
    rw [if_neg (by simp)]
    by_cases hes : es = []
    · subst hes
      rfl
    · rw [if_neg hes, isAbs]
      simpa using join_head h

theorem normal_elements (s : Str) (rooted : Bool) : IsNormal rooted (normal rooted (elements s)) :=
  normal_isNormal rooted fun _ he => element_of_mem he

/-- The normal form of an absolute path is absolute, that of a relative one relative. -/
theorem isAbs_clean (s : Str) : isAbs (clean s) = isAbs s :=
  isAbs_render (normal_elements s (isAbs s)).element

theorem clean_clean (s : Str) : clean (clean s) = clean s := by
  rw [clean, isAbs_clean]
  have hes : normal (isAbs s) (elements (clean s)) = normal (isAbs s) (elements s) :=
    normal_render (normal_elements s (isAbs s))
  rw [hes]
  rfl

/-! ### Lengths -/

/-- The elements with one slash for each. -/
def weight (es : List Str) : Nat := (es.map fun e => e.length + 1).sum

@[simp] theorem weight_append (es fs : List Str) : weight (es ++ fs) = weight es + weight fs := by
  simp [weight]

@[simp] theorem weight_single (e : Str) : weight [e] = e.length + 1 := by simp [weight]

theorem join_length {es : List Str} (h : es ≠ []) : (join es).length + 1 = weight es := by
  induction es with
  | nil => exact absurd rfl h
  | cons e es ih =>
    rcases es with _ | ⟨e', es⟩
    · simp [weight]
    · have hlen := ih (by simp)
      rw [join_cons e (by simp), List.length_append, List.length_cons]
      simp only [weight, List.map_cons, List.sum_cons] at hlen ⊢
      omega

theorem elements_weight (s : Str) : weight (elements s) ≤ s.length + 1 := by
  induction hn : s.length using Nat.strongRecOn generalizing s with
  | ind n ih =>
    by_cases hslash : '/' ∈ s
    · obtain ⟨a, b, rfl, ha⟩ := List.eq_append_cons_of_mem hslash
      rw [List.length_append, List.length_cons] at hn
      have hleft := ih a.length (by omega) a rfl
      have hright := ih b.length (by omega) b rfl
      rw [elements_append, weight_append]
      omega
    · by_cases hs : s = []
      · subst hs
        simp [weight]
      · rw [elements_single ⟨hs, hslash⟩]
        simp [weight, hn]

theorem push_weight (rooted : Bool) (es : List Str) (e : Str) :
    weight (push rooted es e) ≤ weight es + (e.length + 1) := by
  rw [push]
  by_cases hdot : e = dot
  · rw [if_pos hdot]
    omega
  rw [if_neg hdot]
  by_cases hdd : e = dotdot
  · subst hdd
    rw [if_pos rfl]
    rcases List.eq_nil_or_concat' es with rfl | ⟨es, t, rfl⟩
    · cases rooted <;> simp [weight, dotdot]
    · rw [List.getLast?_concat, List.dropLast_concat]
      simp only
      by_cases ht : t = dotdot
      · rw [if_pos ht]
        exact Nat.le_of_eq (by rw [weight_append (es ++ [t]), weight_single])
      · rw [if_neg ht, weight_append]
        omega
  · rw [if_neg hdd]
    exact Nat.le_of_eq (by rw [weight_append, weight_single])

theorem normal_weight (rooted : Bool) (es : List Str) : weight (normal rooted es) ≤ weight es := by
  induction es using List.reverseRecOn with
  | nil => exact Nat.le_refl _
  | append_singleton es e ih =>
    rw [normal, List.foldl_concat, weight_append, weight_single]
    have hpush := push_weight rooted (es.foldl (push rooted) []) e
    rw [normal] at ih
    omega

/-- The normal form fits where the path was; only the empty path grows, to a dot. -/
theorem clean_length_le (s : Str) : (clean s).length ≤ max 1 s.length := by
  have hw := normal_weight (isAbs s) (elements s)
  rw [clean, render]
  generalize hes : normal (isAbs s) (elements s) = es at hw ⊢
  cases habs : isAbs s with
  | true =>
    rw [if_pos rfl, List.length_cons]
    obtain ⟨s, rfl⟩ := exists_root habs
    rw [elements_slash] at hw
    have hs := elements_weight s
    by_cases hnil : es = []
    · simp [hnil]
    · have hlen := join_length hnil
      rw [List.length_cons]
      omega
  | false =>
    rw [if_neg (by simp)]
    have hs := elements_weight s
    by_cases hnil : es = []
    · rw [if_pos hnil]
      exact Nat.le_max_left 1 s.length
    · rw [if_neg hnil]
      have hlen := join_length hnil
      omega

/-! ### Absolute paths -/

/-- The elements with a slash before each of them. -/
def slashed (es : List Str) : Str := es.flatMap ('/' :: ·)

@[simp] theorem slashed_nil : slashed [] = [] := rfl

@[simp] theorem slashed_cons (e : Str) (es : List Str) : slashed (e :: es) = '/' :: e ++ slashed es := rfl

/-- The elements below the root of a path. -/
def absElements (s : Str) : List Str := normal true (elements s)

theorem slash_join {es : List Str} (h : es ≠ []) : '/' :: join es = slashed es := by
  induction es with
  | nil => exact absurd rfl h
  | cons e es ih =>
    rcases es with _ | ⟨f, es⟩
    · simp
    · rw [join_cons e (by simp), slashed_cons, ← ih (by simp)]
      rfl

theorem slashed_append (es fs : List Str) : slashed (es ++ fs) = slashed es ++ slashed fs :=
  List.flatMap_append

theorem atEnd_slashed (es : List Str) : AtEnd (slashed es) := by
  rcases es with _ | ⟨e, es⟩
  · exact Or.inl rfl
  · exact Or.inr rfl

/-- A text behind a slash is the pieces between its slashes. -/
theorem slashed_splitOn (t : Str) : slashed (t.splitOn '/') = '/' :: t := by
  rw [← slash_join (List.splitOn_ne_nil '/' t), join, List.intercalate_splitOn]

/-- The normal form of an absolute path: the root, or a slash before each element. -/
theorem clean_abs {s : Str} (h : isAbs s = true) :
    clean s = if absElements s = [] then ['/'] else slashed (absElements s) := by
  rw [clean, h, render, if_pos rfl]
  by_cases hnil : normal true (elements s) = []
  · rw [absElements, if_pos hnil, hnil]
    rfl
  · rw [absElements, if_neg hnil, slash_join hnil]

theorem absElements_ordinary (s : Str) : ∀ e ∈ absElements s, Ordinary e := by
  obtain ⟨k, os, hes, hos, hk⟩ := normal_elements s true
  obtain rfl := hk rfl
  rw [absElements, hes]
  exact hos

theorem elements_slashed {es : List Str} (h : ∀ e ∈ es, Element e) : elements (slashed es) = es := by
  by_cases hnil : es = []
  · rw [hnil]
    rfl
  · rw [← slash_join hnil, elements_slash, elements_join h]

theorem count_slashed {es : List Str} (h : ∀ e ∈ es, Element e) :
    (slashed es).count '/' = es.length := by
  induction es with
  | nil => rfl
  | cons e es ih =>
    have he : e.count '/' = 0 := List.count_eq_zero.mpr (h e List.mem_cons_self).2
    rw [slashed_cons, List.cons_append, List.count_cons_self, List.count_append, he,
      ih fun x hx => h x (List.mem_cons_of_mem _ hx)]
    simp

/-- Where a text with a slash before each element has a slash, an element starts. -/
theorem slashed_split {es : List Str} (h : ∀ e ∈ es, Element e) {a b : Str}
    (hs : slashed es = a ++ '/' :: b) :
    ∃ pre e post, es = pre ++ e :: post ∧ a = slashed pre ∧ b = e ++ slashed post := by
  induction es generalizing a with
  | nil => simp at hs
  | cons e es ih =>
    rw [slashed_cons] at hs
    rcases a with _ | ⟨c, a⟩
    · exact ⟨[], e, es, rfl, rfl, (List.cons.inj hs).2.symm⟩
    · obtain rfl : '/' = c := (List.cons.inj hs).1
      have htail : e ++ slashed es = a ++ '/' :: b := (List.cons.inj hs).2
      -- the slash lies behind the first element
      rcases List.append_eq_append_iff.mp htail with ⟨a', rfl, hrest⟩ | ⟨c', he, hrest⟩
      · obtain ⟨pre, f, post, rfl, rfl, rfl⟩ := ih (fun x hx => h x (List.mem_cons_of_mem _ hx)) hrest
        exact ⟨e :: pre, f, post, rfl, by simp, rfl⟩
      · rcases c' with _ | ⟨x, c'⟩
        · rw [List.nil_append] at hrest
          obtain ⟨pre, f, post, rfl, hpre, rfl⟩ :=
            ih (a := []) (fun x hx => h x (List.mem_cons_of_mem _ hx)) hrest.symm
          refine ⟨e :: pre, f, post, rfl, ?_, rfl⟩
          rw [slashed_cons, ← hpre, he]
          simp
        · obtain ⟨rfl, -⟩ := List.cons.inj hrest
          exact absurd (by rw [he]; simp) (h e List.mem_cons_self).2

/-- A path read from a directory, both given by their elements. -/
def resolve (dir : List Str) (rel : Str) : Str := render true (normal true (dir ++ elements rel))

end Path
