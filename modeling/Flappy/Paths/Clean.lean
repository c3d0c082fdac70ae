/-
Cleaning a path in place (`flappy_path_clean` in `lib/util_path.c`).

The elements of a copy of the path are written over the path.  A `..` moves the
write position back to the slash before the last element, but never before the
`..` elements that had to be kept.

* `cleanLoop_eq` — the loop is the fold of the elements;
* `flappyPathClean_spec` — the result is the lexical normal form.
-/
import Flappy.Fetch
import Flappy.Lib.Path
import Mathlib.Data.List.TakeWhile

open CStr Path

namespace Flappy

/-- `p[0]` is the NUL or a slash. -/
def endsElement (p : Str) : Bool := p = [] || p.head? = some '/'

/-- The loop that moves `d` back over the last element, down to `dotdot`. -/
def backtrack (dst : Str) (dotdot : Nat) : Nat → Nat
  | 0 => 0
  | d + 1 => if dotdot < d + 1 ∧ dst[d + 1]? ≠ some '/' then backtrack dst dotdot d else d + 1

/-- The loop of `flappy_path_clean`: `p` is what is left to read, `dst` the text
up to the write position.  The fuel bounds the number of elements. -/
def cleanLoop (rooted : Bool) : Nat → Str → Str → Nat → Str
  | 0, _, dst, _ => dst
  | n + 1, p, dst, dotdot =>
    match p with
    | [] => dst
    | c :: q =>
      -- empty path element
      if c = '/' then cleanLoop rooted n q dst dotdot
      -- . element
      else if c = '.' ∧ endsElement q then cleanLoop rooted n q dst dotdot
      -- .. element
      else if c = '.' ∧ q.head? = some '.' ∧ endsElement q.tail then
        if dotdot < dst.length then
          cleanLoop rooted n q.tail (dst.take (backtrack dst dotdot (dst.length - 1))) dotdot
        else if !rooted then
          let dst := (if dst = [] then dst else dst ++ ['/']) ++ ['.', '.']
          cleanLoop rooted n q.tail dst dst.length
        else cleanLoop rooted n q.tail dst dotdot
      else
        let dst := if (if rooted then 1 else 0) < dst.length then dst ++ ['/'] else dst
        cleanLoop rooted n (p.dropWhile (· ≠ '/')) (dst ++ p.takeWhile (· ≠ '/')) dotdot

/-- `flappy_path_clean`: the path and the result; `none` is -1. -/
def flappyPathClean (dst : Str) : Option (Str × Nat) :=
  if pathMax ≤ dst.length then none
  else
    let d :=
      if dst.head? = some '/' then cleanLoop true dst.length dst.tail ['/'] 1
      else cleanLoop false dst.length dst [] 0
    -- turn the empty string into "."
    let d := if d = [] then ['.'] else d
    some (d, d.length)

/-! ### Moving back -/

theorem backtrack_eq {dst : Str} {dotdot x d : Nat} (hx : x ≤ d)
    (hstop : dotdot = x ∨ dotdot ≤ x ∧ dst[x]? = some '/')
    (hgo : ∀ i, x < i → i ≤ d → dst[i]? ≠ some '/') : backtrack dst dotdot d = x := by
  induction d with
  | zero =>
    rw [backtrack]
    omega
  | succ d ih =>
    rw [backtrack]
    rcases Nat.eq_or_lt_of_le hx with rfl | hlt
    · rw [if_neg]
      rintro ⟨hdd, hne⟩
      rcases hstop with rfl | ⟨-, hslash⟩
      · omega
      · exact hne hslash
    · have hdd : dotdot < d + 1 := by
        rcases hstop with rfl | ⟨hle, -⟩ <;> omega
      rw [if_pos ⟨hdd, hgo (d + 1) hlt (Nat.le_refl _)⟩]
      exact ih (by omega) fun i hi hid => hgo i hi (by omega)

/-- The last element goes, with the slash before it if there is one. -/
theorem take_backtrack {front sep o : Str} {dotdot : Nat} (ho : Element o)
    (hsep : sep = [] ∧ dotdot = front.length ∨ sep = ['/'] ∧ dotdot ≤ front.length) :
    (front ++ (sep ++ o)).take
      (backtrack (front ++ (sep ++ o)) dotdot ((front ++ (sep ++ o)).length - 1)) = front := by
  have holen : 0 < o.length := List.length_pos_of_ne_nil ho.1
  have hback : backtrack (front ++ (sep ++ o)) dotdot ((front ++ (sep ++ o)).length - 1) =
      front.length := by
    refine backtrack_eq (by simp; omega) ?_ ?_
    · rcases hsep with ⟨-, hdd⟩ | ⟨rfl, hdd⟩
      · exact Or.inl hdd
      · exact Or.inr ⟨hdd, by simp⟩
    · -- behind the front come at most one slash, there, and the element
      intro i hi _ hslash
      rw [List.getElem?_append_right (by omega)] at hslash
      have hmem : '/' ∈ o := by
        rcases hsep with ⟨rfl, -⟩ | ⟨rfl, -⟩
        · exact List.mem_of_getElem? hslash
        · rw [List.getElem?_append_right (by simp; omega)] at hslash
          exact List.mem_of_getElem? hslash
      exact ho.2 hmem
  rw [hback, List.take_left]

/-! ### The loop -/

/-- The slash of an absolute path. -/
def root (rooted : Bool) : Str := if rooted then ['/'] else []

/-- What has been written: `k` kept `..` elements, where `dotdot` points behind
them, and ordinary ones. -/
structure Cleaning (rooted : Bool) (k : Nat) (os : List Str) (dst : Str) (dotdot : Nat) : Prop where
  ordinary : ∀ o ∈ os, Ordinary o
  kept : rooted = true → k = 0
  text : dst = root rooted ++ join (List.replicate k Path.dotdot ++ os)
  limit : dotdot = (root rooted ++ join (List.replicate k Path.dotdot)).length

variable {rooted : Bool} {k : Nat} {os : List Str} {dst : Str} {dotdot : Nat}

theorem Cleaning.element (h : Cleaning rooted k os dst dotdot) :
    ∀ e ∈ List.replicate k Path.dotdot ++ os, Element e :=
  IsNormal.element ⟨k, os, rfl, h.ordinary, h.kept⟩

/-- There is something to cancel exactly if an ordinary element was written. -/
theorem Cleaning.limit_lt (h : Cleaning rooted k os dst dotdot) :
    dotdot < dst.length ↔ os ≠ [] := by
  rw [h.limit, h.text]
  constructor
  · rintro hlt rfl
    simp at hlt
  · intro hos
    have hne : 0 < (join os).length :=
      List.length_pos_of_ne_nil (join_ne_nil (fun o ho => (h.ordinary o ho).element) hos)
    rcases k with _ | k
    · simpa using hne
    · rw [join_append (by simp) hos]
      simp

theorem Cleaning.root_lt (h : Cleaning rooted k os dst dotdot) :
    (if rooted then 1 else 0) < dst.length ↔ List.replicate k Path.dotdot ++ os ≠ [] := by
  have hroot : (root rooted).length = if rooted then 1 else 0 := by
    cases rooted <;> rfl
  rw [h.text, List.length_append, hroot]
  constructor
  · rintro hlt hnil
    rw [hnil, join_nil] at hlt
    simp at hlt
  · intro hne
    have hpos : 0 < (join (List.replicate k Path.dotdot ++ os)).length :=
      List.length_pos_of_ne_nil (join_ne_nil h.element hne)
    omega

/-- Writing an ordinary element. -/
theorem Cleaning.write (h : Cleaning rooted k os dst dotdot) {o : Str} (ho : Ordinary o) :
    Cleaning rooted k (os ++ [o])
      ((if (if rooted then 1 else 0) < dst.length then dst ++ ['/'] else dst) ++ o) dotdot := by
  refine ⟨?_, h.kept, ?_, h.limit⟩
  · intro x hx
    rcases List.mem_append.mp hx with hx | hx
    · exact h.ordinary x hx
    · rw [List.mem_singleton.mp hx]
      exact ho
  · by_cases hne : List.replicate k Path.dotdot ++ os = []
    · have hroot : ¬ (if rooted then 1 else 0) < dst.length := fun hlt => h.root_lt.mp hlt hne
      rw [if_neg hroot, h.text, ← List.append_assoc, hne]
      simp
    · rw [if_pos (h.root_lt.mpr hne), h.text, ← List.append_assoc, join_append hne (by simp)]
      simp

/-- Cancelling the last ordinary element. -/
theorem Cleaning.cancel {o : Str} (h : Cleaning rooted k (os ++ [o]) dst dotdot) :
    Cleaning rooted k os (dst.take (backtrack dst dotdot (dst.length - 1))) dotdot := by
  have ho : Ordinary o := h.ordinary o (by simp)
  refine ⟨fun x hx => h.ordinary x (by simp [hx]), h.kept, ?_, h.limit⟩
  by_cases hne : List.replicate k Path.dotdot ++ os = []
  · -- the only element
    have htext : dst = root rooted ++ ([] ++ o) := by
      rw [h.text, ← List.append_assoc, hne]
      simp
    have hlimit : dotdot = (root rooted).length := by
      rw [h.limit, (List.append_eq_nil_iff.mp hne).1]
      simp
    rw [htext, take_backtrack ho.element (Or.inl ⟨rfl, hlimit⟩), hne]
    simp
  · have htext : dst = (root rooted ++ join (List.replicate k Path.dotdot ++ os)) ++ (['/'] ++ o) := by
      rw [h.text, ← List.append_assoc, join_append hne (by simp)]
      simp
    have hlimit : dotdot ≤ (root rooted ++ join (List.replicate k Path.dotdot ++ os)).length := by
      rw [h.limit]
      by_cases hk : List.replicate k Path.dotdot = []
      · rw [hk]
        simp
      · by_cases hos : os = []
        · rw [hos, List.append_nil]
        · rw [join_append hk hos]
          simp
    rw [htext, take_backtrack ho.element (Or.inr ⟨rfl, hlimit⟩)]

/-- Keeping a `..` element in front of a relative path. -/
theorem Cleaning.keep (h : Cleaning false k [] dst dotdot) :
    Cleaning false (k + 1) [] ((if dst = [] then dst else dst ++ ['/']) ++ ['.', '.'])
      ((if dst = [] then dst else dst ++ ['/']) ++ ['.', '.']).length := by
  have htext : (if dst = [] then dst else dst ++ ['/']) ++ ['.', '.'] =
      join (List.replicate (k + 1) Path.dotdot) := by
    have hdst : dst = join (List.replicate k Path.dotdot) := by
      rw [h.text]
      simp [root]
    rw [List.replicate_succ', hdst]
    rcases k with _ | k
    · rfl
    · have hne : join (List.replicate (k + 1) Path.dotdot) ≠ [] := by
        refine join_ne_nil ?_ (by simp)
        intro e he
        rw [List.eq_of_mem_replicate he]
        exact dotdot_element
      rw [if_neg hne, join_append (by simp) (by simp), List.append_assoc]
      rfl
  refine ⟨by simp, by simp, ?_, ?_⟩
  · rw [htext]
    simp [root]
  · rw [htext]
    simp [root]

theorem endsElement_iff (p : Str) : endsElement p = true ↔ AtEnd p := by
  simp [endsElement, AtEnd]

/-- There is an element at the read position. -/
theorem first_element {c : Char} {q : Str} (hc : c ≠ '/') :
    Element ((c :: q).takeWhile (· ≠ '/')) := by
  constructor
  · simp [hc]
  · intro hmem
    have hne := List.mem_takeWhile_imp hmem
    simp at hne

/-- The element is ordinary if the tests for `.` and `..` fail. -/
theorem ordinary_of_tests {c : Char} {q e rest : Str} (hsplit : e ++ rest = c :: q)
    (he : Element e) (hend : AtEnd rest) (hdot : ¬ (c = '.' ∧ endsElement q = true))
    (hdd : ¬ (c = '.' ∧ q.head? = some '.' ∧ endsElement q.tail = true)) : Ordinary e := by
  rw [← endsElement_iff] at hend
  refine ⟨he, ?_, ?_⟩
  · rintro rfl
    obtain ⟨rfl, rfl⟩ := List.cons.inj hsplit
    exact hdot ⟨rfl, hend⟩
  · rintro rfl
    obtain ⟨rfl, rfl⟩ := List.cons.inj hsplit
    exact hdd ⟨rfl, rfl, hend⟩

/-- **The loop is the fold of the elements**: one step for each of them. -/
theorem cleanLoop_eq {n : Nat} {p : Str} (hn : p.length ≤ n) (h : Cleaning rooted k os dst dotdot) :
    cleanLoop rooted n p dst dotdot =
      root rooted ++
        join ((elements p).foldl (push rooted) (List.replicate k Path.dotdot ++ os)) := by
  induction n generalizing p k os dst dotdot with
  | zero =>
    obtain rfl : p = [] := List.length_eq_zero_iff.mp (Nat.le_zero.mp hn)
    rw [cleanLoop, h.text]
    rfl
  | succ n ih =>
    rcases p with _ | ⟨c, q⟩
    · rw [cleanLoop, h.text]
      rfl
    · rw [List.length_cons] at hn
      rw [cleanLoop]
      simp only
      by_cases hc : c = '/'
      · rw [if_pos hc, ih (by omega) h, hc, elements_slash]
      rw [if_neg hc]
      by_cases hdot : c = '.' ∧ endsElement q = true
      · have helem : elements (c :: q) = dot :: elements q := by
          rw [hdot.1]
          exact elements_cons (e := dot) (by simp [Element, dot]) ((endsElement_iff q).mp hdot.2)
        rw [if_pos hdot, ih (by omega) h, helem, List.foldl_cons, push, if_pos rfl]
      rw [if_neg hdot]
      by_cases hdd : c = '.' ∧ q.head? = some '.' ∧ endsElement q.tail = true
      · obtain ⟨rfl, hq, hend⟩ := hdd
        obtain ⟨q, rfl⟩ : ∃ s, q = '.' :: s := by
          rcases q with _ | ⟨x, q⟩
          · cases hq
          · exact ⟨q, by simpa using hq⟩
        rw [List.tail_cons] at hend
        rw [List.length_cons] at hn
        have helem : elements ('.' :: '.' :: q) = Path.dotdot :: elements q :=
          elements_cons (e := Path.dotdot) dotdot_element ((endsElement_iff q).mp hend)
        rw [if_pos ⟨rfl, rfl, hend⟩, helem, List.foldl_cons]
        simp only [List.tail_cons]
        rcases List.eq_nil_or_concat' os with rfl | ⟨os, o, rfl⟩
        · -- nothing to cancel
          rw [if_neg (fun hlt => h.limit_lt.mp hlt rfl), List.append_nil,
            push_dotdot_replicate rooted k h.kept]
          cases rooted with
          | true =>
            obtain rfl := h.kept rfl
            rw [if_neg (by simp), ih (by omega) h]
            rfl
          | false =>
            rw [if_pos (by simp), ih (by omega) h.keep, List.append_nil]
            rfl
        · rw [if_pos (h.limit_lt.mpr (by simp)), ih (by omega) h.cancel, ← List.append_assoc,
            push_dotdot_concat rooted _ (h.ordinary o (by simp))]
      · have he : Element ((c :: q).takeWhile (· ≠ '/')) := first_element hc
        have hend : AtEnd ((c :: q).dropWhile (· ≠ '/')) := atEnd_dropWhile (c :: q)
        have ho := ordinary_of_tests List.takeWhile_append_dropWhile he hend hdot hdd
        have hlen : ((c :: q).dropWhile (· ≠ '/')).length ≤ n := by
          have hsplit := congrArg List.length
            (List.takeWhile_append_dropWhile (p := fun x => decide (x ≠ '/')) (l := c :: q))
          have hpos := List.length_pos_of_ne_nil he.1
          rw [List.length_append, List.length_cons] at hsplit
          omega
        have helem : elements (c :: q) =
            (c :: q).takeWhile (· ≠ '/') :: elements ((c :: q).dropWhile (· ≠ '/')) := by
          rw [← elements_cons he hend, List.takeWhile_append_dropWhile]
        rw [if_neg hdd, ih hlen (h.write ho), helem, List.foldl_cons, push_ordinary rooted _ ho,
          List.append_assoc]

/-! ### The function -/

/-- The path is rewritten to its lexical normal form. -/
theorem flappyPathClean_eq {dst : Str} (h : dst.length < pathMax) :
    flappyPathClean dst = some (clean dst, (clean dst).length) := by
  have hloop : (if dst.head? = some '/' then cleanLoop true dst.length dst.tail ['/'] 1
      else cleanLoop false dst.length dst [] 0) =
        root (isAbs dst) ++ join (normal (isAbs dst) (elements dst)) := by
    by_cases habs : dst.head? = some '/'
    · obtain ⟨s, rfl⟩ : ∃ s, dst = '/' :: s := by
        rcases dst with _ | ⟨c, s⟩
        · cases habs
        · exact ⟨s, by simpa using habs⟩
      have hstart : Cleaning true 0 [] ['/'] 1 := ⟨by simp, fun _ => rfl, rfl, rfl⟩
      rw [if_pos habs, List.tail_cons, cleanLoop_eq (by simp) hstart]
      have hroot : isAbs ('/' :: s) = true := rfl
      rw [hroot, elements_slash]
      rfl
    · have hstart : Cleaning false 0 [] [] 0 := ⟨by simp, fun _ => rfl, rfl, rfl⟩
      have hroot : isAbs dst = false := by simpa [isAbs] using habs
      rw [if_neg habs, cleanLoop_eq (Nat.le_refl _) hstart, hroot]
      rfl
  have hclean : (if root (isAbs dst) ++ join (normal (isAbs dst) (elements dst)) = [] then ['.']
      else root (isAbs dst) ++ join (normal (isAbs dst) (elements dst))) = clean dst := by
    have helem := (normal_elements dst (isAbs dst)).element
    rw [clean, render]
    cases habs : isAbs dst with
    | true => rfl
    | false =>
      rw [habs] at helem
      rw [if_neg (show ¬ false = true by simp)]
      by_cases hnil : normal false (elements dst) = []
      · rw [hnil]
        rfl
      · have hne := join_ne_nil helem hnil
        rw [if_neg hnil, if_neg (by simpa [root] using hne)]
        rfl
  rw [flappyPathClean, if_neg (by omega), hloop]
  simp only [hclean]

/-- **Cleaning is canonical**: the result is the lexical normal form and its
length, cleaning it again changes nothing, and it starts at the root exactly if
the path did. -/
theorem flappyPathClean_spec {dst : Str} (h : dst.length < pathMax) :
    flappyPathClean dst = some (clean dst, (clean dst).length) ∧
      flappyPathClean (clean dst) = some (clean dst, (clean dst).length) ∧
      isAbs (clean dst) = isAbs dst := by
  have hlen : (clean dst).length < pathMax := by
    have hle := clean_length_le dst
    have hone : 1 < pathMax := by decide
    omega
  refine ⟨flappyPathClean_eq h, ?_, isAbs_clean dst⟩
  rw [flappyPathClean_eq hlen, clean_clean]

theorem flappyPathClean_spec_parent :
    flappyPathClean "abc/../..//def/.".toList = some ("../def".toList, 6) ∧
      flappyPathClean "../def".toList = some ("../def".toList, 6) ∧
      isAbs "../def".toList = isAbs "abc/../..//def/.".toList := by
  have hclean : clean "abc/../..//def/.".toList = "../def".toList := by decide +kernel
  have hlt : "abc/../..//def/.".toList.length < pathMax := by decide
  have hspec := flappyPathClean_spec hlt
  rw [hclean] at hspec
  exact hspec

end Flappy
