/-
Singly linked lists whose link is a field of the element.

The link fields are one function `next`; a list is a head pointer and what the link
fields make of it.  Several lists may share the field as long as they share no element.
An edit goes through the address of a link field, as `*itemp = item->next` does.

* `Linked` — a pointer leads through a list of elements and ends;
* `Linked.unique`, `Linked.congr` — it leads through one list only, and the links of
  other elements do not matter;
* `Linked.concat`, `Linked.unlink` — the two edits.
-/
import Mathlib.Data.List.Nodup
import Mathlib.Logic.Function.Basic

namespace Intrusive

variable {α : Type*}

/-- The address of a link field: the head of the list, or the field of an element. -/
inductive Link (α : Type*) where
  | head
  | next (a : α)
deriving DecidableEq

/-- A head pointer and the link fields. -/
structure Cells (α : Type*) where
  head : Option α
  next : α → Option α

def Cells.read (c : Cells α) : Link α → Option α
  | .head => c.head
  | .next a => c.next a

def Cells.write [DecidableEq α] (c : Cells α) (l : Link α) (v : Option α) : Cells α :=
  match l with
  | .head => { c with head := v }
  | .next a => { c with next := Function.update c.next a v }

/-- From the pointer `p` the links lead through exactly these elements, to `q`. -/
def Seg (next : α → Option α) : Option α → List α → Option α → Prop
  | p, [], q => p = q
  | p, x :: xs, q => p = some x ∧ Seg next (next x) xs q

/-- The list at the head is exactly these elements. -/
def Linked (c : Cells α) (xs : List α) : Prop := Seg c.next c.head xs none

/-- The address of the field that ends the list. -/
def lastLink (xs : List α) : Link α :=
  match xs.getLast? with
  | none => .head
  | some a => .next a

@[simp] theorem lastLink_nil : lastLink ([] : List α) = .head := rfl

theorem lastLink_cons {xs : List α} (h : xs ≠ []) (a : α) : lastLink (a :: xs) = lastLink xs := by
  obtain ⟨b, xs, rfl⟩ := List.exists_cons_of_ne_nil h
  simp [lastLink, List.getLast?_cons]

@[simp] theorem lastLink_concat (xs : List α) (a : α) : lastLink (xs ++ [a]) = .next a := by
  simp [lastLink]

section Seg

variable {next next' : α → Option α} {p q r : Option α} {xs ys : List α} {a : α}

@[simp] theorem seg_nil : Seg next p [] q ↔ p = q := Iff.rfl

@[simp] theorem seg_cons : Seg next p (a :: xs) q ↔ p = some a ∧ Seg next (next a) xs q := Iff.rfl

theorem Seg.append (hx : Seg next p xs q) (hy : Seg next q ys r) : Seg next p (xs ++ ys) r := by
  induction xs generalizing p with
  | nil =>
    obtain rfl : p = q := hx
    exact hy
  | cons x xs ih => exact ⟨hx.1, ih hx.2⟩

theorem Seg.split (h : Seg next p (xs ++ ys) r) : ∃ q, Seg next p xs q ∧ Seg next q ys r := by
  induction xs generalizing p with
  | nil => exact ⟨p, rfl, h⟩
  | cons x xs ih =>
    obtain ⟨q, hx, hy⟩ := ih h.2
    exact ⟨q, ⟨h.1, hx⟩, hy⟩

theorem Seg.congr (hnext : ∀ x ∈ xs, next' x = next x) (h : Seg next p xs q) :
    Seg next' p xs q := by
  induction xs generalizing p with
  | nil => exact h
  | cons x xs ih =>
    refine ⟨h.1, ?_⟩
    rw [hnext x List.mem_cons_self]
    exact ih (fun y hy => hnext y (List.mem_cons_of_mem x hy)) h.2

/-- The last link of a segment decides where it leads. -/
theorem Seg.redirect [DecidableEq α] (hnodup : (xs ++ [a]).Nodup)
    (h : Seg next p (xs ++ [a]) q) : Seg (Function.update next a r) p (xs ++ [a]) r := by
  obtain ⟨u, hx, ha⟩ := h.split
  have hne : ∀ x ∈ xs, x ≠ a := fun x hx he =>
    (List.disjoint_of_nodup_append hnodup) hx (by simp [he])
  have hx' : Seg (Function.update next a r) p xs u :=
    hx.congr fun x hmem => Function.update_of_ne (hne x hmem) _ _
  refine hx'.append ⟨ha.1, ?_⟩
  show Function.update next a r a = r
  exact Function.update_self a r next

theorem Seg.unique (hx : Seg next p xs none) (hy : Seg next p ys none) : xs = ys := by
  induction xs generalizing p ys with
  | nil =>
    cases ys with
    | nil => rfl
    | cons y ys => exact absurd (hx.symm.trans hy.1) (by simp)
  | cons x xs ih =>
    cases ys with
    | nil => exact absurd (hy.symm.trans hx.1) (by simp)
    | cons y ys =>
      obtain rfl : x = y := Option.some.inj (hx.1.symm.trans hy.1)
      rw [ih hx.2 hy.2]

end Seg

variable {c c' : Cells α} {xs ys : List α} {a : α}

theorem Linked.unique (hx : Linked c xs) (hy : Linked c ys) : xs = ys := Seg.unique hx hy

theorem Linked.congr (hhead : c'.head = c.head) (hnext : ∀ x ∈ xs, c'.next x = c.next x)
    (h : Linked c xs) : Linked c' xs := by
  show Seg c'.next c'.head xs none
  rw [hhead]
  exact Seg.congr hnext h

/-- The head pointer tells the first element. -/
theorem Linked.head_eq (h : Linked c xs) : c.head = xs.head? := by
  cases xs with
  | nil => exact h
  | cons x xs => exact h.1

/-- Taking the first element off. -/
theorem Linked.tail (h : Linked c (a :: xs)) : Linked { c with head := c.next a } xs := h.2

/-- Putting an element in front. -/
theorem Linked.cons (ha : c.next a = c'.head) (h : Linked { c with head := c'.head } xs) :
    Linked { c with head := some a } (a :: xs) := by
  refine ⟨rfl, ?_⟩
  show Seg c.next (c.next a) xs none
  rw [ha]
  exact h

/-- What stands at the address that ends the first part. -/
theorem Linked.read_lastLink (h : Linked c (xs ++ ys)) : c.read (lastLink xs) = ys.head? := by
  obtain ⟨q, hx, hy⟩ := Seg.split h
  have hq : q = ys.head? := by
    cases ys with
    | nil => exact hy
    | cons y ys => exact hy.1
  rw [← hq]
  rcases List.eq_nil_or_concat' xs with rfl | ⟨zs, z, rfl⟩
  · exact hx
  · obtain ⟨u, -, hz⟩ := hx.split
    rw [lastLink_concat]
    exact hz.2

variable [DecidableEq α]

theorem write_lastLink_next {v : Option α} (ha : a ∉ xs) :
    (c.write (lastLink xs) v).next a = c.next a := by
  rcases List.eq_nil_or_concat' xs with rfl | ⟨zs, z, rfl⟩
  · rfl
  · rw [lastLink_concat]
    exact Function.update_of_ne (fun he => ha (by simp [he])) _ _

/-- A write at the address that ends the first part joins it with what the new value
leads through. -/
theorem Linked.write_lastLink {v : Option α} {zs : List α} (hnodup : xs.Nodup)
    (hdisj : ∀ z ∈ zs, z ∉ xs) (hx : Linked c (xs ++ ys)) (hz : Seg c.next v zs none) :
    Linked (c.write (lastLink xs) v) (xs ++ zs) := by
  obtain ⟨q, hx, -⟩ := Seg.split hx
  rcases List.eq_nil_or_concat' xs with rfl | ⟨ws, w, rfl⟩
  · exact hz
  · have hz' : Seg (Function.update c.next w v) v zs none :=
      hz.congr fun z hmem => Function.update_of_ne (fun he => hdisj z hmem (by simp [he])) _ _
    rw [lastLink_concat]
    exact (hx.redirect hnodup).append hz'

/-- An element put at the end. -/
theorem Linked.concat (hnodup : xs.Nodup) (ha : a ∉ xs) (hnext : c.next a = none)
    (h : Linked c xs) : Linked (c.write (lastLink xs) (some a)) (xs ++ [a]) := by
  have hx : Linked c (xs ++ []) := by rwa [List.append_nil]
  refine hx.write_lastLink hnodup (fun z hz => ?_) ⟨rfl, hnext⟩
  rw [List.mem_singleton] at hz
  rwa [hz]

/-- An element taken out. -/
theorem Linked.unlink (hnodup : (xs ++ a :: ys).Nodup) (h : Linked c (xs ++ a :: ys)) :
    Linked (c.write (lastLink xs) (c.next a)) (xs ++ ys) := by
  obtain ⟨q, hx, hy⟩ := Seg.split h
  have hdisj : ∀ z ∈ ys, z ∉ xs := fun z hz hmem =>
    List.disjoint_of_nodup_append hnodup hmem (List.mem_cons_of_mem a hz)
  exact h.write_lastLink hnodup.of_append_left hdisj hy.2

end Intrusive
