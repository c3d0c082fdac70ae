/-
Normalising the paths of alternatives links (`normpath` in
`lib/package_alternatives.c`).

The loop takes the path slash by slash.  An empty or `.` element is deleted
where it stands and `p` goes on behind the slash that has moved there, so the
element behind a deleted one is not looked at.  A `..` element is deleted with
the element before it, and the scan starts again from the front.

* `scan_dotdot`, `scan_ordinary`, `scan_skipped` — the loop, element by element;
* `scan_settled` — where an ordinary element follows each deleted one, the loop
  is the fold of the elements;
* `normpath_canonical_iff` — these are the paths that are normalised with
  everything they begin with.
-/
import Flappy.Alternatives.Relpath
import Mathlib.Data.List.Chain

open CStr Path

namespace Flappy.Normpath

/-! ### Segments -/

/-- What stands between the slashes of an absolute path, also if it is empty. -/
def segments (s : Str) : List Str := s.tail.splitOn '/'

/-- An element that is deleted by itself. -/
def Skipped (e : Str) : Prop := e = [] ∨ e = dot

instance (e : Str) : Decidable (Skipped e) := inferInstanceAs (Decidable (_ ∨ _))

/-- Behind every empty or `.` element comes an ordinary one, or the end. -/
def Settled (es : List Str) : Prop := es.IsChain fun e f => Skipped e → Ordinary f

instance (es : List Str) : Decidable (Settled es) := inferInstanceAs (Decidable (es.IsChain _))

/-- The elements that are left of `es` behind the elements `ys`. -/
def settle (ys es : List Str) : List Str := (es.filter fun e => !e.isEmpty).foldl (push true) ys

/-- The lexical normal form of an absolute path: a slash before each element that
is left, and no text at all for the root. -/
def lexical (s : Str) : Str := slashed (absElements s)

theorem Skipped.not_ordinary {e : Str} (h : Skipped e) : ¬ Ordinary e := by
  intro ho
  rcases h with rfl | rfl
  · exact ho.element.1 rfl
  · exact ho.ne_dot rfl

theorem Skipped.not_mem {e : Str} (h : Skipped e) : '/' ∉ e := by
  rcases h with rfl | rfl <;> simp [dot]

/-- The three kinds of elements. -/
theorem segment_cases {e : Str} (he : '/' ∉ e) : Skipped e ∨ e = dotdot ∨ Ordinary e := by
  by_cases hnil : e = []
  · exact Or.inl (Or.inl hnil)
  by_cases hdot : e = dot
  · exact Or.inl (Or.inr hdot)
  by_cases hdd : e = dotdot
  · exact Or.inr (Or.inl hdd)
  · exact Or.inr (Or.inr ⟨⟨hnil, he⟩, hdot, hdd⟩)

theorem segments_not_mem (s : Str) : ∀ e ∈ segments s, '/' ∉ e := splitOn_not_mem '/' s.tail

theorem slashed_segments {s : Str} (h : isAbs s = true) : slashed (segments s) = s := by
  obtain ⟨t, rfl⟩ := exists_root h
  exact slashed_splitOn t

theorem segments_slashed {es : List Str} (hes : ∀ e ∈ es, '/' ∉ e) (hne : es ≠ []) :
    segments (slashed es) = es := by
  rw [segments, ← slash_join hne, List.tail_cons, join, List.splitOn_intercalate '/' hes hne]

theorem isAbs_slashed {es : List Str} (hne : es ≠ []) : isAbs (slashed es) = true := by
  rw [← slash_join hne]
  rfl

/-- The text tells the elements. -/
theorem slashed_inj {es fs : List Str} (hes : ∀ e ∈ es, '/' ∉ e) (hfs : ∀ f ∈ fs, '/' ∉ f)
    (h : slashed es = slashed fs) : es = fs := by
  by_cases he : es = []
  · by_cases hf : fs = []
    · rw [he, hf]
    · have habs := isAbs_slashed hf
      rw [← h, he] at habs
      cases habs
  · by_cases hf : fs = []
    · have habs := isAbs_slashed he
      rw [h, hf] at habs
      cases habs
    · rw [← segments_slashed hes he, h, segments_slashed hfs hf]

/-! ### What is left -/

theorem absElements_slashed {es : List Str} (hes : ∀ e ∈ es, '/' ∉ e) :
    absElements (slashed es) = settle [] es := by
  by_cases hne : es = []
  · rw [hne]
    rfl
  · have helem : elements (slashed es) = es.filter fun e => !e.isEmpty := by
      rw [← slash_join hne, elements_slash, elements, pieces, join,
        List.splitOn_intercalate '/' hes hne]
    rw [absElements, helem]
    rfl

theorem settle_skipped {e : Str} (he : Skipped e) (ys es : List Str) :
    settle ys (e :: es) = settle ys es := by
  rcases he with rfl | rfl
  · rfl
  · show settle (push true ys dot) es = settle ys es
    rw [push, if_pos rfl]

theorem settle_element {e : Str} (he : e ≠ []) (ys es : List Str) :
    settle ys (e :: es) = settle (push true ys e) es := by
  obtain ⟨c, e, rfl⟩ := List.exists_cons_of_ne_nil he
  rfl

theorem settle_concat_skipped {e : Str} (he : Skipped e) (ys es : List Str) :
    settle ys (es ++ [e]) = settle ys es := by
  rw [settle, List.filter_append, List.foldl_append]
  exact settle_skipped he _ []

theorem push_dotdot_ordinaries {ys : List Str} (hys : ∀ y ∈ ys, Ordinary y) :
    push true ys dotdot = ys.dropLast := by
  rcases List.eq_nil_or_concat' ys with rfl | ⟨ys, y, rfl⟩
  · rfl
  · rw [push_dotdot_concat true ys (hys y (by simp)), List.dropLast_concat]

/-! ### The loop, element by element -/

/-- The offset of the last slash before the scan. -/
def lastSlash (ys : List Str) : Option Nat :=
  if ys = [] then none else some (slashed ys.dropLast).length

/-- The loop of `normpath` with the elements `ys` behind `p` and `es` from `p` on. -/
def scan (ys es : List Str) : Str := normpathLoop (slashed ys) (lastSlash ys) (slashed es)

theorem normpath_eq_scan {s : Str} (h : isAbs s = true) : normpath s = scan [] (segments s) := by
  rw [scan, slashed_segments h]
  rfl

/-- The comparison succeeds at the element it asks for. -/
theorem strncmp_element {d rest : Str} (h : AtEnd rest) :
    strncmp (d.length + 2) ('/' :: (d ++ rest)) ('/' :: (d ++ ['/'])) = .eq ∨
      strncmp (d.length + 2) ('/' :: (d ++ rest)) ('/' :: d) = .eq := by
  rcases rest with _ | ⟨c, rest⟩
  · exact Or.inr (strncmp_eq.mpr (by rw [List.append_nil]))
  · obtain rfl : c = '/' := by simpa [AtEnd] using h
    refine Or.inl (strncmp_eq.mpr ?_)
    rw [List.take_succ_cons, List.take_succ_cons, List.take_append, List.take_append]
    simp

theorem atParent_dotdot {rest : Str} (h : AtEnd rest) : AtParent ('/' :: (dotdot ++ rest)) :=
  strncmp_element (d := dotdot) h

/-- An element that is deleted goes with the slash before it. -/
theorem skip_skipped {e rest : Str} (he : Skipped e) (hrest : AtEnd rest) :
    ¬ AtParent ('/' :: (e ++ rest)) ∧ skip ('/' :: (e ++ rest)) = e.length + 1 := by
  constructor
  · intro h
    have hdd : e = dotdot := eq_of_strncmp he.not_mem hrest (d := dotdot) (by decide) h
    rcases he with rfl | rfl
    · cases hdd
    · cases hdd
  · rcases he with rfl | rfl
    · rw [skip, if_neg, if_pos]
      · rfl
      · exact strncmp_element (d := []) hrest
      · intro h
        have hdot : [] = dot := eq_of_strncmp (by simp) hrest (d := dot) (by decide) h
        cases hdot
    · rw [skip, if_pos]
      · rfl
      · exact strncmp_element (d := dot) hrest

/-- Past a deletion, and past an element that is kept, `p` goes over one slash and the text
behind it. -/
theorem normpathLoop_pass {p f rest : Str} (ys : List Str) (hf : '/' ∉ f) (hp : ¬ AtParent p)
    (hdrop : p.drop (skip p) = '/' :: (f ++ rest)) :
    normpathLoop (slashed ys) (lastSlash ys) p =
      normpathLoop (slashed (ys ++ [f])) (lastSlash (ys ++ [f])) rest := by
  have hfront : slashed (ys ++ [f]) = slashed ys ++ ['/'] ++ f := by
    rw [slashed_append]
    simp
  have hlast : lastSlash (ys ++ [f]) = some (slashed ys).length := by
    rw [lastSlash, if_neg (by simp), List.dropLast_concat]
  rw [normpathLoop, if_neg hp]
  split
  · rename_i hnil
    rw [hnil] at hdrop
    cases hdrop
  · rename_i hcons
    rw [hcons] at hdrop
    obtain ⟨rfl, rfl⟩ := List.cons.inj hdrop
    rw [if_pos rfl, normpathLoop_text hf, hfront, hlast]

@[simp] theorem scan_nil (ys : List Str) : scan ys [] = slashed ys := normpathLoop_nil _ _

/-- A `..` element takes the element before it away, and the scan starts again. -/
theorem scan_dotdot (ys es : List Str) : scan ys (dotdot :: es) = scan [] (ys.dropLast ++ es) := by
  have hcut : (slashed ys).take ((lastSlash ys).getD (slashed ys).length) =
      slashed ys.dropLast := by
    rcases List.eq_nil_or_concat' ys with rfl | ⟨ys, y, rfl⟩
    · rfl
    · rw [lastSlash, if_neg (by simp), List.dropLast_concat, slashed_append, Option.getD_some,
        List.take_left]
  rw [scan, slashed_cons, List.cons_append, normpathLoop,
    if_pos (atParent_dotdot (atEnd_slashed es)), hcut, scan, slashed_append]
  rfl

theorem scan_ordinary {e : Str} (he : Ordinary e) (ys es : List Str) :
    scan ys (e :: es) = scan (ys ++ [e]) es := by
  obtain ⟨hp, hskip⟩ := normpath_element he (atEnd_slashed es)
  refine normpathLoop_pass ys he.element.2 hp ?_
  rw [slashed_cons, List.cons_append, hskip]
  rfl

theorem scan_last {e : Str} (he : Skipped e) (ys : List Str) : scan ys [e] = slashed ys := by
  obtain ⟨hp, hskip⟩ := skip_skipped he (Or.inl rfl)
  rw [scan, slashed_cons, slashed_nil, List.cons_append, normpathLoop, if_neg hp]
  split
  · rfl
  · rename_i hcons
    rw [hskip] at hcons
    simp at hcons

/-- The element behind a deleted one is kept, whatever it is. -/
theorem scan_skipped {e f : Str} (he : Skipped e) (hf : '/' ∉ f) (ys es : List Str) :
    scan ys (e :: f :: es) = scan (ys ++ [f]) es := by
  obtain ⟨hp, hskip⟩ := skip_skipped he (atEnd_slashed (f :: es))
  refine normpathLoop_pass ys hf hp ?_
  rw [slashed_cons, List.cons_append, hskip, List.drop_succ_cons, List.drop_left, slashed_cons,
    List.cons_append]

theorem scan_ordinaries {os : List Str} (hos : ∀ o ∈ os, Ordinary o) (ys es : List Str) :
    scan ys (os ++ es) = scan (ys ++ os) es := by
  induction os generalizing ys with
  | nil => rw [List.nil_append, List.append_nil]
  | cons o os ih =>
    rw [List.cons_append, scan_ordinary (hos o List.mem_cons_self),
      ih (fun x hx => hos x (List.mem_cons_of_mem _ hx)), List.append_assoc, List.singleton_append]

/-! ### Settled paths -/

theorem settle_ordinary {ys : List Str} (hys : ∀ y ∈ ys, Ordinary y) (es : List Str)
    (hes : ∀ e ∈ es, '/' ∉ e) : ∀ z ∈ settle ys es, Ordinary z := by
  induction es generalizing ys with
  | nil => exact hys
  | cons e es ih =>
    have hrest : ∀ x ∈ es, '/' ∉ x := fun x hx => hes x (List.mem_cons_of_mem _ hx)
    rcases segment_cases (hes e List.mem_cons_self) with he | rfl | he
    · rw [settle_skipped he]
      exact ih hys hrest
    · rw [settle_element dotdot_element.1, push_dotdot_ordinaries hys]
      exact ih (fun y hy => hys y (List.dropLast_subset _ hy)) hrest
    · rw [settle_element he.element.1, push_ordinary true ys he]
      refine ih ?_ hrest
      intro y hy
      rcases List.mem_append.mp hy with hy | hy
      · exact hys y hy
      · rw [List.mem_singleton.mp hy]
        exact he

/-- **Over settled elements the loop is their fold**, whatever comes behind them. -/
theorem scan_settled {ys as : List Str} (hys : ∀ y ∈ ys, Ordinary y) (has : ∀ a ∈ as, '/' ∉ a)
    (hset : Settled as) (hlast : ∀ a ∈ as.getLast?, ¬ Skipped a) (es : List Str) :
    scan ys (as ++ es) = scan (settle ys as) es := by
  induction as generalizing ys with
  | nil => rfl
  | cons a as ih =>
    have hrest : ∀ x ∈ as, '/' ∉ x := fun x hx => has x (List.mem_cons_of_mem _ hx)
    have htail : Settled as := List.IsChain.tail hset
    have hlast' : ∀ x ∈ as.getLast?, ¬ Skipped x := by
      intro x hx
      refine hlast x ?_
      rcases as with _ | ⟨b, as⟩
      · cases hx
      · rw [List.getLast?_cons_cons]
        exact hx
    rcases segment_cases (has a List.mem_cons_self) with ha | rfl | ha
    · -- the element behind it is ordinary: it is kept with and without the look at it
      rcases as with _ | ⟨b, as⟩
      · exact absurd ha (hlast a rfl)
      · have hb : Ordinary b := (List.isChain_cons_cons.mp hset).1 ha
        rw [settle_skipped ha, ← ih hys hrest htail hlast', List.cons_append, List.cons_append,
          scan_skipped ha hb.element.2, scan_ordinary hb]
    · have hys' : ∀ y ∈ ys.dropLast, Ordinary y := fun y hy => hys y (List.dropLast_subset _ hy)
      rw [settle_element dotdot_element.1, push_dotdot_ordinaries hys, ← ih hys' hrest htail hlast',
        List.cons_append, scan_dotdot, scan_ordinaries hys', List.nil_append]
    · have hys' : ∀ y ∈ ys ++ [a], Ordinary y := by
        intro y hy
        rcases List.mem_append.mp hy with hy | hy
        · exact hys y hy
        · rw [List.mem_singleton.mp hy]
          exact ha
      rw [settle_element ha.element.1, push_ordinary true ys ha, ← ih hys' hrest htail hlast',
        List.cons_append, scan_ordinary ha]

/-- In front of a deleted element, a settled list ends with one that is kept. -/
theorem Settled.last {as : List Str} {x : Str} (h : Settled (as ++ [x])) (hx : Skipped x) :
    Settled as ∧ ∀ a ∈ as.getLast?, ¬ Skipped a := by
  obtain ⟨has, -, hjoin⟩ := List.isChain_append.mp h
  refine ⟨has, ?_⟩
  intro a ha hskip
  exact hx.not_ordinary (hjoin a ha x rfl hskip)

theorem scan_settled_end {es : List Str} (hes : ∀ e ∈ es, '/' ∉ e) (hset : Settled es) :
    scan [] es = slashed (settle [] es) := by
  rcases List.eq_nil_or_concat' es with rfl | ⟨as, x, rfl⟩
  · exact scan_nil []
  · by_cases hx : Skipped x
    · obtain ⟨has, hlast⟩ := hset.last hx
      rw [scan_settled (by simp) (fun a ha => hes a (List.mem_append_left _ ha)) has hlast,
        scan_last hx, settle_concat_skipped hx]
    · have hlast : ∀ a ∈ (as ++ [x]).getLast?, ¬ Skipped a := by
        intro a ha
        rw [List.getLast?_concat, Option.mem_some_iff] at ha
        rw [← ha]
        exact hx
      have hscan : scan [] (as ++ [x] ++ []) = scan (settle [] (as ++ [x])) [] :=
        scan_settled (by simp) hes hset hlast []
      rw [List.append_nil, scan_nil] at hscan
      exact hscan

/-! ### What is overlooked -/

/-- Without a `..` element what has been kept stays. -/
theorem scan_plain (es : List Str) (ys : List Str) (hes : ∀ e ∈ es, '/' ∉ e) (hdd : dotdot ∉ es) :
    ∃ zs, scan ys es = slashed (ys ++ zs) ∧ ∀ z ∈ zs, z ∈ es := by
  induction es using List.twoStepInduction generalizing ys with
  | nil => exact ⟨[], by rw [scan_nil, List.append_nil], by simp⟩
  | singleton e =>
    rcases segment_cases (hes e List.mem_cons_self) with he | rfl | he
    · exact ⟨[], by rw [scan_last he, List.append_nil], by simp⟩
    · exact absurd List.mem_cons_self hdd
    · exact ⟨[e], by rw [scan_ordinary he, scan_nil], by simp⟩
  | cons_cons e f es ih₁ ih₂ =>
    rw [List.mem_cons, not_or] at hdd
    have hrest : ∀ x ∈ f :: es, '/' ∉ x := fun x hx => hes x (List.mem_cons_of_mem _ hx)
    rcases segment_cases (hes e List.mem_cons_self) with he | rfl | he
    · obtain ⟨zs, hscan, hzs⟩ := ih₁ (ys ++ [f]) (fun x hx => hrest x (List.mem_cons_of_mem _ hx))
        (fun h => hdd.2 (List.mem_cons_of_mem _ h))
      refine ⟨f :: zs, ?_, ?_⟩
      · rw [scan_skipped he (hrest f List.mem_cons_self), hscan, List.append_assoc,
          List.singleton_append]
      · intro z hz
        rcases List.mem_cons.mp hz with rfl | hz
        · exact List.mem_cons_of_mem _ List.mem_cons_self
        · exact List.mem_cons_of_mem _ (List.mem_cons_of_mem _ (hzs z hz))
    · exact absurd rfl hdd.1
    · obtain ⟨zs, hscan, hzs⟩ := ih₂ f (ys ++ [e]) hrest hdd.2
      refine ⟨e :: zs, ?_, ?_⟩
      · rw [scan_ordinary he, hscan, List.append_assoc, List.singleton_append]
      · intro z hz
        rcases List.mem_cons.mp hz with rfl | hz
        · exact List.mem_cons_self
        · exact List.mem_cons_of_mem _ (hzs z hz)

/-- The first element behind a deleted one that is not ordinary, with no `..` behind it. -/
theorem scan_overlooked {as es : List Str} {x y : Str} (hset : Settled (as ++ [x])) (hx : Skipped x)
    (hmem : ∀ e ∈ as ++ x :: y :: es, '/' ∉ e) (hdd : dotdot ∉ es) :
    ∃ zs, scan [] (as ++ x :: y :: es) = slashed zs ∧ (∀ z ∈ zs, '/' ∉ z) ∧ y ∈ zs := by
  obtain ⟨has, hlast⟩ := hset.last hx
  have hmem' : ∀ a ∈ as, '/' ∉ a := fun a ha => hmem a (List.mem_append_left _ ha)
  have hy : '/' ∉ y := hmem y (by simp)
  have hes : ∀ e ∈ es, '/' ∉ e := fun e he => hmem e (by simp [he])
  obtain ⟨zs, hscan, hzs⟩ := scan_plain es (settle [] as ++ [y]) hes hdd
  refine ⟨settle [] as ++ [y] ++ zs, ?_, ?_, by simp⟩
  · rw [scan_settled (by simp) hmem' has hlast, scan_skipped hx hy, hscan]
  · intro z hz
    rcases List.mem_append.mp hz with hz | hz
    · rcases List.mem_append.mp hz with hz | hz
      · exact (settle_ordinary (by simp) as hmem' z hz).element.2
      · rw [List.mem_singleton.mp hz]
        exact hy
    · exact hes z (hzs z hz)

/-- Where a list is not settled, there is such an element. -/
theorem exists_overlooked {es : List Str} (h : ¬ Settled es) :
    ∃ as x y bs, es = as ++ x :: y :: bs ∧ Settled (as ++ [x]) ∧ Skipped x ∧ ¬ Ordinary y := by
  induction es using List.reverseRecOn with
  | nil => exact absurd List.isChain_nil h
  | append_singleton es e ih =>
    by_cases hes : Settled es
    · rcases List.eq_nil_or_concat' es with rfl | ⟨as, x, rfl⟩
      · exact absurd (List.isChain_singleton e) h
      · have hlast : Skipped x ∧ ¬ Ordinary e := by
          by_contra hcon
          rw [not_and_not_right] at hcon
          refine h (List.isChain_append.mpr ⟨hes, List.isChain_singleton e, ?_⟩)
          intro a ha b hb
          rw [List.getLast?_concat, Option.mem_some_iff] at ha
          obtain rfl := ha
          obtain rfl : e = b := by simpa using hb
          exact hcon
        exact ⟨as, x, e, [], by simp, hes, hlast.1, hlast.2⟩
    · obtain ⟨as, x, y, bs, rfl, hset, hx, hy⟩ := ih hes
      exact ⟨as, x, y, bs ++ [e], by simp, hset, hx, hy⟩

/-! ### Normalised paths -/

/-- `normpath` yields the lexical normal form, which is canonical and is left alone. -/
structure Normalises (s : Str) : Prop where
  normal : normpath s = lexical s
  canonical : normpath s = [] ∨ Canonical (normpath s)
  again : normpath (normpath s) = normpath s

/-- `s` begins with the elements of `t`. -/
def Leading (t s : Str) : Prop := ∃ rest, s = t ++ rest ∧ AtEnd rest

/-- A `..` stands behind the first element that the scan does not look at: the scan
starts again, and looks at it then. -/
def Reread (es : List Str) : Prop :=
  ∃ as x y bs, es = as ++ x :: y :: bs ∧ Settled (as ++ [x]) ∧ Skipped x ∧ ¬ Ordinary y ∧
    dotdot ∈ bs

theorem canonical_slashed {os : List Str} (hos : ∀ o ∈ os, Ordinary o) (hne : os ≠ []) :
    Canonical (slashed os) := by
  refine ⟨isAbs_slashed hne, ?_⟩
  intro e he
  have hsegs : segments (slashed os) = os := segments_slashed (fun o ho => (hos o ho).element.2) hne
  have ho : Ordinary e := hos e (hsegs ▸ he)
  exact ⟨ho.element.1, ho.ne_dot, ho.ne_dotdot⟩

theorem Normalises.of_eq {s : Str} (h : normpath s = lexical s) : Normalises s := by
  have hos : ∀ o ∈ absElements s, Ordinary o := absElements_ordinary s
  refine ⟨h, ?_, ?_⟩
  · rw [h]
    by_cases hne : absElements s = []
    · exact Or.inl (by rw [lexical, hne, slashed_nil])
    · exact Or.inr (canonical_slashed hos hne)
  · rw [h]
    exact normpathLoop_slashed hos [] none

theorem lexical_eq {s : Str} (h : isAbs s = true) :
    lexical s = slashed (settle [] (segments s)) := by
  rw [← absElements_slashed (segments_not_mem s), slashed_segments h]
  rfl

theorem Settled.normalises {s : Str} (h : isAbs s = true) (hset : Settled (segments s)) :
    Normalises s := by
  refine Normalises.of_eq ?_
  rw [normpath_eq_scan h, scan_settled_end (segments_not_mem s) hset, lexical_eq h]

theorem not_normalises {s : Str} {as bs : List Str} {x y : Str} (h : isAbs s = true)
    (hs : segments s = as ++ x :: y :: bs) (hset : Settled (as ++ [x])) (hx : Skipped x)
    (hy : ¬ Ordinary y) (hdd : dotdot ∉ bs) : ¬ Normalises s := by
  intro hnorm
  have hmem := segments_not_mem s
  rw [hs] at hmem
  obtain ⟨zs, hscan, hzs, hyzs⟩ := scan_overlooked hset hx hmem hdd
  have heq : slashed zs = slashed (absElements s) := by
    rw [← hscan, ← hs, ← normpath_eq_scan h]
    exact hnorm.normal
  have hos : ∀ o ∈ absElements s, Ordinary o := absElements_ordinary s
  have hsame : zs = absElements s := slashed_inj hzs (fun o ho => (hos o ho).element.2) heq
  exact hy (hos y (hsame ▸ hyzs))

theorem Leading.segments {t s : Str} (ht : isAbs t = true) (h : Leading t s) :
    ∃ fs, segments s = segments t ++ fs := by
  obtain ⟨rest, rfl, hrest⟩ := h
  rcases rest with _ | ⟨c, rest⟩
  · exact ⟨[], by rw [List.append_nil, List.append_nil]⟩
  · obtain rfl : c = '/' := by simpa [AtEnd] using hrest
    have hne : Normpath.segments t ++ Normpath.segments ('/' :: rest) ≠ [] := by
      simp [Normpath.segments, List.splitOn_ne_nil]
    refine ⟨Normpath.segments ('/' :: rest), ?_⟩
    rw [← slashed_segments ht, ← slashed_segments (s := '/' :: rest) rfl, ← slashed_append,
      segments_slashed ?_ hne, slashed_segments ht, slashed_segments rfl]
    intro e he
    rcases List.mem_append.mp he with he | he
    · exact segments_not_mem _ e he
    · exact segments_not_mem _ e he

/-- **An absolute path is normalised with all that it begins with exactly if it is
settled**: no empty or `.` element comes right before an empty, `.` or `..` element.
A path alone is normalised exactly then, unless a `..` behind the first such place
makes the scan read it again. -/
theorem normpath_canonical_iff {s : Str} (h : isAbs s = true) :
    ((∀ t, isAbs t = true → Leading t s → Normalises t) ↔ Settled (segments s)) ∧
      (¬ Reread (segments s) → (Normalises s ↔ Settled (segments s))) := by
  refine ⟨⟨?_, ?_⟩, ?_⟩
  · intro hall
    by_contra hset
    obtain ⟨as, x, y, bs, hs, hsetx, hx, hy⟩ := exists_overlooked hset
    -- the path up to the element that is overlooked
    have hmem : ∀ e ∈ as ++ [x, y], '/' ∉ e := by
      intro e he
      refine segments_not_mem s e ?_
      rw [hs]
      have hsub : as ++ [x, y] ⊆ as ++ x :: y :: bs := by simp
      exact hsub he
    have hne : as ++ [x, y] ≠ [] := by simp
    refine not_normalises (isAbs_slashed hne) (segments_slashed hmem hne) hsetx hx hy (by simp) ?_
    refine hall _ (isAbs_slashed hne) ⟨slashed bs, ?_, atEnd_slashed bs⟩
    rw [← slashed_append, ← slashed_segments h, hs]
    simp
  · intro hset t ht hlead
    obtain ⟨fs, hs⟩ := hlead.segments ht
    rw [hs] at hset
    exact Settled.normalises ht (List.IsChain.left_of_append hset)
  · intro hread
    constructor
    · intro hnorm
      by_contra hset
      obtain ⟨as, x, y, bs, hs, hsetx, hx, hy⟩ := exists_overlooked hset
      by_cases hdd : dotdot ∈ bs
      · exact hread ⟨as, x, y, bs, hs, hsetx, hx, hy, hdd⟩
      · exact not_normalises h hs hsetx hx hy hdd hnorm
    · exact Settled.normalises h

theorem normpath_canonical_iff_usr :
    isAbs "//usr/./bin/../lib/".toList = true ∧ Normalises "//usr/./bin/../lib/".toList ∧
      normpath "//usr/./bin/../lib/".toList = "/usr/lib".toList := by
  have habs : isAbs "//usr/./bin/../lib/".toList = true := by decide
  have hset : Settled (segments "//usr/./bin/../lib/".toList) := by decide +kernel
  have hnorm : Normalises "//usr/./bin/../lib/".toList :=
    (normpath_canonical_iff habs).1.mpr hset _ habs ⟨[], by simp, Or.inl rfl⟩
  refine ⟨habs, hnorm, ?_⟩
  rw [hnorm.normal]
  decide +kernel

/-- The link `vi` of a target in the root directory: of three slashes two are left. -/
theorem normpath_slashes :
    normpath "///vi".toList = "//vi".toList ∧ lexical "///vi".toList = "/vi".toList ∧
      ¬ Normalises "///vi".toList := by
  have habs : isAbs "///vi".toList = true := by decide
  have hsegs : segments "///vi".toList = [] ++ [] :: [] :: ["vi".toList] := by decide +kernel
  have hvi : Ordinary "vi".toList := by decide
  have hnorm : normpath "///vi".toList = "//vi".toList := by
    rw [normpath_eq_scan habs, hsegs, List.nil_append, scan_skipped (Or.inl rfl) (by simp),
      scan_ordinary hvi, scan_nil]
    rfl
  refine ⟨hnorm, by decide +kernel, ?_⟩
  exact not_normalises habs hsegs (List.isChain_singleton _) (Or.inl rfl)
    (fun h => h.element.1 rfl) (by decide)

end Flappy.Normpath
