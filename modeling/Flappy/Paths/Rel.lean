/-
The path from one file to another (`flappy_path_rel` in `lib/util_path.c`).

Both paths are cleaned and compared character by character.  Up to the last
slash they share they are in one directory; from there, each slash left in the
first path is one directory to leave.  The comparison does not end at the NUL.

* `commonScan_eq_none_iff` — when the comparison runs past the ends of both paths;
* `flappyPathRel_resolves_iff` — when the result leads from the one path to the other.
-/
import Flappy.Paths.Clean

open CStr Path

namespace Flappy

/-- The comparing loop: how far the paths agree and where `suffix` points.  Two
NULs are equal, and the pointers move behind them: `none`. -/
def commonScan : Str → Str → Nat → Nat → Option (Nat × Nat)
  | [], [], _, _ => none
  | [], _ :: _, i, suffix => some (i, suffix)
  | _ :: _, [], i, suffix => some (i, suffix)
  | a :: s, b :: t, i, suffix =>
    if a = b then commonScan s t (i + 1) (if b = '/' then i else suffix) else some (i, suffix)

/-- The loop over `strchr`: the slashes in what is left of the first path.  The
fuel bounds their number. -/
def countUps : Nat → Str → Nat
  | 0, _ => 0
  | n + 1, s =>
    match strchr '/' s with
    | none => 0
    | some (_, s) => countUps n s + 1

/-- `flappy_path_rel`: the destination and the result.  The inner `none` is -1,
the outer one an access outside the buffers. -/
def flappyPathRel (dstlen : Nat) (fromPath toPath : Str) : Option (Option (Str × Nat)) :=
  -- `*dst = '\0'`
  if dstlen = 0 then none
  else if pathMax ≤ fromPath.length ∨ pathMax ≤ toPath.length then some none
  else
    match flappyPathClean fromPath, flappyPathClean toPath with
    | some (frombuf, _), some (tobuf, _) =>
      -- the loop asks for `*to`, the start of the argument
      match if toPath = [] then some (0, 0) else commonScan frombuf tobuf 0 0 with
      | none => none
      | some (i, suffix) =>
        -- `fromp--`
        if i = 0 then none
        else
          let up := countUps frombuf.length (frombuf.drop i)
          let text := (List.replicate up "../".toList).flatten ++ (tobuf.drop suffix).tail
          some (some (text.take (dstlen - 1), text.length))
    | _, _ => some none

/-! ### The comparison -/

theorem commonScan_eq_none_iff (s t : Str) (i suffix : Nat) :
    commonScan s t i suffix = none ↔ s = t := by
  induction s generalizing t i suffix with
  | nil => rcases t with _ | ⟨b, t⟩ <;> simp [commonScan]
  | cons a s ih =>
    rcases t with _ | ⟨b, t⟩
    · simp [commonScan]
    · rw [commonScan]
      by_cases hab : a = b
      · rw [if_pos hab, ih]
        simp [hab]
      · rw [if_neg hab]
        simp [hab]

/-- The scan ends behind a common text, with `suffix` at its last slash. -/
theorem commonScan_some {s t : Str} {i suffix j k : Nat}
    (h : commonScan s t i suffix = some (j, k)) :
    ∃ c s' t', s = c ++ s' ∧ t = c ++ t' ∧ j = i + c.length ∧ s'.head? ≠ t'.head? ∧
      k = match strrchr '/' c with
        | none => suffix
        | some (a, _) => i + a.length := by
  induction s generalizing t i suffix with
  | nil =>
    rcases t with _ | ⟨b, t⟩
    · simp [commonScan] at h
    · simp only [commonScan, Option.some.injEq, Prod.mk.injEq] at h
      exact ⟨[], [], b :: t, rfl, rfl, by simp [h.1], by simp, h.2.symm⟩
  | cons a s ih =>
    rcases t with _ | ⟨b, t⟩
    · simp only [commonScan, Option.some.injEq, Prod.mk.injEq] at h
      exact ⟨[], a :: s, [], rfl, rfl, by simp [h.1], by simp, h.2.symm⟩
    · rw [commonScan] at h
      by_cases hab : a = b
      · subst hab
        rw [if_pos rfl] at h
        obtain ⟨c, s', t', rfl, rfl, rfl, hne, rfl⟩ := ih h
        refine ⟨a :: c, s', t', rfl, rfl, by simp; omega, hne, ?_⟩
        rw [strrchr]
        cases hc : strrchr '/' c with
        | some p =>
          simp
          omega
        | none =>
          by_cases ha : a = '/'
          · simp [ha]
          · simp [ha]
      · rw [if_neg hab] at h
        simp only [Option.some.injEq, Prod.mk.injEq] at h
        exact ⟨[], a :: s, b :: t, rfl, rfl, by simp [h.1], by simpa using hab, h.2.symm⟩

theorem countUps_eq {n : Nat} {s : Str} (h : s.length ≤ n) : countUps n s = s.count '/' := by
  induction n generalizing s with
  | zero =>
    obtain rfl : s = [] := List.length_eq_zero_iff.mp (Nat.le_zero.mp h)
    rfl
  | succ n ih =>
    rw [countUps]
    cases hs : strchr '/' s with
    | none =>
      rw [strchr_eq_none] at hs
      exact (List.count_eq_zero.mpr hs).symm
    | some p =>
      obtain ⟨a, b⟩ := p
      obtain ⟨rfl, ha⟩ := strchr_eq_some.mp hs
      rw [List.length_append, List.length_cons] at h
      have hzero : a.count '/' = 0 := List.count_eq_zero.mpr ha
      simp only
      rw [ih (by omega), List.count_append, List.count_cons_self, hzero]
      omega

/-- The slashes are those behind the last common one. -/
theorem countUps_behind {n : Nat} {b s : Str} (hb : '/' ∉ b) (h : s.length ≤ n) :
    countUps n s = (b ++ s).count '/' := by
  rw [countUps_eq h, List.count_append, List.count_eq_zero.mpr hb, Nat.zero_add]

/-- Two absolute paths part behind a slash of both of them, where `suffix` is left. -/
theorem commonScan_abs {s t : Str} (hs : isAbs s = true) (ht : isAbs t = true) {i suffix : Nat}
    (h : commonScan s t 0 0 = some (i, suffix)) :
    ∃ a b s' t', s = a ++ '/' :: (b ++ s') ∧ t = a ++ '/' :: (b ++ t') ∧ '/' ∉ b ∧ i ≠ 0 ∧
      s.drop i = s' ∧ (t.drop suffix).tail = b ++ t' := by
  obtain ⟨c, s', t', rfl, rfl, hi, hhead, hsuffix⟩ := commonScan_some h
  have hmem : '/' ∈ c := by
    obtain ⟨u, hu⟩ := exists_root hs
    obtain ⟨v, hv⟩ := exists_root ht
    rcases c with _ | ⟨x, c⟩
    · rw [List.nil_append] at hu hv
      rw [hu, hv] at hhead
      exact absurd rfl hhead
    · rw [List.cons_append] at hu
      rw [(List.cons.inj hu).1]
      exact List.mem_cons_self
  obtain ⟨a, b, hlast⟩ := exists_strrchr hmem
  obtain ⟨rfl, hb⟩ := strrchr_eq_some.mp hlast
  simp only [hlast, Nat.zero_add] at hsuffix hi
  refine ⟨a, b, s', t', by simp, by simp, hb, ?_, ?_, ?_⟩
  · rw [hi]
    simp
  · rw [hi, List.drop_left]
  · rw [hsuffix, List.append_assoc, List.drop_left]
    rfl

/-! ### The result -/

/-- The elements of a text of `../` in front of a path. -/
theorem elements_ups (up : Nat) (s : Str) :
    elements ((List.replicate up "../".toList).flatten ++ s) =
      List.replicate up Path.dotdot ++ elements s := by
  induction up with
  | zero => rfl
  | succ up ih =>
    have hstep : (List.replicate (up + 1) "../".toList).flatten ++ s =
        Path.dotdot ++ '/' :: ((List.replicate up "../".toList).flatten ++ s) := by
      simp [List.replicate_succ, Path.dotdot]
    rw [hstep, elements_append, ih, elements_single dotdot_element]
    rfl

theorem isAbs_ups (up : Nat) {s : Str} (h : isAbs s = false) :
    isAbs ((List.replicate up "../".toList).flatten ++ s) = false := by
  rcases up with _ | up
  · exact h
  · rw [List.replicate_succ]
    rfl

/-- A clean absolute path at one of its slashes: the elements before it, the
directories to leave from there, and what is read there. -/
theorem clean_split {s a b : Str} (habs : isAbs s = true) (h : clean s = a ++ '/' :: b) :
    ∃ pre os, (absElements s).dropLast = pre ++ os ∧ elements a = pre ∧ os.length = b.count '/' ∧
      absElements s = pre ++ elements b ∧ isAbs b = false := by
  have hord := absElements_ordinary s
  have helem : ∀ e ∈ absElements s, Element e := fun e he => (hord e he).element
  rw [clean_abs habs] at h
  by_cases hnil : absElements s = []
  · rw [if_pos hnil] at h
    rcases a with _ | ⟨x, a⟩
    · obtain rfl : b = [] := (List.cons.inj h).2.symm
      exact ⟨[], [], by simp [hnil], rfl, rfl, by simp [hnil], rfl⟩
    · exact absurd (List.cons.inj h).2 (by simp)
  · rw [if_neg hnil] at h
    obtain ⟨pre, e, post, hes, rfl, rfl⟩ := slashed_split helem h
    rw [hes] at helem
    have he : Element e := helem e (by simp)
    have hpre : ∀ x ∈ pre, Element x := fun x hx => helem x (by simp [hx])
    have hpost : ∀ x ∈ post, Element x := fun x hx => helem x (by simp [hx])
    have hzero : e.count '/' = 0 := List.count_eq_zero.mpr he.2
    refine ⟨pre, (e :: post).dropLast, ?_, elements_slashed hpre, ?_, ?_, ?_⟩
    · rw [hes, List.dropLast_append_of_ne_nil (by simp)]
    · rw [List.length_dropLast, List.count_append, hzero, count_slashed hpost]
      simp
    · rw [hes, elements_cons he (atEnd_slashed post), elements_slashed hpost]
    · obtain ⟨c, e', rfl⟩ := List.exists_cons_of_ne_nil he.1
      have hc : c ≠ '/' := fun heq => he.2 (by simp [heq])
      simpa [isAbs] using hc

/-- Leaving the directories behind the last common slash and reading on from
there leads to the other path. -/
theorem resolve_ups {fromPath toPath a b b' : Str} (hfrom : isAbs fromPath = true)
    (hto : isAbs toPath = true) (hb : clean fromPath = a ++ '/' :: b)
    (hb' : clean toPath = a ++ '/' :: b') :
    resolve (absElements fromPath).dropLast
      ((List.replicate (b.count '/') "../".toList).flatten ++ b') = clean toPath := by
  obtain ⟨pre, os, hdir, hpre, hcount, -, -⟩ := clean_split hfrom hb
  obtain ⟨pre', -, -, hpre', -, hes, -⟩ := clean_split hto hb'
  obtain rfl : pre = pre' := hpre.symm.trans hpre'
  have hdirord : ∀ e ∈ pre ++ os, Ordinary e := by
    intro e he
    rw [← hdir] at he
    exact absElements_ordinary fromPath e ((List.dropLast_sublist _).subset he)
  have hord : ∀ e ∈ elements b', Ordinary e := by
    intro e he
    exact absElements_ordinary toPath e (by rw [hes]; simp [he])
  have hfold : (pre ++ os).foldl (push true) [] = pre ++ os := push_ordinaries true [] hdirord
  have hnormal : normal true ((pre ++ os) ++ (List.replicate os.length Path.dotdot ++ elements b')) =
      absElements toPath := by
    rw [normal, List.foldl_append, hfold, List.foldl_append,
      push_dotdots true pre fun e he => hdirord e (by simp [he]), push_ordinaries true pre hord, hes]
  rw [resolve, hdir, elements_ups, ← hcount, hnormal, clean, hto]
  rfl

/-- Every destination with room for it gets one relative path, and this leads
from the directory of the cleaned `fromPath` to the cleaned `toPath`. -/
def RelResolves (fromPath toPath : Str) : Prop :=
  ∃ rel, isAbs rel = false ∧ resolve (absElements fromPath).dropLast rel = clean toPath ∧
    ∀ dstlen, rel.length < dstlen →
      flappyPathRel dstlen fromPath toPath = some (some (rel, rel.length))

/-- **The result resolves back exactly if the cleaned paths differ**: otherwise
the comparison runs behind the NULs. -/
theorem flappyPathRel_resolves_iff {fromPath toPath : Str} (hfrom : isAbs fromPath = true)
    (hto : isAbs toPath = true) (hflen : fromPath.length < pathMax)
    (htlen : toPath.length < pathMax) :
    RelResolves fromPath toPath ↔ clean fromPath ≠ clean toPath := by
  have hne : toPath ≠ [] := by
    rintro rfl
    cases hto
  constructor
  · rintro ⟨rel, -, -, hrel⟩ heq
    have hr := hrel (rel.length + 1) (by omega)
    rw [flappyPathRel, if_neg (by omega), if_neg (by omega), flappyPathClean_eq hflen,
      flappyPathClean_eq htlen] at hr
    simp only at hr
    rw [if_neg hne, (commonScan_eq_none_iff _ _ 0 0).mpr heq] at hr
    cases hr
  · intro hdiff
    obtain ⟨⟨i, suffix⟩, hscan⟩ : ∃ r, commonScan (clean fromPath) (clean toPath) 0 0 = some r := by
      rw [← Option.ne_none_iff_exists']
      exact fun h => hdiff ((commonScan_eq_none_iff _ _ 0 0).mp h)
    have hcfrom : isAbs (clean fromPath) = true := by rw [isAbs_clean, hfrom]
    have hcto : isAbs (clean toPath) = true := by rw [isAbs_clean, hto]
    obtain ⟨a, b, s, t, hs, ht, hb, hi, hdrop, htail⟩ := commonScan_abs hcfrom hcto hscan
    have hlen : s.length ≤ (clean fromPath).length := by
      rw [← hdrop, List.length_drop]
      omega
    refine ⟨(List.replicate ((b ++ s).count '/') "../".toList).flatten ++ (b ++ t), ?_, ?_, ?_⟩
    · obtain ⟨-, -, -, -, -, -, habs⟩ := clean_split hto ht
      exact isAbs_ups _ habs
    · exact resolve_ups hfrom hto hs ht
    · intro dstlen hdst
      rw [flappyPathRel, if_neg (by omega), if_neg (by omega), flappyPathClean_eq hflen,
        flappyPathClean_eq htlen]
      simp only
      rw [if_neg hne, hscan]
      simp only
      rw [if_neg hi, hdrop, htail, countUps_behind hb hlen, List.take_of_length_le (by omega)]

theorem flappyPathRel_resolves_iff_usr :
    RelResolves "/usr/bin/tar".toList "/usr/lib//gtar".toList ↔
      clean "/usr/bin/tar".toList ≠ clean "/usr/lib//gtar".toList :=
  flappyPathRel_resolves_iff rfl rfl (by decide) (by decide)

/-- Two spellings of one path: the comparison does not end. -/
theorem flappyPathRel_equal :
    flappyPathRel 4096 "/usr/bin".toList "/usr//bin".toList = none ∧
      ¬ RelResolves "/usr/bin".toList "/usr//bin".toList := by
  have hnone : ∀ n, n ≠ 0 → flappyPathRel n "/usr/bin".toList "/usr//bin".toList = none := by
    intro n hn
    have hfrom : flappyPathClean "/usr/bin".toList = some ("/usr/bin".toList, 8) := by
      decide +kernel
    have hto : flappyPathClean "/usr//bin".toList = some ("/usr/bin".toList, 8) := by
      decide +kernel
    rw [flappyPathRel, if_neg hn, if_neg (by decide), hfrom, hto]
    rfl
  refine ⟨hnone 4096 (by omega), ?_⟩
  rintro ⟨rel, -, -, hrel⟩
  have hr := hrel (rel.length + 1) (by omega)
  rw [hnone _ (by omega)] at hr
  cases hr

end Flappy
