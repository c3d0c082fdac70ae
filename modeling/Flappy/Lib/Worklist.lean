/-
A list that grows while it is walked.

The walk takes the elements of a list in order.  Each gives candidates, and those
that the test accepts are appended.  A candidate is accepted when all the elements
it *needs* are in the list; one that is rejected is seen again only if another
element gives it.

* `walk_isLeast` — if every element that a candidate needs gives this candidate,
  nothing is missed: the result is the least set that holds the start and every
  candidate of a member whose needs are in the set.
-/
import Flappy.Lib.Saturate

namespace Worklist

variable {α : Type*}

/-- Walk the list from `i` on; the body sees the list and gives the new one.  `none` when the
body or the fuel fails. -/
def walk (body : List α → α → Option (List α)) : Nat → Nat → List α → Option (List α)
  | 0, _, _ => none
  | n + 1, i, acc =>
    match acc[i]? with
    | none => some acc
    | some a => (body acc a).bind (walk body n (i + 1))

/-- What a candidate is accepted for. -/
structure Rule (α : Type*) where
  cand : α → List α
  need : α → List α
  ok : α → Prop

/-- A set that holds the start and every candidate of a member whose needs it holds. -/
structure Rule.Closed (rule : Rule α) (db start : List α) (S : Set α) : Prop where
  base : ∀ a ∈ start, a ∈ S
  step : ∀ a ∈ db, a ∈ S → ∀ d ∈ rule.cand a, rule.ok d → (∀ r ∈ rule.need d, r ∈ S) → d ∈ S

/-- The body follows the rule, inside `db`: it tests the candidates one by one, the elements that
a candidate needs give it, and no candidate is without needs. -/
structure Rule.Follows (rule : Rule α) (db : List α) (add : List α → α → Option Bool)
    (body : List α → α → Option (List α)) : Prop where
  body : ∀ acc, (∀ x ∈ acc, x ∈ db) → ∀ a ∈ db,
    body acc a = (Saturate.pass add (rule.cand a) acc).map Prod.fst
  inside : ∀ a ∈ db, ∀ d ∈ rule.cand a, d ∈ db
  add : ∀ acc, (∀ x ∈ acc, x ∈ db) → ∀ d ∈ db, ∃ b, add acc d = some b ∧
    (b = true ↔ d ∉ acc ∧ rule.ok d ∧ ∀ r ∈ rule.need d, r ∈ acc)
  gives : ∀ d ∈ db, ∀ r ∈ rule.need d, r = d ∨ d ∈ rule.cand r
  needs : ∀ a ∈ db, ∀ d ∈ rule.cand a, rule.need d ≠ []

/-- What holds of the list at any time. -/
structure Rule.Sound (rule : Rule α) (db start acc : List α) : Prop where
  nodup : acc.Nodup
  subset : ∀ x ∈ acc, x ∈ db
  base : ∀ x ∈ start, x ∈ acc
  least : ∀ S, rule.Closed db start S → ∀ x ∈ acc, x ∈ S
  /-- What was appended has its needs in the list. -/
  needs : ∀ x ∈ acc, x ∉ start → ∀ r ∈ rule.need x, r ∈ acc

variable {rule : Rule α} {db start : List α} {add : List α → α → Option Bool}
  {body : List α → α → Option (List α)}

theorem Rule.Sound.length_le {acc : List α} (h : rule.Sound db start acc) :
    acc.length ≤ db.length :=
  (List.subperm_of_subset h.nodup h.subset).length_le

/-- Appending a candidate of a member. -/
theorem Rule.Sound.snoc {acc : List α} (h : rule.Sound db start acc) {a d : α} (ha : a ∈ acc)
    (hd : d ∈ rule.cand a) (hdb : d ∈ db) (hn : d ∉ acc) (hok : rule.ok d)
    (hneed : ∀ r ∈ rule.need d, r ∈ acc) : rule.Sound db start (acc ++ [d]) := by
  have hmem : ∀ {x}, x ∈ acc ++ [d] → x ∈ acc ∨ x = d := fun hx =>
    (List.mem_append.mp hx).imp_right List.mem_singleton.mp
  refine ⟨?_, fun x hx => ?_, fun x hx => List.mem_append_left _ (h.base x hx), ?_, ?_⟩
  · rw [List.nodup_append]
    refine ⟨h.nodup, List.nodup_singleton d, fun x hx y hy heq => ?_⟩
    rw [List.mem_singleton.mp hy] at heq
    exact hn (heq ▸ hx)
  · rcases hmem hx with hx | rfl
    · exact h.subset x hx
    · exact hdb
  · intro S hS x hx
    rcases hmem hx with hx | rfl
    · exact h.least S hS x hx
    · exact hS.step a (h.subset a ha) (h.least S hS a ha) x hd hok
        fun r hr => h.least S hS r (hneed r hr)
  · intro x hx hstart r hr
    rcases hmem hx with hx | rfl
    · exact List.mem_append_left _ (h.needs x hx hstart r hr)
    · exact List.mem_append_left _ (hneed r hr)

/-- The candidates of one element: the list grows at its end, and no candidate whose needs were
in the list is missing. -/
theorem Rule.Follows.pass (hf : rule.Follows db add body) {a : α} :
    ∀ {ps acc : List α}, (∀ d ∈ ps, d ∈ rule.cand a) → a ∈ acc → rule.Sound db start acc →
      ∃ acc' b, Saturate.pass add ps acc = some (acc', b) ∧ rule.Sound db start acc' ∧
        acc <+: acc' ∧
        ∀ d ∈ ps, rule.ok d → (∀ r ∈ rule.need d, r ∈ acc) → d ∈ acc' := by
  intro ps
  induction ps with
  | nil => exact fun {acc} _ _ hs => ⟨acc, false, rfl, hs, List.prefix_refl acc, by simp⟩
  | cons p ps ih =>
    intro acc hps ha hs
    rw [List.forall_mem_cons] at hps
    have hpdb := hf.inside a (hs.subset a ha) p hps.1
    obtain ⟨b, hb, hiff⟩ := hf.add acc hs.subset p hpdb
    cases b with
    | true =>
      obtain ⟨hn, hok, hneed⟩ := hiff.mp rfl
      have hs' := hs.snoc ha hps.1 hpdb hn hok hneed
      obtain ⟨acc', b', hpass, hsound, hpre, hall⟩ :=
        ih hps.2 (List.mem_append_left _ ha) hs'
      refine ⟨acc', true, by simp [Saturate.pass, hb, hpass], hsound,
        (List.prefix_append acc [p]).trans hpre, ?_⟩
      rw [List.forall_mem_cons]
      refine ⟨fun _ _ => hpre.subset (List.mem_append_right _ List.mem_cons_self), ?_⟩
      exact fun d hd hok hneed => hall d hd hok fun r hr => List.mem_append_left _ (hneed r hr)
    | false =>
      obtain ⟨acc', b', hpass, hsound, hpre, hall⟩ := ih hps.2 ha hs
      refine ⟨acc', b', by simp [Saturate.pass, hb, hpass], hsound, hpre, ?_⟩
      rw [List.forall_mem_cons]
      refine ⟨fun hok hneed => ?_, hall⟩
      -- rejected although it is ready: it was in the list
      by_contra hnot
      have := hiff.mpr ⟨fun hin => hnot (hpre.subset hin), hok, hneed⟩
      cases this

/-- Everything that needs only elements the walk has passed is in the list. -/
def Rule.Passed (rule : Rule α) (db acc : List α) (i : Nat) : Prop :=
  ∀ d ∈ db, rule.ok d → rule.need d ≠ [] → (∀ r ∈ rule.need d, r ∈ acc.take i) → d ∈ acc

theorem Rule.Follows.walk (hf : rule.Follows db add body) :
    ∀ {n i : Nat} {acc : List α}, rule.Sound db start acc → rule.Passed db acc i →
      i ≤ acc.length → db.length < i + n →
      ∃ res, Worklist.walk body n i acc = some res ∧ rule.Sound db start res ∧
        rule.Passed db res res.length := by
  intro n
  induction n with
  | zero =>
    intro i acc hs _ hi hn
    have := hs.length_le
    omega
  | succ n ih =>
    intro i acc hs hpassed hi hn
    rw [Worklist.walk]
    cases ha : acc[i]? with
    | none =>
      refine ⟨acc, rfl, hs, ?_⟩
      rw [List.getElem?_eq_none_iff] at ha
      rwa [show acc.length = i by omega]
    | some a =>
      have hlt : i < acc.length := (List.getElem?_eq_some_iff.mp ha).1
      have hmem : a ∈ acc := List.mem_of_getElem? ha
      obtain ⟨acc', b, hpass, hs', hpre, hall⟩ :=
        hf.pass (fun d hd => hd) hmem hs
      have htake : acc'.take (i + 1) = acc.take i ++ [a] := by
        obtain ⟨more, rfl⟩ := hpre
        rw [List.take_append_of_le_length (by omega), List.take_add_one, ha]
        rfl
      have hpassed' : rule.Passed db acc' (i + 1) := by
        intro d hd hok hne hneed
        rw [htake] at hneed
        by_cases hold : ∀ r ∈ rule.need d, r ∈ acc.take i
        · exact hpre.subset (hpassed d hd hok hne hold)
        · -- `a` is the last element that `d` was waiting for
          push Not at hold
          obtain ⟨r, hr, hnot⟩ := hold
          have hra : r = a := by
            rcases List.mem_append.mp (hneed r hr) with h | h
            · exact absurd h hnot
            · exact List.mem_singleton.mp h
          subst hra
          rcases hf.gives d hd r hr with rfl | hgives
          · exact hpre.subset hmem
          refine hall d hgives hok fun r' hr' => ?_
          rcases List.mem_append.mp (hneed r' hr') with h | h
          · exact List.mem_of_mem_take h
          · rw [List.mem_singleton.mp h]
            exact hmem
      have hlen := hpre.length_le
      obtain ⟨res, hres, hsres, hpres⟩ := ih hs' hpassed' (by omega) (by omega)
      exact ⟨res, by simp [hf.body acc hs.subset a (hs.subset a hmem), hpass, hres], hsres, hpres⟩

/-- **The walk computes the least closed set.**  The result has no duplicates, and what was
added has all its needs in it. -/
theorem walk_isLeast (hf : rule.Follows db add body) (hnodup : start.Nodup)
    (hstart : ∀ x ∈ start, x ∈ db) {n : Nat} (hn : db.length < n) :
    ∃ res, walk body n 0 start = some res ∧ res.Nodup ∧ (∀ x ∈ res, x ∈ db) ∧
      IsLeast {S | rule.Closed db start S} {x | x ∈ res} ∧
      ∀ x ∈ res, x ∉ start → ∀ r ∈ rule.need x, r ∈ res := by
  have hsound : rule.Sound db start start :=
    ⟨hnodup, hstart, fun x hx => hx, fun S hS x hx => hS.base x hx,
      fun x hx hnot => absurd hx hnot⟩
  have hpassed : rule.Passed db start 0 := by
    intro d _ _ hne hneed
    obtain ⟨r, hr⟩ := List.exists_mem_of_ne_nil _ hne
    have := hneed r hr
    simp at this
  obtain ⟨res, hres, hs, hp⟩ := hf.walk hsound hpassed (Nat.zero_le _) (show db.length < 0 + n by omega)
  refine ⟨res, hres, hs.nodup, hs.subset, ⟨⟨hs.base, ?_⟩, fun S hS x hx => hs.least S hS x hx⟩,
    hs.needs⟩
  intro a hadb _ d hd hok hneed
  refine hp d (hf.inside a hadb d hd) hok (hf.needs a hadb d hd) fun r hr => ?_
  rw [List.take_length]
  exact hneed r hr

end Worklist
