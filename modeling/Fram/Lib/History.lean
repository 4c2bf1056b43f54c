import Fram.Lib.ExtractLast
import Mathlib.Tactic

/-!
# A history of additions and removals

A log of operations over a type `α`: each adds a content or removes one. A removal withdraws the newest addition that still stands and
whose content the relation `r`, which need not be reflexive, accepts for it, or nothing when there is none. `run r ops` is the reading of
a whole log: the additions that stand, by position, oldest first, and for each position the addition it withdrew.

The additions that stand are exactly those no removal withdrew, a removal withdraws an earlier, accepted addition, and no addition is
withdrawn twice (`reads_run`). The reading depends on the contents only through `r` (`run_congr`).
-/

namespace History

variable {α β : Type*}

/-- One operation of a log. -/
structure Op (α : Type*) where
  adds : Bool
  content : α

/-- The reading of a log: how many operations it has, the additions that stand, and what each operation withdrew. -/
structure Reading (α : Type*) where
  count : Nat
  live : List (Nat × α)
  targets : List (Option Nat)

/-- The reading of the empty log. -/
def Reading.empty : Reading α := ⟨0, [], []⟩

/-- One more operation. -/
def step (r : α → α → Bool) (s : Reading α) (o : Op α) : Reading α :=
  if o.adds then
    ⟨s.count + 1, s.live ++ [(s.count, o.content)], s.targets ++ [none]⟩
  else
    match s.live.extractLast (fun x => r x.2 o.content) with
    | none => ⟨s.count + 1, s.live, s.targets ++ [none]⟩
    | some (x, live) => ⟨s.count + 1, live, s.targets ++ [some x.1]⟩

/-- The reading of a log. -/
def run (r : α → α → Bool) (ops : List (Op α)) : Reading α := ops.foldl (step r) .empty

theorem run_concat (r : α → α → Bool) (ops : List (Op α)) (o : Op α) : run r (ops ++ [o]) = step r (run r ops) o := by
  simp [run]

/-! ## What a reading says of its log -/

/-- The facts that every reading of a log satisfies. -/
structure Reads (r : α → α → Bool) (ops : List (Op α)) (s : Reading α) : Prop where
  count : s.count = ops.length
  length : s.targets.length = ops.length
  sorted : (s.live.map (·.1)).Pairwise (· < ·)
  live_iff : ∀ q a, (q, a) ∈ s.live ↔ ops[q]? = some ⟨true, a⟩ ∧ ∀ p : Nat, s.targets[p]? ≠ some (some q)
  target : ∀ p q : Nat, s.targets[p]? = some (some q) →
    q < p ∧ ∃ a b, ops[q]? = some ⟨true, a⟩ ∧ ops[p]? = some ⟨false, b⟩ ∧ r a b = true
  injective : ∀ p p' q : Nat, s.targets[p]? = some (some q) → s.targets[p']? = some (some q) → p = p'

theorem reads_empty (r : α → α → Bool) : Reads r [] (Reading.empty : Reading α) := by
  constructor <;> simp [Reading.empty]

/-- A position of the live list is a position of the log. -/
theorem Reads.lt {r : α → α → Bool} {ops : List (Op α)} {s : Reading α} (h : Reads r ops s) {x : Nat × α}
    (hx : x ∈ s.live) : x.1 < ops.length :=
  (List.getElem?_eq_some_iff.1 ((h.live_iff x.1 x.2).1 hx).1).1

/-- What a list with one more element holds. -/
theorem getElem?_concat_iff {l : List α} {x y : α} {i : Nat} : (l ++ [x])[i]? = some y ↔ l[i]? = some y ∨ (i = l.length ∧ x = y) := by
  rcases lt_trichotomy i l.length with hi | rfl | hi
  · rw [List.getElem?_append_left hi]
    exact ⟨Or.inl, fun h => h.elim id fun h => absurd h.1 hi.ne⟩
  · simp
  · rw [List.getElem?_eq_none (by simp; omega), List.getElem?_eq_none (by omega)]
    simp [hi.ne']

/-- An addition keeps the facts: it stands, and withdraws nothing. -/
theorem Reads.add {r : α → α → Bool} {ops : List (Op α)} {s : Reading α} (h : Reads r ops s) (a : α) :
    Reads r (ops ++ [⟨true, a⟩]) ⟨s.count + 1, s.live ++ [(s.count, a)], s.targets ++ [none]⟩ := by
  have hn := h.count
  have ht : ∀ p q : Nat, (s.targets ++ [none])[p]? = some (some q) ↔ s.targets[p]? = some (some q) := by
    intro p q
    simp [getElem?_concat_iff]
  have hlt : ∀ q a, ops[q]? = some a → q ≠ ops.length := by
    rintro q a hq rfl
    simp at hq
  refine ⟨by simp [hn], by simp [h.length], ?_, ?_, ?_, ?_⟩
  · rw [List.map_append, List.pairwise_append]
    refine ⟨h.sorted, by simp, ?_⟩
    intro q hq q' hq'
    obtain ⟨x, hx, rfl⟩ := List.mem_map.1 hq
    obtain rfl : q' = s.count := by simpa using hq'
    rw [hn]
    exact h.lt hx
  · intro q b
    simp only [ne_eq, ht, List.mem_append, List.mem_singleton, h.live_iff, Prod.mk.injEq, getElem?_concat_iff, Op.mk.injEq, true_and, hn]
    constructor
    · rintro (⟨h1, h2⟩ | ⟨rfl, rfl⟩)
      · exact ⟨Or.inl h1, h2⟩
      · refine ⟨Or.inr ⟨rfl, rfl⟩, fun p hp => ?_⟩
        obtain ⟨-, a, -, ha, -, -⟩ := h.target p _ hp
        exact hlt _ _ ha rfl
    · rintro ⟨h1 | ⟨rfl, rfl⟩, h2⟩
      · exact Or.inl ⟨h1, h2⟩
      · exact Or.inr ⟨rfl, rfl⟩
  · intro p q hp
    obtain ⟨hlt, a, b, h1, h2, h3⟩ := h.target p q ((ht p q).1 hp)
    exact ⟨hlt, a, b, getElem?_concat_iff.2 (Or.inl h1), getElem?_concat_iff.2 (Or.inl h2), h3⟩
  · intro p p' q hp hp'
    exact h.injective p p' q ((ht p q).1 hp) ((ht p' q).1 hp')

/-- A removal that finds nothing keeps the facts. -/
theorem Reads.miss {r : α → α → Bool} {ops : List (Op α)} {s : Reading α} (h : Reads r ops s) (b : α) :
    Reads r (ops ++ [⟨false, b⟩]) ⟨s.count + 1, s.live, s.targets ++ [none]⟩ := by
  have ht : ∀ p q : Nat, (s.targets ++ [none])[p]? = some (some q) ↔ s.targets[p]? = some (some q) := by
    intro p q
    simp [getElem?_concat_iff]
  refine ⟨by simp [h.count], by simp [h.length], h.sorted, ?_, ?_, ?_⟩
  · intro q a
    simp [ht, getElem?_concat_iff, h.live_iff]
  · intro p q hp
    obtain ⟨hlt, a, c, h1, h2, h3⟩ := h.target p q ((ht p q).1 hp)
    exact ⟨hlt, a, c, getElem?_concat_iff.2 (Or.inl h1), getElem?_concat_iff.2 (Or.inl h2), h3⟩
  · intro p p' q hp hp'
    exact h.injective p p' q ((ht p q).1 hp) ((ht p' q).1 hp')

/-- A removal that withdraws the newest accepted addition keeps the facts. -/
theorem Reads.hit {r : α → α → Bool} {ops : List (Op α)} {s : Reading α} (h : Reads r ops s) (b : α) {x : Nat × α}
    {live : List (Nat × α)} (hx : s.live.extractLast (fun x => r x.2 b) = some (x, live)) :
    Reads r (ops ++ [⟨false, b⟩]) ⟨s.count + 1, live, s.targets ++ [some x.1]⟩ := by
  obtain ⟨hmem, hr⟩ := List.mem_of_extractLast hx
  obtain ⟨hxo, hxt⟩ := (h.live_iff x.1 x.2).1 hmem
  have hxlt := h.lt hmem
  have hlen := h.length
  have ht : ∀ p q : Nat, (s.targets ++ [some x.1])[p]? = some (some q) ↔
      s.targets[p]? = some (some q) ∨ (p = ops.length ∧ q = x.1) := by
    intro p q
    rw [getElem?_concat_iff, hlen, Option.some.injEq, @eq_comm _ x.1 q]
  obtain ⟨as, bs, hl, hl', -, -⟩ := (List.extractLast_eq_some_iff _ _ _ _).1 hx
  -- The positions of the live list are distinct, so what is left is the live list without the position withdrawn.
  have hkeep : ∀ y : Nat × α, y ∈ live ↔ y ∈ s.live ∧ y.1 ≠ x.1 := by
    intro y
    have hs := h.sorted
    rw [hl, List.map_append, List.map_cons, List.pairwise_append, List.pairwise_cons] at hs
    obtain ⟨-, ⟨hb, -⟩, ha⟩ := hs
    rw [hl, hl']
    simp only [List.mem_append, List.mem_cons]
    constructor
    · rintro (hy | hy)
      · exact ⟨Or.inl hy, (ha y.1 (List.mem_map_of_mem hy) x.1 (by simp)).ne⟩
      · exact ⟨Or.inr (Or.inr hy), (hb y.1 (List.mem_map_of_mem hy)).ne'⟩
    · rintro ⟨hy | rfl | hy, hne⟩
      · exact Or.inl hy
      · exact absurd rfl hne
      · exact Or.inr hy
  refine ⟨by simp [h.count], by simp [hlen], ?_, ?_, ?_, ?_⟩
  · exact h.sorted.sublist ((List.extractLast_sublist hx).map _)
  · intro q a
    simp only [hkeep, h.live_iff, ne_eq, getElem?_concat_iff, hlen, Option.some.injEq, Op.mk.injEq, Bool.false_eq_true,
      false_and, and_false, or_false, not_or, not_and]
    constructor
    · rintro ⟨⟨h1, h2⟩, hne⟩
      exact ⟨h1, fun p => ⟨h2 p, fun _ hq => hne hq.symm⟩⟩
    · rintro ⟨h1, h2⟩
      exact ⟨⟨h1, fun p => (h2 p).1⟩, fun hq => (h2 ops.length).2 rfl hq.symm⟩
  · intro p q hp
    rcases (ht p q).1 hp with hp | ⟨rfl, rfl⟩
    · obtain ⟨hlt, a, c, h1, h2, h3⟩ := h.target p q hp
      exact ⟨hlt, a, c, getElem?_concat_iff.2 (Or.inl h1), getElem?_concat_iff.2 (Or.inl h2), h3⟩
    · exact ⟨hxlt, x.2, b, getElem?_concat_iff.2 (Or.inl hxo), by simp, hr⟩
  · intro p p' q hp hp'
    rcases (ht p q).1 hp with hp | ⟨rfl, rfl⟩ <;> rcases (ht p' _).1 hp' with hp' | ⟨rfl, hq'⟩
    · exact h.injective p p' q hp hp'
    · exact absurd (hq' ▸ hp) (hxt p)
    · exact absurd hp' (hxt p')
    · rfl

/-- Every log is read. -/
theorem reads_run (r : α → α → Bool) (ops : List (Op α)) : Reads r ops (run r ops) := by
  induction ops using List.reverseRecOn with
  | nil => exact reads_empty r
  | append_singleton ops o ih =>
    rw [run_concat]
    obtain ⟨adds, a⟩ := o
    unfold step
    cases adds with
    | true => exact ih.add a
    | false =>
      simp only [Bool.false_eq_true, if_false]
      split
      · exact ih.miss a
      · rename_i hx
        exact ih.hit a hx

/-! ## Agreement of two readings -/

/-- A log over `β` that a log over `α` maps to, with a relation that agrees on the additions and removals compared, reads to
the same positions. -/
theorem run_congr {r : α → α → Bool} {r' : β → β → Bool} {ops : List (Op α)} {ops' : List (Op β)} (hlen : ops.length = ops'.length)
    (hadds : ∀ (p : Nat) o o', ops[p]? = some o → ops'[p]? = some o' → o.adds = o'.adds)
    (hr : ∀ (q p : Nat) a b a' b', q < p → ops[q]? = some ⟨true, a⟩ → ops[p]? = some ⟨false, b⟩ →
      ops'[q]? = some ⟨true, a'⟩ → ops'[p]? = some ⟨false, b'⟩ → r a b = r' a' b') :
    (run r ops).live.map (·.1) = (run r' ops').live.map (·.1) ∧ (run r ops).targets = (run r' ops').targets := by
  induction ops using List.reverseRecOn generalizing ops' with
  | nil =>
    have : ops' = [] := List.eq_nil_of_length_eq_zero (by simpa using hlen.symm)
    subst this
    simp [run, Reading.empty]
  | append_singleton ops o ih =>
    obtain ⟨ops₁, o', rfl⟩ : ∃ ops₁ o', ops' = ops₁ ++ [o'] := by
      rcases List.eq_nil_or_concat ops' with h | ⟨l, x, h⟩
      · subst h
        simp at hlen
      · exact ⟨l, x, by simpa using h⟩
    have hl : ops.length = ops₁.length := by simpa using hlen
    have left : ∀ {q : Nat} {x : Op α}, ops[q]? = some x → (ops ++ [o])[q]? = some x := by
      intro q x h
      rw [List.getElem?_append_left (List.getElem?_eq_some_iff.1 h).1, h]
    have left' : ∀ {q : Nat} {x : Op β}, ops₁[q]? = some x → (ops₁ ++ [o'])[q]? = some x := by
      intro q x h
      rw [List.getElem?_append_left (List.getElem?_eq_some_iff.1 h).1, h]
    obtain ⟨hlive, htargets⟩ := ih hl (fun p o o' h h' => hadds p o o' (left h) (left' h'))
      (fun q p a b a' b' hqp h1 h2 h3 h4 => hr q p a b a' b' hqp (left h1) (left h2) (left' h3) (left' h4))
    have hlast : (ops ++ [o])[ops.length]? = some o := by simp
    have hlast' : (ops₁ ++ [o'])[ops.length]? = some o' := by simp [hl]
    have hread := reads_run r ops
    have hread' := reads_run r' ops₁
    have hcount : (run r ops).count = (run r' ops₁).count := by rw [hread.count, hread'.count, hl]
    have ho := hadds _ _ _ hlast hlast'
    rw [run_concat, run_concat]
    obtain ⟨adds, b⟩ := o
    obtain ⟨adds', b'⟩ := o'
    obtain rfl : adds = adds' := ho
    unfold step
    cases adds with
    | true =>
      simp only [if_true, List.map_append, List.map_cons, List.map_nil, hlive, hcount, htargets, and_self]
    | false =>
      simp only [Bool.false_eq_true, if_false]
      -- The two live lists stand at the same positions, where the two tests agree.
      have hpairs : List.Forall₂ (fun x y => x.1 = y.1 ∧ r x.2 b = r' y.2 b') (run r ops).live (run r' ops₁).live := by
        rw [List.forall₂_iff_get]
        refine ⟨by simpa using congrArg List.length hlive, fun i h1 h2 => ?_⟩
        have hi : ((run r ops).live.get ⟨i, h1⟩).1 = ((run r' ops₁).live.get ⟨i, h2⟩).1 := by
          have := congrArg (·[i]?) hlive
          simpa [h1, h2] using this
        have hx := List.get_mem (run r ops).live ⟨i, h1⟩
        have hy := List.get_mem (run r' ops₁).live ⟨i, h2⟩
        refine ⟨hi, hr _ _ _ _ _ _ (hread.lt hx) (left ((hread.live_iff _ _).1 hx).1) hlast ?_ hlast'⟩
        rw [hi]
        exact left' ((hread'.live_iff _ _).1 hy).1
      have hkey := List.extractLast_forall₂ hpairs
      revert hkey
      cases (run r ops).live.extractLast (fun x => r x.2 b) with
      | none =>
        cases (run r' ops₁).live.extractLast (fun x => r' x.2 b') with
        | none => intro _; exact ⟨hlive, by rw [htargets]⟩
        | some y => intro hc; simp at hc
      | some y =>
        cases (run r' ops₁).live.extractLast (fun x => r' x.2 b') with
        | none => intro hc; simp at hc
        | some y' =>
          intro hc
          simp only [Option.map_some, Option.some.injEq, Prod.mk.injEq] at hc
          exact ⟨hc.2, by simp [htargets, hc.1]⟩

end History
