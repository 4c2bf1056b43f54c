import Mathlib.Data.List.Basic

/-!
# Removing the last element that passes a test

`extractLast p l` splits off the last element of `l` that passes `p`. It is how a stack of things in time order gives up its
newest matching one. The lemmas say when it finds nothing, what it leaves, and that it commutes with a filter that keeps every
element the test passes and with a map the test factors through.
-/

namespace List

variable {α β : Type*}

/-- The last element that passes the test, and the list without it. -/
def extractLast (p : α → Bool) : List α → Option (α × List α)
  | [] => none
  | x :: xs =>
    match extractLast p xs with
    | some (y, ys) => some (y, x :: ys)
    | none => if p x then some (x, xs) else none

/-- Nothing is found exactly when nothing passes. -/
theorem extractLast_eq_none_iff (p : α → Bool) (l : List α) : l.extractLast p = none ↔ ∀ x ∈ l, p x = false := by
  induction l with
  | nil => simp [extractLast]
  | cons x xs ih =>
    cases h : xs.extractLast p with
    | none =>
      simp only [extractLast, h, mem_cons, forall_eq_or_imp]
      have := ih.1 h
      cases hp : p x with
      | true => simp
      | false =>
        simp only [Bool.false_eq_true, if_false, true_and, true_iff]
        exact this
    | some r =>
      have hne : ¬∀ y ∈ xs, p y = false := fun hall => by simp [ih.2 hall] at h
      simp only [extractLast, h, reduceCtorEq, mem_cons, forall_eq_or_imp, false_iff, not_and]
      exact fun _ => hne

/-- What is found passes, nothing after it does, and the rest is what stood around it. -/
theorem extractLast_eq_some_iff (p : α → Bool) (l : List α) (x : α) (l' : List α) : l.extractLast p = some (x, l') ↔
      ∃ as bs, l = as ++ x :: bs ∧ l' = as ++ bs ∧ p x = true ∧ ∀ b ∈ bs, p b = false := by
  induction l generalizing x l' with
  | nil => simp [extractLast]
  | cons a l ih =>
    constructor
    · intro h
      cases hl : l.extractLast p with
      | some r =>
        obtain ⟨y, ys⟩ := r
        simp only [extractLast, hl, Option.some.injEq, Prod.mk.injEq] at h
        obtain ⟨rfl, rfl⟩ := h
        obtain ⟨as, bs, rfl, rfl, hp, hb⟩ := (ih y ys).1 hl
        exact ⟨a :: as, bs, rfl, rfl, hp, hb⟩
      | none =>
        simp only [extractLast, hl] at h
        split at h
        · rename_i hp
          simp only [Option.some.injEq, Prod.mk.injEq] at h
          obtain ⟨rfl, rfl⟩ := h
          exact ⟨[], l, rfl, rfl, hp, (extractLast_eq_none_iff p l).1 hl⟩
        · cases h
    · rintro ⟨as, bs, hl, rfl, hp, hb⟩
      cases as with
      | nil =>
        simp only [nil_append, cons.injEq] at hl
        obtain ⟨rfl, rfl⟩ := hl
        simp [extractLast, (extractLast_eq_none_iff p l).2 hb, hp]
      | cons c as =>
        simp only [cons_append, cons.injEq] at hl
        obtain ⟨rfl, rfl⟩ := hl
        have := (ih x (as ++ bs)).2 ⟨as, bs, rfl, rfl, hp, hb⟩
        simp [extractLast, this]

/-- When every element passes, the last one is removed. -/
theorem extractLast_of_forall {p : α → Bool} {l : List α} (h : ∀ x ∈ l, p x = true) :
    l.extractLast p = l.getLast?.map fun x => (x, l.dropLast) := by
  rcases List.eq_nil_or_concat l with rfl | ⟨l', x, rfl⟩
  · rfl
  · have hx : p x = true := h x (by simp)
    rw [(extractLast_eq_some_iff _ _ x l').2 ⟨l', [], by simp, by simp, hx, by simp⟩]
    simp

/-- What is left is a sublist. -/
theorem extractLast_sublist {p : α → Bool} {l l' : List α} {x : α} (h : l.extractLast p = some (x, l')) : l'.Sublist l := by
  obtain ⟨as, bs, rfl, rfl, -, -⟩ := (extractLast_eq_some_iff _ _ _ _).1 h
  exact (Sublist.refl as).append (sublist_cons_self x bs)

theorem mem_of_extractLast {p : α → Bool} {l l' : List α} {x : α} (h : l.extractLast p = some (x, l')) : x ∈ l ∧ p x = true := by
  obtain ⟨as, bs, rfl, -, hp, -⟩ := (extractLast_eq_some_iff _ _ _ _).1 h
  exact ⟨by simp, hp⟩

/-- Two tests that agree on the list extract the same. -/
theorem extractLast_congr {p q : α → Bool} {l : List α} (h : ∀ x ∈ l, p x = q x) : l.extractLast p = l.extractLast q := by
  induction l with
  | nil => rfl
  | cons x xs ih =>
    rw [forall_mem_cons] at h
    simp only [extractLast, ih h.2, h.1]

/-- Extraction from a mapped list. -/
theorem extractLast_map (p : β → Bool) (f : α → β) (l : List α) :
    (l.map f).extractLast p = (l.extractLast (fun x => p (f x))).map (fun r => (f r.1, r.2.map f)) := by
  induction l with
  | nil => rfl
  | cons x xs ih =>
    simp only [map_cons, extractLast, ih]
    cases xs.extractLast (fun x => p (f x)) with
    | none => simp only [Option.map_none]; split <;> rfl
    | some r => rfl

/-- Extraction from a filtered list, when the filter keeps all that passes. -/
theorem extractLast_filter {p g : α → Bool} {l : List α} (h : ∀ x ∈ l, p x = true → g x = true) :
    (l.filter g).extractLast p = (l.extractLast p).map (fun r => (r.1, r.2.filter g)) := by
  induction l with
  | nil => rfl
  | cons x xs ih =>
    rw [forall_mem_cons] at h
    have ihx := ih h.2
    cases hg : g x with
    | true =>
      simp only [filter_cons, hg, if_true, extractLast, ihx]
      cases xs.extractLast p with
      | none => simp only [Option.map_none]; split <;> rfl
      | some r => simp [hg]
    | false =>
      have hp : p x = false := by
        cases hpx : p x
        · rfl
        · exact absurd (h.1 hpx) (by simp [hg])
      simp only [filter_cons, hg, Bool.false_eq_true, if_false, extractLast, ihx]
      cases xs.extractLast p with
      | none => simp [hp]
      | some r => simp [hg]

/-- Extraction from two lists of pairs that agree on the first parts and on the tests. -/
theorem extractLast_forall₂ {γ : Type*} {p : γ × α → Bool} {q : γ × β → Bool} {l : List (γ × α)} {l' : List (γ × β)}
    (h : Forall₂ (fun x y => x.1 = y.1 ∧ p x = q y) l l') : (l.extractLast p).map (fun r => (r.1.1, r.2.map (·.1))) =
      (l'.extractLast q).map (fun r => (r.1.1, r.2.map (·.1))) := by
  induction h with
  | nil => rfl
  | @cons x y l l' hxy hl ih =>
    have hfst : l.map (·.1) = l'.map (·.1) := by
      clear ih
      induction hl with
      | nil => rfl
      | cons h _ ih => simp [h.1, ih]
    simp only [extractLast, ← hxy.2]
    cases hr : l.extractLast p with
    | none =>
      cases hr' : l'.extractLast q with
      | none => cases p x <;> simp [hxy.1, hfst]
      | some r' => simp [hr, hr'] at ih
    | some r =>
      cases hr' : l'.extractLast q with
      | none => simp [hr, hr'] at ih
      | some r' =>
        simp only [hr, hr', Option.map_some, Option.some.injEq, Prod.mk.injEq] at ih
        simp [ih.1, ih.2, hxy.1]

/-- Extraction that the filter throws away leaves the filtered list as it was. -/
theorem filter_of_extractLast {p g : α → Bool} {l l' : List α} {x : α} (h : l.extractLast p = some (x, l'))
    (hg : g x = false) : l'.filter g = l.filter g := by
  obtain ⟨as, bs, rfl, rfl, -, -⟩ := (extractLast_eq_some_iff _ _ _ _).1 h
  simp [hg]

/-- An extraction from a list that a partial function keeps whole. -/
theorem extractLast_filterMap {p : β → Bool} {q : α → Bool} {f : α → Option β} {l : List α} (h : ∀ x ∈ l, ∃ y, f x = some y ∧ p y = q x) :
    (l.filterMap f).extractLast p = (l.extractLast q).bind fun r => (f r.1).map fun y => (y, r.2.filterMap f) := by
  induction l with
  | nil => rfl
  | cons x xs ih =>
    rw [forall_mem_cons] at h
    obtain ⟨⟨y, hy, hp⟩, hxs⟩ := h
    rw [filterMap_cons_some hy]
    simp only [extractLast, ih hxs]
    cases hx : xs.extractLast q with
    | none =>
      simp only [Option.bind_none, hp]
      split <;> simp [hy]
    | some r =>
      obtain ⟨z, hz, -⟩ := hxs r.1 (mem_of_extractLast hx).1
      simp [hz, hy]

/-- Extractions from two lists that are related element by element, the tests with them. -/
theorem extractLast_rel {R : α → β → Prop} {p : α → Bool} {q : β → Bool} {l : List α} {l' : List β} (h : Forall₂ R l l')
    (hpq : ∀ x y, R x y → p x = q y) : Option.Rel (fun a b => R a.1 b.1 ∧ Forall₂ R a.2 b.2) (l.extractLast p) (l'.extractLast q) := by
  induction h with
  | nil => exact .none
  | @cons x y l l' hxy hl ih =>
    simp only [extractLast]
    revert ih
    cases l.extractLast p <;> cases l'.extractLast q <;> intro ih
    · simp only [hpq x y hxy]
      split
      · exact .some ⟨hxy, hl⟩
      · exact .none
    · cases ih
    · cases ih
    · cases ih with
      | some ih => exact .some ⟨ih.1, .cons hxy ih.2⟩

end List
