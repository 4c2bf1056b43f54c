import Mathlib.Tactic

/-!
# Spans of addresses

Half-open spans `[start, stop)` of addresses, and lists of spans that share no address. Such a list stays one when a span of it is cut
in two, shrinks, is extended above all the others, or is joined by a span above all of them.
-/

/-- The addresses from `start` on that are below `stop`. -/
structure Span where
  start : Nat
  stop : Nat
  deriving DecidableEq

namespace Span

/-- The address lies in the span. -/
def Has (s : Span) (address : Nat) : Prop := s.start ≤ address ∧ address < s.stop

/-- The spans share no address. -/
def Apart (a b : Span) : Prop := ∀ address, a.Has address → ¬ b.Has address

/-- The span lies inside another. -/
def Within (a b : Span) : Prop := b.start ≤ a.start ∧ a.stop ≤ b.stop

theorem Within.has {a b : Span} (h : a.Within b) {address : Nat} (ha : a.Has address) : b.Has address :=
  ⟨h.1.trans ha.1, ha.2.trans_le h.2⟩

theorem Apart.symm {a b : Span} (h : a.Apart b) : b.Apart a := by
  intro address hb ha
  exact h address ha hb

instance : Std.Symm Apart := ⟨fun _ _ => Apart.symm⟩

/-- Parts of spans that are apart are apart. -/
theorem Apart.mono {a b a' b' : Span} (h : a.Apart b) (ha : a'.Within a) (hb : b'.Within b) : a'.Apart b' := by
  intro address ha' hb'
  exact h address (ha.has ha') (hb.has hb')

/-- A span that ends where another begins, or before, is apart from it. -/
theorem apart_of_le {a b : Span} (h : a.stop ≤ b.start) : a.Apart b := by
  intro address ha hb
  have := ha.2
  have := hb.1
  omega

/-- Every span of the list ends at or below the bound. -/
def Below (bound : Nat) (spans : List Span) : Prop := ∀ s ∈ spans, s.stop ≤ bound

theorem Below.mono {bound bound' : Nat} {spans : List Span} (h : Below bound spans) (hb : bound ≤ bound') : Below bound' spans := by
  intro s hs
  exact (h s hs).trans hb

/-- A span above all the spans of a list that are apart may join them. -/
theorem pairwise_join {s : Span} {spans : List Span} {bound : Nat} (h : spans.Pairwise Apart) (hb : Below bound spans)
    (hs : bound ≤ s.start) : (s :: spans).Pairwise Apart := by
  refine List.pairwise_cons.2 ⟨?_, h⟩
  intro t ht
  exact (apart_of_le ((hb t ht).trans hs)).symm

/-- A span of a list that are apart may shrink. -/
theorem pairwise_shrink {s s' : Span} {spans : List Span} (h : (s :: spans).Pairwise Apart) (hs : s'.Within s) :
    (s' :: spans).Pairwise Apart := by
  obtain ⟨h1, h2⟩ := List.pairwise_cons.1 h
  refine List.pairwise_cons.2 ⟨?_, h2⟩
  intro t ht
  exact (h1 t ht).mono hs ⟨Nat.le_refl _, Nat.le_refl _⟩

/-- A span of a list that are apart may be cut in two parts that are apart. -/
theorem pairwise_cut {s a b : Span} {spans : List Span} (h : (s :: spans).Pairwise Apart) (ha : a.Within s) (hb : b.Within s)
    (hab : a.Apart b) : (a :: b :: spans).Pairwise Apart := by
  refine List.pairwise_cons.2 ⟨?_, pairwise_shrink h hb⟩
  intro t ht
  rcases List.mem_cons.1 ht with rfl | ht
  · exact hab
  · exact (List.pairwise_cons.1 (pairwise_shrink h ha)).1 t ht

/-- The top span of a list that are apart may be extended upwards. -/
theorem pairwise_extend {s : Span} {spans : List Span} {stop : Nat} (h : (s :: spans).Pairwise Apart) (hb : Below s.stop spans) :
    (⟨s.start, stop⟩ :: spans).Pairwise Apart := by
  obtain ⟨h1, h2⟩ := List.pairwise_cons.1 h
  refine List.pairwise_cons.2 ⟨?_, h2⟩
  intro t ht address hs' ht'
  exact h1 t ht address ⟨hs'.1, ht'.2.trans_le (hb t ht)⟩ ht'

end Span
