import Mathlib.Order.Bounds.Basic
import Mathlib.Data.Set.Lattice

/-!
# Semi-naive iteration

An operator on sets of facts, monotone on a family of sets, and a second operator that gives what the newest facts add to a set
(`Laws`). A round applies the second one only. `Between` is what holds between two rounds: the facts without the newest ones have been
applied already. When a round adds nothing, the facts are the least set that holds the base and that the operator does not leave, and
this is what applying the operator in full, again and again, comes to.
-/

namespace SemiNaive

variable {α : Type}

/-- The sets of a family that hold the base and that the operator does not leave. -/
def Closed (Within : Set α → Prop) (T : Set α → Set α) (base : Set α) : Set (Set α) := {X | Within X ∧ base ⊆ X ∧ T X ⊆ X}

/-- Naive iteration: the operator applied in full, and its facts added, a number of times. -/
def naive (T : Set α → Set α) (base : Set α) : Nat → Set α
  | 0 => base
  | n + 1 => naive T base n ∪ T (naive T base n)

/-- What semi-naive iteration asks of the two operators. -/
structure Laws (Within : Set α → Prop) (T : Set α → Set α) (D : Set α → Set α → Set α) : Prop where
  grow : ∀ X Y, Within X → Y ⊆ T X → Within (X ∪ Y)
  mono : ∀ X Y, Within X → Within Y → X ⊆ Y → T X ⊆ T Y
  complete : ∀ A δ, Within A → Within (A ∪ δ) → T (A ∪ δ) ⊆ T A ∪ D (A ∪ δ) δ
  sound : ∀ X δ, Within X → δ ⊆ X → D X δ ⊆ T X

/-- What holds between two rounds of the facts and the newest of them. -/
structure Between (Within : Set α → Prop) (T : Set α → Set α) (base full δ : Set α) : Prop where
  within : Within full
  holds : base ⊆ full
  old : ∃ A, Within A ∧ full = A ∪ δ ∧ T A ⊆ full
  reached : ∃ n, full ⊆ naive T base n

section Rounds

variable {Within : Set α → Prop} {T : Set α → Set α} {D : Set α → Set α → Set α} {base full δ new X : Set α}

theorem Laws.within_naive (h : Laws Within T D) (hbase : Within base) (n : Nat) : Within (naive T base n) := by
  induction n with
  | zero => exact hbase
  | succ n ih => exact h.grow _ _ ih Set.Subset.rfl

/-- Naive iteration stays within every closed set. -/
theorem Laws.naive_subset (h : Laws Within T D) (hbase : Within base) (hX : X ∈ Closed Within T base) (n : Nat) : naive T base n ⊆ X := by
  induction n with
  | zero => exact hX.2.1
  | succ n ih => exact Set.union_subset ih ((h.mono _ _ (h.within_naive hbase n) hX.1 ih).trans hX.2.2)

/-- The operator applied once in full starts the rounds. -/
theorem Laws.start (h : Laws Within T D) (hbase : Within base) (hsub : δ ⊆ base ∪ T base) (hall : T base ⊆ base ∪ δ) :
    Between Within T base (base ∪ δ) δ where
  within := by
    have hall' : base ∪ δ = base ∪ T base :=
      (Set.union_subset Set.subset_union_left hsub).antisymm (Set.union_subset Set.subset_union_left hall)
    rw [hall']
    exact h.grow _ _ hbase Set.Subset.rfl
  holds := Set.subset_union_left
  old := ⟨base, hbase, rfl, hall⟩
  reached := ⟨1, Set.union_subset Set.subset_union_left hsub⟩

/-- One round. -/
theorem Laws.next (h : Laws Within T D) (hbase : Within base) (hb : Between Within T base full δ) (hsub : new ⊆ D full δ)
    (hall : D full δ ⊆ full ∪ new) : Between Within T base (full ∪ new) new := by
  obtain ⟨A, hA, rfl, hTA⟩ := hb.old
  have hnew : new ⊆ T (A ∪ δ) := hsub.trans (h.sound _ _ hb.within Set.subset_union_right)
  refine ⟨h.grow _ _ hb.within hnew, hb.holds.trans Set.subset_union_left, ⟨A ∪ δ, hb.within, rfl, ?_⟩, ?_⟩
  · exact (h.complete A δ hA hb.within).trans (Set.union_subset (hTA.trans Set.subset_union_left) hall)
  · obtain ⟨n, hn⟩ := hb.reached
    exact ⟨n + 1, Set.union_subset_union hn (hnew.trans (h.mono _ _ hb.within (h.within_naive hbase n) hn))⟩

/-- The facts between two rounds are in every closed set. -/
theorem Laws.below (h : Laws Within T D) (hbase : Within base) (hb : Between Within T base full δ) (hX : X ∈ Closed Within T base) :
    full ⊆ X := by
  obtain ⟨n, hn⟩ := hb.reached
  exact hn.trans (h.naive_subset hbase hX n)

/-- When a round would add nothing, the facts are the least closed set. -/
theorem Laws.isLeast (h : Laws Within T D) (hbase : Within base) (hb : Between Within T base full δ) (hnone : D full δ ⊆ full) :
    IsLeast (Closed Within T base) full := by
  obtain ⟨A, hA, rfl, hTA⟩ := id hb.old
  exact ⟨⟨hb.within, hb.holds, (h.complete A δ hA hb.within).trans (Set.union_subset hTA hnone)⟩, fun X hX => h.below hbase hb hX⟩

end Rounds

end SemiNaive
