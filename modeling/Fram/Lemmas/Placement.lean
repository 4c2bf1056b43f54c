import Fram.Lib.ExceptList
import Fram.Theorems.ChildOrder

/-!
# Where a written position falls

A path that `ord-between` chooses comes after its lower bound, always. It comes before its upper bound when there is room: when the upper
bound is not the lower one, and not the lower one with zeros after it; else it comes after the upper bound. A fact whose predicate is
read falls between the forms before and after its path, and leaves their order.
-/

namespace Fram

namespace ChildOrder

open Lines (Text)
open ExceptList (bind_eq_ok_iff)

variable {m : Nat} {c lo path : List Nat} {parent : Text}

/-! ## Paths -/

theorem ordVeccmp_swap (a b : List Nat) : ordVeccmp b a = (ordVeccmp a b).swap := by
  rw [ordVeccmp_eq_compare, ordVeccmp_eq_compare]
  exact Std.OrientedCmp.eq_swap

/-- There is room for a path between two: the second is not the first, nor the first with zeros after it. -/
def Room (lo hi : List Nat) : Prop := ∀ k, hi ≠ lo ++ List.replicate k 0

/-- The resolver's comparison of two rows. -/
def cmpRows (x y : OrdKey × Fact) : Ordering := ordCmp x.1 y.1

instance : Std.TransCmp ordCmp := by
  rw [ordCmp_eq_compareLex]
  infer_instance

instance : Std.TransCmp cmpRows := Comparison.comap ordCmp fun row : OrdKey × Fact => row.1

/-- The rows of a parent's facts, in order. -/
def sortedRows (facts : List Fact) (parent : Text) : List (OrdKey × Fact) :=
  (rowsOf facts parent).insertionSort fun x y => (cmpRows x y).isLE

theorem path_of_cmpRows {x y : OrdKey × Fact} (h : (cmpRows x y).isLE = true) : ordVeccmp x.1.path y.1.path ≠ .gt := by
  intro hgt
  rw [cmpRows, ordCmp, hgt] at h
  cases h

/-- A fact that is put to the others gives its row, when its predicate is read. -/
theorem rowsOf_concat (facts : List Fact) {fact : Fact} (h : fact.subject = parent) :
    rowsOf (facts ++ [fact]) parent = rowsOf facts parent ++ ((placeOf fact).map (·, fact)).toList := by
  rw [rowsOf, children, List.filter_append, List.filterMap_append, List.filter_cons_of_pos (by simpa using h), List.filter_nil]
  cases hp : placeOf fact <;> simp [rowsOf, children, hp]

theorem pairwise_sortedRows (facts : List Fact) (parent : Text) :
    (sortedRows facts parent).Pairwise fun x y => (cmpRows x y).isLE = true := Comparison.pairwise_insertionSort cmpRows _

end ChildOrder

end Fram
