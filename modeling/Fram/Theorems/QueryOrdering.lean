import Fram.Lemmas.Ordering
import Fram.Lemmas.RowOrder

/-!
# Query ordering

The rows of a result are merge sorted by a comparison that need not be transitive: an integer meets a double as a double, so a double
ties with different integers, and a NaN ties with every number. The result is sorted, and the same however the set of rows is
enumerated, exactly when the comparison is transitive on the rows.

A comparison literal reads both operands as doubles but for equality, which is that of terms; so it orders two integers as the sort
does when they round to different doubles, and not otherwise.

Different rows have different keys, and their order by key does not depend on how they were enumerated; but a key holds the sign of
each zero, which the host's `=` does not tell apart.
-/

namespace Fram

/-! ## Ordered results -/

namespace Query

open Datalog

/-- The comparison of the clauses puts the first row before the second, or ties. -/
def Below (order : List OrderClause) (left right : Tuple) : Prop := ∃ n, orderedRowCompare order left right = .ok n ∧ n ≤ 0

/-- The rows of a plan come sorted: every pair of them is in order, they are the rows of the set, a limit takes the first of them, and
the enumeration of the set does not matter. -/
structure TrueSort (plan : QueryPlan) (rows : List Tuple) : Prop where
  sorted : ∃ sorted : List Tuple, sorted.Perm rows ∧ sorted.Pairwise (Below plan.order) ∧
    orderedPlanRows { plan with limit := none } rows = .ok sorted ∧
    ∀ limit, orderedPlanRows { plan with limit := some limit } rows = .ok (sorted.take limit.toNat)
  enumeration : ∀ rows' : List Tuple, rows'.Perm rows → ∀ limit,
    orderedPlanRows { plan with limit := limit } rows' = orderedPlanRows { plan with limit := limit } rows

section Plans

variable {plan : QueryPlan} {rows : List Tuple}

theorem below_iff {order : List OrderClause} {left right : Tuple} (hl : HasColumns order left) (hr : HasColumns order right) :
    Below order left right ↔ rowLe order left right = true := by
  simp [Below, rowLe, orderedRowCompare_ok hl hr]

theorem pairwise_below_iff {order : List OrderClause} {sorted : List Tuple} (h : ∀ row ∈ sorted, HasColumns order row) :
    sorted.Pairwise (Below order) ↔ sorted.Pairwise (rowLe order · · = true) :=
  List.Pairwise.iff_of_mem fun ha hb => below_iff (h _ ha) (h _ hb)

/-- The rows of a plan are merge sorted. -/
theorem orderedPlanRows_eq (h : ∀ row ∈ rows, HasColumns plan.order row) (limit : Option Int) :
    orderedPlanRows { plan with limit := limit } rows =
      .ok ((limit.elim id fun limit => List.take limit.toNat) (MergeSort.sort (rowLe plan.order) rows)) := by
  unfold orderedPlanRows
  dsimp only
  split
  · rename_i he
    rw [List.isEmpty_iff.1 he, orderRowVector_eq]
    cases limit <;> rfl
  · rw [mergeSortOrderedRows_eq h]
    cases limit <;> rfl

/-- The rows of a plan come sorted exactly when the comparison of the order clauses is transitive on them. -/
theorem trueSort_iff (hcolumns : ∀ row ∈ rows, HasColumns plan.order row) : TrueSort plan rows ↔
      ∀ a ∈ rows, ∀ b ∈ rows, ∀ c ∈ rows, Below plan.order a b → Below plan.order b c → Below plan.order a c := by
  have htotal := rowLe_total hcolumns
  have hanti := rowLe_antisymm hcolumns
  have htrans : MergeSort.TransOn (rowLe plan.order) rows ↔
      ∀ a ∈ rows, ∀ b ∈ rows, ∀ c ∈ rows, Below plan.order a b → Below plan.order b c → Below plan.order a c := by
    refine forall₂_congr fun a ha => forall₂_congr fun b hb => forall₂_congr fun c hc => ?_
    rw [below_iff (hcolumns a ha) (hcolumns b hb), below_iff (hcolumns b hb) (hcolumns c hc), below_iff (hcolumns a ha) (hcolumns c hc)]
  rw [← htrans]
  constructor
  · intro h
    obtain ⟨sorted, hperm, hpairs, -⟩ := h.sorted
    have hsorted : ∀ row ∈ sorted, HasColumns plan.order row := fun row hrow => hcolumns row (hperm.subset hrow)
    exact (MergeSort.exists_pairwise_iff htotal hanti).1 ⟨sorted, hperm, (pairwise_below_iff hsorted).1 hpairs⟩
  · intro ht
    have hperm := MergeSort.perm_sort (rowLe plan.order) rows
    have hsorted : ∀ row ∈ MergeSort.sort (rowLe plan.order) rows, HasColumns plan.order row :=
      fun row hrow => hcolumns row (hperm.subset hrow)
    refine ⟨⟨MergeSort.sort (rowLe plan.order) rows, hperm, (pairwise_below_iff hsorted).2 (MergeSort.pairwise_sort htotal ht),
      orderedPlanRows_eq hcolumns none, fun limit => orderedPlanRows_eq hcolumns (some limit)⟩, fun rows' hp limit => ?_⟩
    have hcolumns' : ∀ row ∈ rows', HasColumns plan.order row := fun row hrow => hcolumns row (hp.subset hrow)
    rw [orderedPlanRows_eq hcolumns limit, orderedPlanRows_eq hcolumns' limit, MergeSort.sort_eq_of_perm htotal hanti ht hp]

/-- The comparison is transitive on rows whose numbers are apart: no NaN is among them, and no double that stands where two different
integers do. -/
theorem below_trans_of_exact {S : Set Atom} (hS : Exact S) {order : List OrderClause} (hcolumns : ∀ row ∈ rows, HasColumns order row)
    (hover : ∀ row ∈ rows, ∀ t ∈ row, Over S t) :
    ∀ a ∈ rows, ∀ b ∈ rows, ∀ c ∈ rows, Below order a b → Below order b c → Below order a c := by
  intro a ha b hb c hc
  rw [below_iff (hcolumns a ha) (hcolumns b hb), below_iff (hcolumns b hb) (hcolumns c hc), below_iff (hcolumns a ha) (hcolumns c hc)]
  simp only [rowLe, decide_eq_true_eq]
  intro hab hbc
  exact (rowOrder_chains hS (hcolumns a ha) (hcolumns b hb) (hcolumns c hc) (hover a ha) (hover b hb) (hover c hc) hab hbc).1

/-- **Query ordering is a true sort** exactly when the comparison of the order clauses is transitive on the rows, and so wherever the
numbers of the rows are apart: no NaN is among them, and no double that stands where two different integers do. -/
theorem query_ordering (plan : QueryPlan) {rows : List Tuple} (hcolumns : ∀ row ∈ rows, HasColumns plan.order row) : (TrueSort plan rows ↔
      ∀ a ∈ rows, ∀ b ∈ rows, ∀ c ∈ rows, Below plan.order a b → Below plan.order b c → Below plan.order a c) ∧
    ∀ S : Set Atom, Exact S → (∀ row ∈ rows, ∀ t ∈ row, Over S t) → TrueSort plan rows :=
  ⟨trueSort_iff hcolumns, fun _ hS hover => (trueSort_iff hcolumns).2 (below_trans_of_exact hS hcolumns hover)⟩

end Plans

/-- A plan that orders by the first column, and then by the second. -/
def orderByTwo : QueryPlan := ⟨⟨"scores", [], [], []⟩, [], [⟨0, ⟨"asc"⟩⟩, ⟨1, ⟨"asc"⟩⟩], none⟩

/-- The integers and the double of two rows are apart. -/
theorem exact_two : Exact {.int 2, .int 1, .int 7, .float F64.zero} := by
  constructor
  · intro x hx
    simp only [Set.mem_insert_iff, Set.mem_singleton_iff, reduceCtorEq, false_or, Atom.float.injEq] at hx
    rw [hx]
    decide
  · intro m n x hm _ hx hmx _
    simp only [Set.mem_insert_iff, Set.mem_singleton_iff, reduceCtorEq, false_or, or_false, Atom.float.injEq, Atom.int.injEq] at hx hm
    subst hx
    -- none of the integers stands where the double does
    rcases hm with rfl | rfl | rfl <;> exact absurd hmx (by with_unfolding_all decide)

/-- An integer and a double, ordered by the first column. -/
theorem query_ordering_two : (TrueSort orderByTwo [[.atom (.int 2), .atom (.int 1)], [.atom (.float F64.zero), .atom (.int 7)]] ↔
      ∀ a ∈ [[Term.atom (.int 2), .atom (.int 1)], [.atom (.float F64.zero), .atom (.int 7)]],
        ∀ b ∈ [[Term.atom (.int 2), .atom (.int 1)], [.atom (.float F64.zero), .atom (.int 7)]],
          ∀ c ∈ [[Term.atom (.int 2), .atom (.int 1)], [.atom (.float F64.zero), .atom (.int 7)]],
            Below orderByTwo.order a b → Below orderByTwo.order b c → Below orderByTwo.order a c) ∧
    TrueSort orderByTwo [[.atom (.int 2), .atom (.int 1)], [.atom (.float F64.zero), .atom (.int 7)]] := by
  have hcolumns : ∀ row ∈ [[Term.atom (.int 2), .atom (.int 1)], [.atom (.float F64.zero), .atom (.int 7)]],
      HasColumns orderByTwo.order row := by
    intro row hrow clause hclause
    fin_cases hrow <;> fin_cases hclause <;> decide
  refine ⟨(query_ordering orderByTwo hcolumns).1, (query_ordering orderByTwo hcolumns).2 _ exact_two ?_⟩
  intro row hrow t ht a ha
  fin_cases hrow <;> simp only [List.mem_cons, List.not_mem_nil, or_false] at ht <;> rcases ht with rfl | rfl <;>
    simp_all [Term.parts]

/-- The rows of three neighbours: two to the fifty-third, its successor, and two to the fifty-third as a double. -/
def neighbours : Tuple × Tuple × Tuple :=
  ([.atom (.int 9007199254740992), .atom (.int 2)], [.atom (.int 9007199254740993), .atom (.int 0)],
    [.atom (.float (F64.ofInt 9007199254740992)), .atom (.int 1)])

/-- Of three rows the first two and the last two are compared. -/
theorem orderedPlanRows_three {clause : OrderClause} {rest : List OrderClause} {plan : QueryPlan} {x y z : Tuple}
    (hplan : plan = ⟨plan.find, plan.strata, clause :: rest, none⟩) (hxy : orderedRowCompare (clause :: rest) x y = .ok (-1))
    (hyz : orderedRowCompare (clause :: rest) y z = .ok (-1)) : orderedPlanRows plan [x, y, z] = .ok [x, y, z] := by
  have hone : ∀ row, mergeSortOrderedRows (clause :: rest) [row] = .ok [row] := by
    intro row
    rw [mergeSortOrderedRows]
    rfl
  have htwo : mergeSortOrderedRows (clause :: rest) [y, z] = .ok [y, z] := by
    rw [mergeSortOrderedRows]
    simp [hone, bind, Except.bind, mergeOrderedRowVectors, hyz]
  have hthree : mergeSortOrderedRows (clause :: rest) [x, y, z] = .ok [x, y, z] := by
    rw [mergeSortOrderedRows]
    simp [hone, htwo, bind, Except.bind, mergeOrderedRowVectors, hxy]
  rw [hplan]
  simp [orderedPlanRows, hthree, bind, Except.bind]

/-- The double ties with both integers of the first column, and the second column then puts the three rows in a ring: enumerated in
two orders, they come in two orders. -/
theorem query_ordering_ring : orderedRowCompare orderByTwo.order neighbours.1 neighbours.2.1 = .ok (-1) ∧
      orderedRowCompare orderByTwo.order neighbours.2.1 neighbours.2.2 = .ok (-1) ∧
      orderedRowCompare orderByTwo.order neighbours.2.2 neighbours.1 = .ok (-1) ∧
      orderedPlanRows orderByTwo [neighbours.1, neighbours.2.1, neighbours.2.2] =
        .ok [neighbours.1, neighbours.2.1, neighbours.2.2] ∧
      orderedPlanRows orderByTwo [neighbours.2.1, neighbours.2.2, neighbours.1] =
        .ok [neighbours.2.1, neighbours.2.2, neighbours.1] := by
  have h12 : orderedRowCompare orderByTwo.order neighbours.1 neighbours.2.1 = .ok (-1) := by rfl
  -- the roundings go through `Nat.log2` and `ℚ`, whose definitions are sealed, so they evaluate only with these unfolded
  have h23 : orderedRowCompare orderByTwo.order neighbours.2.1 neighbours.2.2 = .ok (-1) := by with_unfolding_all decide
  have h31 : orderedRowCompare orderByTwo.order neighbours.2.2 neighbours.1 = .ok (-1) := by with_unfolding_all decide
  exact ⟨h12, h23, h31, orderedPlanRows_three rfl h12 h23, orderedPlanRows_three rfl h23 h31⟩

end Query

/-! ## Comparisons of integers -/

namespace Query

open Datalog

/-- What a comparison operator says of two integers. -/
def integerRelation (operator : Keyword) (left right : Int) : Bool :=
  if operator = ⟨"eq"⟩ then decide (left = right)
  else if operator = ⟨"ne"⟩ then decide (left ≠ right)
  else if operator = ⟨"lt"⟩ then decide (left < right)
  else if operator = ⟨"le"⟩ then decide (left ≤ right)
  else if operator = ⟨"gt"⟩ then decide (right < left)
  else if operator = ⟨"ge"⟩ then decide (right ≤ left)
  else false

/-- Every comparison literal on the two integers holds exactly when the relation does, and exactly when the sort orders the two that
way. -/
def ComparesIntegers (θ : Substitution) (left right : QueryTerm) (a b : Int) : Prop :=
  ∀ operator ∈ comparisonOperators,
    comparisonResult (comparisonLiteral operator [left, right]) θ = .ok (integerRelation operator a b) ∧
      integerRelation operator (termCompare (.atom (.int a)) (.atom (.int b))) 0 = integerRelation operator a b

theorem eqv_int (a b : Int) : (Term.atom (.int a)).eqv (.atom (.int b)) = decide (a = b) := by
  rw [Bool.eq_iff_iff]
  simp [Term.eqv, Atom.eqv]

theorem compareValues_int (operator : Keyword) (a b : Int) : compareValues operator (.atom (.int a)) (.atom (.int b)) =
      if operator = ⟨"eq"⟩ then decide (a = b)
      else if operator = ⟨"ne"⟩ then decide (a ≠ b)
      else integerRelation operator (F64.ofInt a).place (F64.ofInt b).place := by
  unfold compareValues
  rw [eqv_int]
  by_cases heq : operator = ⟨"eq"⟩
  · rw [if_pos heq, if_pos heq]
  · rw [if_neg heq, if_neg heq]
    by_cases hne : operator = ⟨"ne"⟩
    · rw [if_pos hne, if_pos hne, decide_not]
    · rw [if_neg hne, if_neg hne]
      simp only [numericValue, integerRelation, if_neg heq, if_neg hne, F64.lt, F64.le, F64.isNaN_ofInt, Bool.not_false, Bool.true_and]

/-- **Comparison literals agree with the order on integers**, and so with the sort, exactly on the integers that are equal or do not
round to one double. -/
theorem comparisons_of_integers (θ : Substitution) {left right : QueryTerm} {a b : Int}
    (hleft : termValue left θ = some (.atom (.int a))) (hright : termValue right θ = some (.atom (.int b))) :
    ComparesIntegers θ left right a b ↔ a = b ∨ F64.ofInt a ≠ F64.ofInt b := by
  have hresult : ∀ operator, comparisonResult (comparisonLiteral operator [left, right]) θ =
      .ok (compareValues operator (.atom (.int a)) (.atom (.int b))) := by
    intro operator
    simp only [comparisonResult, comparisonLiteral, nth, List.getElem?_cons_zero, List.getElem?_cons_succ, bind, Except.bind, hleft, hright]
    rfl
  constructor
  · intro h
    by_contra hn
    obtain ⟨hab, hof⟩ := not_or.1 hn
    have hplace : (F64.ofInt a).place = (F64.ofInt b).place := F64.ofInt_eq_iff.1 (not_not.1 hof)
    -- One of the two strict comparisons is true of the integers, and neither is of their doubles.
    have hlt := (h ⟨"lt"⟩ (by decide)).1
    have hgt := (h ⟨"gt"⟩ (by decide)).1
    rw [hresult, compareValues_int, Except.ok.injEq, hplace] at hlt hgt
    simp only [integerRelation, Keyword.mk.injEq, String.reduceEq, if_false, if_true, lt_irrefl, decide_false] at hlt hgt
    rcases lt_or_gt_of_ne hab with hlt' | hgt'
    · simp [hlt'] at hlt
    · simp [hgt'] at hgt
  · intro h operator _
    rw [hresult, compareValues_int, termCompare_int, Except.ok.injEq]
    have hlt : (F64.ofInt a).place < (F64.ofInt b).place ↔ a < b := by
      rcases h with rfl | h
      · simp
      · exact F64.place_ofInt_lt_iff h
    have hgt : (F64.ofInt b).place < (F64.ofInt a).place ↔ b < a := by
      rcases h with rfl | h
      · simp
      · exact F64.place_ofInt_lt_iff (Ne.symm h)
    have hle : (F64.ofInt a).place ≤ (F64.ofInt b).place ↔ a ≤ b := by rw [← not_lt, hgt, not_lt]
    have hge : (F64.ofInt b).place ≤ (F64.ofInt a).place ↔ b ≤ a := by rw [← not_lt, hlt, not_lt]
    constructor
    · simp only [integerRelation, hlt, hgt, hle, hge]
      split_ifs <;> rfl
    · unfold intCompare integerRelation
      rcases lt_trichotomy a b with hab | rfl | hab
      · simp [hab, hab.ne, hab.le, hab.not_gt, hab.not_ge]
      · simp
      · simp [hab, hab.ne', hab.le, hab.not_gt, hab.not_ge]

/-- Small integers are compared as they are. -/
theorem comparisons_of_integers_small : ComparesIntegers Substitution.empty (constant (.atom (.int 2))) (constant (.atom (.int 3))) 2 3 :=
  (@comparisons_of_integers Substitution.empty (constant (.atom (.int 2))) (constant (.atom (.int 3))) 2 3 rfl rfl).2
    (Or.inr (by with_unfolding_all decide))

/-- Two to the fifty-third is not below its successor, though it is less and the sort puts it first. -/
theorem comparison_of_neighbours :
    comparisonResult (comparisonLiteral ⟨"lt"⟩ [constant (.atom (.int 9007199254740992)), constant (.atom (.int 9007199254740993))])
        Substitution.empty = .ok false ∧
      integerRelation ⟨"lt"⟩ 9007199254740992 9007199254740993 = true ∧
      termCompare (.atom (.int 9007199254740992)) (.atom (.int 9007199254740993)) = -1 := by
  with_unfolding_all decide

end Query

/-! ## The order by keys -/

namespace Datalog

/-- Rows looked up by the keys in any order are those rows. -/
theorem map_find_rowKey {rows some_ : List Tuple} (h : some_ ⊆ rows) :
    (some_.map rowKey).map (fun key => (rows.reverse.find? fun row => rowKey row == key).getD []) = some_ := by
  rw [List.map_map]
  conv_rhs => rw [← List.map_id some_]
  exact List.map_congr_left fun row hrow => find_rowKey (h hrow)

/-- The order by keys arranges the rows. -/
theorem orderRowVector_perm (rows : List Tuple) : (orderRowVector rows).Perm rows := by
  have hkeys : ((rows.map rowKey).mergeSort textLe).Perm (rows.map rowKey) := List.mergeSort_perm _ _
  have hrows := hkeys.map fun key => (rows.reverse.find? fun row => rowKey row == key).getD []
  rwa [map_find_rowKey (List.Subset.refl rows)] at hrows

/-- The keys of the rows in order are in order. -/
theorem pairwise_orderRowVector (rows : List Tuple) : ((orderRowVector rows).map rowKey).Pairwise (textLe · · = true) := by
  have htotal : ∀ a b : String, (textLe a b || textLe b a) = true := fun a b => by
    rcases textLe_total a b with hle | hle
    · rw [hle, Bool.true_or]
    · rw [hle, Bool.or_true]
  have htrans : ∀ a b c : String, textLe a b = true → textLe b c = true → textLe a c = true := fun _ _ _ => textLe_trans
  have hsorted := @List.pairwise_mergeSort _ textLe htrans htotal (rows.map rowKey)
  have hkeys : (orderRowVector rows).map rowKey = (rows.map rowKey).mergeSort textLe := by
    rw [orderRowVector, List.map_map]
    refine (List.map_congr_left fun key hkey => ?_).trans (List.map_id _)
    obtain ⟨row, hrow, rfl⟩ := List.mem_map.1 ((List.mergeSort_perm _ _).mem_iff.1 hkey)
    exact congrArg rowKey (find_rowKey hrow)
  rwa [hkeys]

/-- Two enumerations of the same rows come out in one order. -/
theorem orderRowVector_congr {rows rows' : List Tuple} (h : rows'.Perm rows) : orderRowVector rows' = orderRowVector rows := by
  have hperm : (orderRowVector rows').Perm (orderRowVector rows) :=
    ((orderRowVector_perm rows').trans h).trans (orderRowVector_perm rows).symm
  have hkeys : (orderRowVector rows').map rowKey = (orderRowVector rows).map rowKey :=
    (hperm.map rowKey).eq_of_pairwise (fun a b _ _ => textLe_antisymm) (pairwise_orderRowVector rows') (pairwise_orderRowVector rows)
  exact List.map_injective_iff.2 (fun _ _ => rowKey_injective) hkeys

/-- **Row keys.** Rows that have one key are one row, with the signs of its zeros. The rows in the order of their keys are the rows, and
for every enumeration of them in the same order. -/
theorem row_keys (rows : List Tuple) :
    (∀ row ∈ rows, ∀ row' ∈ rows, rowKey row = rowKey row' → row = row') ∧ (orderRowVector rows).Perm rows ∧
      ∀ rows' : List Tuple, rows'.Perm rows → orderRowVector rows' = orderRowVector rows :=
  ⟨fun _ _ _ _ => rowKey_injective, orderRowVector_perm rows, fun _ => orderRowVector_congr⟩

/-- Keys of rows whose texts hold what separates keys. -/
example : rowKey [.atom (.string "1:s"), .atom (.string "x")] = "r6:s3:1:s4:s1:x" := by decide

/-- The sets that enumerations stand for are equal for the host. -/
def SameRows (rows rows' : List Tuple) : Prop :=
  (∀ row ∈ rows, ∃ row' ∈ rows', rowEqv row row' = true) ∧ ∀ row' ∈ rows', ∃ row ∈ rows, rowEqv row row' = true

/-- The zero, as a row. -/
def zeroRow : Tuple := [.atom (.float .zero)]

/-- The negative zero, as a row. -/
def negativeZeroRow : Tuple := [.atom (.float .negZero)]

/-- A text, as a row. -/
def textRow : Tuple := [.atom (.string "ab")]

theorem rowKey_zeroRow : rowKey zeroRow = "r5:f0.0;" := by with_unfolding_all decide

theorem rowKey_negativeZeroRow : rowKey negativeZeroRow = "r6:f-0.0;" := by with_unfolding_all decide

theorem rowKey_textRow : rowKey textRow = "r5:s2:ab" := by rfl

/-- Two sets that differ in the sign of a zero are equal, and their rows come out in different orders. -/
theorem row_keys_zeros : SameRows [zeroRow, textRow] [negativeZeroRow, textRow] ∧
    ¬ List.Forall₂ (fun row row' => rowEqv row row' = true) (orderRowVector [zeroRow, textRow])
      (orderRowVector [negativeZeroRow, textRow]) := by
  refine ⟨by simp only [SameRows]; decide, ?_⟩
  have hzero : orderRowVector [zeroRow, textRow] = [zeroRow, textRow] :=
    orderRowVector_of_pairwise (by
      simp only [List.map_cons, List.map_nil, rowKey_zeroRow, rowKey_textRow]
      decide)
  have hnegative : orderRowVector [negativeZeroRow, textRow] = [textRow, negativeZeroRow] := by
    rw [orderRowVector_congr (List.Perm.swap textRow negativeZeroRow [])]
    refine orderRowVector_of_pairwise ?_
    simp only [List.map_cons, List.map_nil, rowKey_negativeZeroRow, rowKey_textRow]
    decide
  rw [hzero, hnegative]
  intro hrows
  cases hrows with
  | cons hfirst hrest => exact absurd hfirst (by decide)

end Datalog

end Fram
