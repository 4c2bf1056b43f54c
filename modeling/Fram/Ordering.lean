import Fram.Query
import Fram.Datalog

/-!
# The order of a result

The section of `src/fram/query.bgl` that orders the rows of a result: a comparison of terms, kind by kind, a comparison of rows by the
order clauses and last by their keys, and a merge sort.

A comparison answers a number whose sign is the order; of the host's `compare` the sign only is kept.
-/

namespace Fram

namespace Query

open Datalog

/-! ## Comparing terms -/

/-- (`term-rank`) The kinds of terms in order. -/
def termRank : Term → Int
  | .atom (.bool _) => 0
  | .atom (.int _) => 1
  | .atom (.float _) => 1
  | .atom (.string _) => 2
  | .atom (.keyword _) => 3
  | .atom (.instant _) => 4
  | .triple _ _ _ => 5

/-- (`int-compare`) -/
def intCompare (left right : Int) : Int := if left < right then -1 else if right < left then 1 else 0

/-- (`bool-compare`) -/
def boolCompare (left right : Bool) : Int := if left = right then 0 else if left then 1 else -1

/-- (`float-compare`) -/
def floatCompare (left right : F64) : Int := if left.lt right then -1 else if right.lt left then 1 else 0

/-- (`compare` of strings) The order of two texts, by their UTF-16 units. -/
def textCompare (left right : String) : Int := if !textLe right left then -1 else if !textLe left right then 1 else 0

/-- (`term-compare`) The order of two terms: by kind, then by value within a kind. An integer meets a double as a double. -/
def termCompare (left right : Term) : Int :=
  let rankOrder := intCompare (termRank left) (termRank right)
  if rankOrder ≠ 0 then rankOrder
  else
    match left, right with
    | .atom (.bool left), .atom (.bool right) => boolCompare left right
    | .atom (.int left), .atom (.int right) => intCompare left right
    | .atom (.int left), .atom (.float right) => floatCompare (F64.ofInt left) right
    | .atom (.float left), .atom (.int right) => floatCompare left (F64.ofInt right)
    | .atom (.float left), .atom (.float right) => floatCompare left right
    | .atom (.string left), .atom (.string right) => textCompare left right
    | .atom (.keyword left), .atom (.keyword right) => textCompare (":" ++ left.spelling) (":" ++ right.spelling)
    | .atom (.instant left), .atom (.instant right) =>
      let secondsOrder := intCompare left.epochSeconds right.epochSeconds
      if secondsOrder = 0 then intCompare left.nanos right.nanos else secondsOrder
    | .triple left1 left2 left3, .triple right1 right2 right3 =>
      let firstOrder := termCompare left1 right1
      let secondOrder := if firstOrder = 0 then termCompare left2 right2 else firstOrder
      if secondOrder = 0 then termCompare left3 right3 else secondOrder
    | left, right => textCompare (termKey left) (termKey right)

/-! ## Ordering rows -/

/-- (`nth` of a row) The value in a column; where there is none the host throws. -/
def columnValue (row : Tuple) (column : Int) : Except Fault Term :=
  if column < 0 then .error ⟨⟨"index-out-of-bounds"⟩, "index is out of bounds"⟩ else nth row column.toNat

/-- (`ordered-row-compare`) The order of two rows: by the clauses from left to right, and last by the keys of the rows. -/
def orderedRowCompare : List OrderClause → Tuple → Tuple → Except Fault Int
  | [], left, right => .ok (textCompare (rowKey left) (rowKey right))
  | clause :: rest, left, right => do
    let leftValue ← columnValue left clause.column
    let rightValue ← columnValue right clause.column
    let columnOrder := termCompare leftValue rightValue
    let directedOrder := if clause.direction = ⟨"desc"⟩ then -columnOrder else columnOrder
    if directedOrder = 0 then orderedRowCompare rest left right else .ok directedOrder

/-- (`merge-ordered-row-vectors`) Two vectors as one, the first row of the left one before that of the right one unless it is
greater. -/
def mergeOrderedRowVectors (order : List OrderClause) : List Tuple → List Tuple → Except Fault (List Tuple)
  | [], right => .ok right
  | left :: lefts, [] => .ok (left :: lefts)
  | left :: lefts, right :: rights => do
    let rowOrder ← orderedRowCompare order left right
    if rowOrder ≤ 0 then
      let merged ← mergeOrderedRowVectors order lefts (right :: rights)
      .ok (left :: merged)
    else
      let merged ← mergeOrderedRowVectors order (left :: lefts) rights
      .ok (right :: merged)
termination_by lefts rights => lefts.length + rights.length

/-- (`merge-sort-ordered-rows`) Both halves sorted, and merged. -/
def mergeSortOrderedRows (order : List OrderClause) (rows : List Tuple) : Except Fault (List Tuple) :=
  if h : rows.length ≤ 1 then .ok rows
  else do
    let left ← mergeSortOrderedRows order (rows.take (rows.length / 2))
    let right ← mergeSortOrderedRows order (rows.drop (rows.length / 2))
    mergeOrderedRowVectors order left right
termination_by rows.length
decreasing_by
  · simp only [List.length_take]
    omega
  · simp only [List.length_drop]
    omega

/-- (`ordered-plan-rows`) The rows of a result in the order of the plan, and as many as its limit allows. -/
def orderedPlanRows (plan : QueryPlan) (rows : List Tuple) : Except Fault (List Tuple) := do
  let ordered ← if plan.order.isEmpty then .ok (orderRowVector rows) else mergeSortOrderedRows plan.order rows
  match plan.limit with
  | some limit => .ok (ordered.take limit.toNat)
  | none => .ok ordered

end Query

end Fram
