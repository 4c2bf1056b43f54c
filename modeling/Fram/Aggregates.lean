import Fram.Mutation
import Fram.Ordering

/-!
# Aggregates

The section of `src/fram/query.bgl` that groups the rows of a relation by some of their columns and answers for each group its count,
the count of different values of a column, or the sum, the average, the least or the greatest number of a column. A text that spells a
number counts as the number.
-/

namespace Fram

namespace Query

open Datalog

/-! ## Results -/

/-- (`QueryResult`) The rows of a result, or why there is none. -/
structure QueryResult where
  rows : List Tuple
  errors : List QueryError
  overLimit : Option Int
  maximum : Option Int
  deriving DecidableEq

/-- (`success-result`) -/
def successResult (rows : List Tuple) : QueryResult := ⟨rows, [], none, none⟩

/-- (`failure-result`) -/
def failureResult (errors : List QueryError) : QueryResult := ⟨[], errors, none, none⟩

/-- (`limited-result`) -/
def limitedResult (error : QueryError) (count maximum : Int) : QueryResult := ⟨[], [error], some count, some maximum⟩

/-! ## Numbers -/

/-- (`NumericAtom`) A number, an integer or a double. -/
inductive NumericAtom where
  | int (n : Int)
  | float (x : F64)
  deriving DecidableEq

/-- The number as a term. -/
def NumericAtom.term : NumericAtom → Term
  | .int n => .atom (.int n)
  | .float x => .atom (.float x)

/-- (`numeric-aggregate-operators`) -/
def numericAggregateOperators : List Keyword := [⟨"sum"⟩, ⟨"avg"⟩, ⟨"min"⟩, ⟨"max"⟩]

/-- (`number-atom`) The number that a term is, or that its text spells. -/
def numberAtom : Term → Option NumericAtom
  | .atom (.int n) => some (.int n)
  | .atom (.float x) => some (.float x)
  | .atom (.string text) =>
    match parseLong text with
    | some n => some (.int n)
    | none => (parseDouble text).map .float
  | _ => none

/-- (`required-number`) -/
def requiredNumber (value : Term) : NumericAtom := (numberAtom value).getD (.int 0)

/-- (`numeric-int`) -/
def numericInt : NumericAtom → Int
  | .int n => n
  | .float _ => 0

/-- (`numeric-float`) -/
def numericFloat : NumericAtom → F64
  | .int n => F64.ofInt n
  | .float x => x

/-- (`nonnumeric-row?`) Some row has no number in the column. -/
def nonnumericRow (position : Int) : List Tuple → Except Fault Bool
  | [] => .ok false
  | row :: rows => do
    let value ← columnValue row position
    if (numberAtom value).isNone then .ok true else nonnumericRow position rows

/-- (`numeric-column-error`) The error of the first aggregate of numbers over a column with something else. -/
def numericColumnError (rows : List Tuple) : List AggregateSpec → Except Fault (Option QueryError)
  | [] => .ok none
  | spec :: specs =>
    if spec.operator ∈ numericAggregateOperators then do
      let position := spec.argument.getD 0
      let bad ← nonnumericRow position rows
      if bad then
        .ok (some (queryError "query-nonnumeric-aggregate" ("aggregate position " ++ toString position ++ " contains a non-numeric Term")))
      else numericColumnError rows specs
    else numericColumnError rows specs

/-! ## Groups -/

/-- (`AggregateGroup`) The rows that agree on the columns of the grouping, under the text of those columns. -/
structure AggregateGroup where
  keyText : String
  key : Tuple
  members : List Tuple
  deriving DecidableEq

/-- The groups with one more row: in the group of its key, or in a new one. -/
def addToGroup (groups : List AggregateGroup) (key : Tuple) (row : Tuple) : List AggregateGroup :=
  if groups.any fun group => group.keyText == rowKey key then
    groups.map fun group => if group.keyText = rowKey key then { group with members := group.members ++ [row] } else group
  else groups ++ [⟨rowKey key, key, [row]⟩]

/-- (`group-rows`) The rows by group, the groups in the order of their first rows. -/
def groupRows (rows : List Tuple) (grouping : List Int) : Except Fault (List AggregateGroup) :=
  rows.foldlM (fun groups row => do
    let key ← grouping.mapM (columnValue row)
    .ok (addToGroup groups key row)) []

/-! ## The value of an aggregate -/

/-- The values of a column, row by row. -/
def columnValues (rows : List Tuple) (position : Int) : Except Fault (List Term) := rows.mapM (columnValue · position)

/-- (`all-integers?`) -/
def allIntegers (values : List Term) : Bool :=
  values.all fun value =>
    match requiredNumber value with
    | .int _ => true
    | .float _ => false

/-- (`sum-values`) The sum of a column: of integers, which throws past the range of an integer, or of doubles from the left. -/
def sumValues (rows : List Tuple) (position : Int) : Except Fault NumericAtom := do
  let values ← columnValues rows position
  if allIntegers values then do
    let sum ← values.foldlM (fun sum value => Database.addLong sum (numericInt (requiredNumber value))) 0
    .ok (.int sum)
  else .ok (.float (values.foldl (fun sum value => sum.add (numericFloat (requiredNumber value))) F64.zero))

/-- The number that stays when a candidate meets the best so far: it changes for a candidate strictly past it as a double. -/
def betterOf (maximum : Bool) (best candidate : NumericAtom) : NumericAtom :=
  if (if maximum then (numericFloat best).lt (numericFloat candidate) else (numericFloat candidate).lt (numericFloat best)) then candidate
  else best

/-- (`extreme-value`) The least or the greatest number of a column, nothing when there are no rows. -/
def extremeValue (rows : List Tuple) (position : Int) (maximum : Bool) : Except Fault (Option NumericAtom) := do
  let values ← columnValues rows position
  .ok (values.foldl (fun best value => some (best.elim (requiredNumber value) fun best => betterOf maximum best (requiredNumber value)))
    none)

/-- (`distinct-column-count`) How many different values a column has. -/
def distinctColumnCount (rows : List Tuple) (position : Int) : Except Fault Int := do
  let values ← columnValues rows position
  .ok ((values.map termKey).foldl conjName []).length

/-- (`aggregate-value`) -/
def aggregateValue (rows : List Tuple) (spec : AggregateSpec) : Except Fault NumericAtom :=
  let position := spec.argument.getD 0
  if spec.operator = ⟨"count"⟩ then .ok (.int rows.length)
  else if spec.operator = ⟨"count-distinct"⟩ then do
    let count ← distinctColumnCount rows position
    .ok (.int count)
  else if spec.operator = ⟨"sum"⟩ then sumValues rows position
  else if spec.operator = ⟨"avg"⟩ then do
    let sum ← sumValues rows position
    .ok (.float ((numericFloat sum).div (F64.ofInt rows.length)))
  else if spec.operator = ⟨"min"⟩ then do
    let least ← extremeValue rows position false
    .ok (least.getD (.int 0))
  else if spec.operator = ⟨"max"⟩ then do
    let greatest ← extremeValue rows position true
    .ok (greatest.getD (.int 0))
  else .ok (.int 0)

/-- (`comparison-number`) -/
def comparisonNumber (operator : Keyword) (left right : NumericAtom) : Bool :=
  let x := numericFloat left
  let y := numericFloat right
  if operator = ⟨"eq"⟩ then x.eqv y
  else if operator = ⟨"ne"⟩ then !x.eqv y
  else if operator = ⟨"lt"⟩ then x.lt y
  else if operator = ⟨"le"⟩ then x.le y
  else if operator = ⟨"gt"⟩ then y.lt x
  else if operator = ⟨"ge"⟩ then y.le x
  else false

/-- (`aggregate-values`) -/
def aggregateValues (rows : List Tuple) (specs : List AggregateSpec) : Except Fault (List NumericAtom) :=
  specs.mapM (aggregateValue rows)

/-- (`append-aggregate-values`) -/
def appendAggregateValues (row : Tuple) (values : List NumericAtom) : Tuple := row ++ values.map (·.term)

/-- (`having-passes?`) The row passes every comparison. -/
def havingPasses (row : Tuple) (groupingCount : Int) : List HavingClause → Except Fault Bool
  | [] => .ok true
  | clause :: clauses => do
    let value ← columnValue row (groupingCount + clause.aggregateIndex)
    if comparisonNumber clause.operator (requiredNumber value) (requiredNumber clause.value) then
      havingPasses row groupingCount clauses
    else .ok false

/-- The row of a group: its key, then its aggregates. -/
def groupRow (find : FindSpec) (group : AggregateGroup) : Except Fault Tuple := do
  let values ← aggregateValues group.members find.aggregates
  .ok (appendAggregateValues group.key values)

/-- The rows of the groups that pass the comparisons. -/
def aggregatedRows (rows : List Tuple) (find : FindSpec) : Except Fault (List Tuple) := do
  let groups ← groupRows rows find.grouping
  let aggregated ← groups.mapM (groupRow find)
  aggregated.filterM fun row => havingPasses row find.grouping.length find.having

/-- (`aggregate-result`) The aggregates of the rows of the relation, in the order of the plan. -/
def aggregateResult (host : QueryHost) (rows : List Tuple) (plan : QueryPlan) : Except Fault QueryResult :=
  if rows.isEmpty then .ok (successResult [])
  else do
    let numericError ← numericColumnError rows plan.find.aggregates
    match numericError with
    | some error => .ok (failureResult [error])
    | none => do
      let survivors ← aggregatedRows rows plan.find
      if plan.limit.isNone ∧ maxResults host < survivors.length then
        .ok (limitedResult
          (queryError "query-result-limit"
            ("aggregate result has " ++ toString survivors.length ++ " groups, over limit " ++ toString (maxResults host)))
          survivors.length (maxResults host))
      else do
        let ordered ← orderedPlanRows plan survivors
        .ok (successResult ordered)

end Query

end Fram
