import Fram.Aggregates

/-!
# Results and pages of a query

The sections of `src/fram/query.bgl` that run a plan over a projection: at once, or page by page. A page is cut by a number of rows and by
the bytes of its printed rows, and the next one begins after the row whose key the cursor holds.

Where a control is given it is one whose checks begin anew. The rounds of an evaluation are bounded; `none` stands for a result that
more rounds would give.
-/

namespace Fram

namespace Query

open Datalog

/-! ## Running a plan -/

/-- (`Projection`) The rows of the base relations, and the sources that stand for relations. -/
structure Projection where
  edb : Db
  candidates : CandidateSources

/-- (`evaluate-plan-result!`) -/
def evaluatePlanResult (Γ : Host) (rounds : Nat) (projection : Projection) (plan : QueryPlan) (control : Option QueryControl) :
    Except Fault QueryEvaluationResult :=
  runStrataDbWithCandidatesResult Γ rounds projection.edb plan.strata projection.candidates control

/-- (`QueryExecutionResult`) -/
structure QueryExecutionResult where
  queryResult : Option QueryResult
  error : Option QueryEvaluationError
  deriving DecidableEq

/-- The rows of the relation that a plan finds, in order, unless there are too many of them. -/
def relationResult (host : QueryHost) (rows : List Tuple) (plan : QueryPlan) : Except Fault QueryResult :=
  if plan.limit.isNone ∧ maxResults host < rows.length then
    .ok (limitedResult
      (queryError "query-result-limit" ("result has " ++ toString rows.length ++ " rows, over limit " ++ toString (maxResults host)))
      rows.length (maxResults host))
  else do
    let ordered ← orderedPlanRows plan rows
    .ok (successResult ordered)

/-- (`run-plan-projected-result!`) -/
def runPlanProjectedResult (host : QueryHost) (Γ : Host) (rounds : Nat) (projection : Projection) (plan : QueryPlan)
    (control : Option QueryControl) : Except Fault (Option QueryExecutionResult) :=
  let errors := validatePlan host plan
  if !errors.isEmpty then .ok (some ⟨some (failureResult errors), none⟩)
  else do
    let evaluation ← evaluatePlanResult Γ rounds projection plan control
    match evaluation.error, evaluation.db with
    | some error, _ => .ok (some ⟨none, some error⟩)
    | none, none => .ok none
    | none, some db => do
      let rows := db plan.find.relation
      let result ← if isAggregateFind plan.find then aggregateResult host rows plan else relationResult host rows plan
      .ok (some ⟨some result, none⟩)

/-! ## Printing -/

/-- (`char-escape-string`) What a character is printed as inside a text. -/
def charEscapeString (c : Char) : String :=
  if c = '\n' then "\\n"
  else if c = '\t' then "\\t"
  else if c = '\r' then "\\r"
  else if c = '"' then "\\\""
  else if c = '\\' then "\\\\"
  else if c = Char.ofNat 12 then "\\f"
  else if c = Char.ofNat 8 then "\\b"
  else c.toString

/-- (`pr-str` of a string) -/
def printText (text : String) : String := "\"" ++ String.join (text.toList.map charEscapeString) ++ "\""

/-- (`pr-str` of a double) -/
def printFloat (x : F64) : String :=
  if x.isNaN then "##NaN"
  else if x.isInfinite then (if x.isNegative then "##-Inf" else "##Inf")
  else floatText x

/-- (`pr-str` of a boolean) -/
def printBool (b : Bool) : String := if b then "true" else "false"

/-- (`pr-str` of an atom) -/
def printAtom : Atom → String
  | .string text => printText text
  | .int n => toString n
  | .float x => printFloat x
  | .bool b => printBool b
  | .keyword k => ":" ++ k.spelling
  | .instant i =>
    "#fram.types.Instant" ++ "\x7b" ++ ":epoch-seconds " ++ toString i.epochSeconds ++ ", :nanos " ++ toString i.nanos ++ "\x7d"

/-- (`pr-str` of a term) -/
def printTerm : Term → String
  | .atom a => printAtom a
  | .triple t1 t2 t3 =>
    "#fram.types.Triple" ++ "\x7b" ++ ":t1 " ++ printTerm t1 ++ ", :t2 " ++ printTerm t2 ++ ", :t3 " ++ printTerm t3 ++ "\x7d"

/-- Texts with a blank between any two. -/
def spaced : List String → String
  | [] => ""
  | [text] => text
  | text :: next :: rest => text ++ " " ++ spaced (next :: rest)

/-- (`pr-str` of a vector) -/
def printVector (elements : List String) : String := "[" ++ spaced elements ++ "]"

/-- (`pr-str` of a row) -/
def printRow (row : Tuple) : String := printVector (row.map printTerm)

/-- (`pr-str` of a cursor) -/
def printCursor (cursor : Option String) : String := cursor.elim "nil" printText

/-! ## Cursors -/

/-- (`QueryPage`) The rows of a page, the cursor of the next one, or why there is none. -/
structure QueryPage where
  rows : List Tuple
  next : Option String
  more : Bool
  errors : List QueryError
  maxBytes : Option Int
  deriving DecidableEq

/-- (`success-page`) -/
def successPage (rows : List Tuple) (next : Option String) (more : Bool) : QueryPage := ⟨rows, next, more, [], none⟩

/-- (`failure-page`) -/
def failurePage (errors : List QueryError) : QueryPage := ⟨[], none, false, errors, none⟩

/-- (`wire-failure-page`) -/
def wireFailurePage (error : QueryError) (maximum : Int) : QueryPage := ⟨[], none, false, [error], some maximum⟩

/-- (`max-page-limit`) -/
def maxPageLimit : Int := 4096

/-- The bytes that a page may take: the whole answer, its payload, and its cursor. -/
structure PageBudget where
  wireBytes : Nat
  payloadBytes : Nat
  cursorBytes : Nat

/-- (`max-page-wire-bytes`, `max-page-payload-bytes`, `max-page-cursor-bytes`) -/
def maxPageBudget : PageBudget := ⟨1048576, 1048576 - 512, 524288⟩

/-- (`page-cursor-prefix`) -/
def pageCursorPrefix : String := "fram-query-term-page-v1."

/-- (`utf8-size`) -/
def utf8Size (value : String) : Nat := value.utf8ByteSize

/-- (`page-cursor`) -/
def pageCursor (row : Tuple) : String := pageCursorPrefix ++ rowKey row

/-- What a caller passes as a cursor: nothing, a text, or something else. -/
inductive After where
  | absent
  | text (cursor : String)
  | other
  deriving DecidableEq

/-- (`decode-page-cursor`) The key that a text holds as a cursor. -/
def decodePageCursor (budget : PageBudget) (cursor : String) : Except QueryError String :=
  if budget.cursorBytes < utf8Size cursor ∨ ¬pageCursorPrefix.toList <+: cursor.toList ∨ cursor = pageCursorPrefix then
    .error (queryError "query-page-cursor" "page cursor is not canonical")
  else .ok (String.ofList (cursor.toList.drop pageCursorPrefix.length))

/-! ## Cutting a page -/

/-- (`page-envelope`) The page of the first rows of a window. -/
def pageEnvelope (window : List Tuple) (count : Nat) : QueryPage :=
  let rows := window.take count
  let more := decide (count < window.length)
  successPage rows (if more then rows.getLast?.map pageCursor else none) more

/-- (`envelope-size`) -/
def envelopeSize (rowsSize : Nat) (next : Option String) (more : Bool) : Nat :=
  utf8Size "rows:" + rowsSize + utf8Size "|next:" + utf8Size (printCursor next) + utf8Size "|more:" + utf8Size (printBool more)

/-- The page whose rows take these bytes and that ends with this row is within the budget. -/
def fits (budget : PageBudget) (row : Tuple) (rowsSize : Nat) (more : Bool) : Bool :=
  let next := if more then some (pageCursor row) else none
  next.all (fun cursor => utf8Size cursor ≤ budget.cursorBytes) && decide (envelopeSize rowsSize next more ≤ budget.payloadBytes)

/-- The most rows that fit, after `index` rows that take `rowsSize` bytes and of which `best` fit. -/
def fittingFrom (budget : PageBudget) (windowCount : Nat) : List Tuple → Nat → Nat → Nat → Nat
  | [], _, _, best => best
  | row :: rows, index, rowsSize, best =>
    let count := index + 1
    let rowsSize := rowsSize + (if index = 0 then 0 else 1) + utf8Size (printRow row)
    fittingFrom budget windowCount rows count rowsSize
      (if fits budget row rowsSize (decide (count < windowCount)) then count else best)

/-- (`fitting-prefix`) How many of the wanted rows of a window fit a page. -/
def fittingPrefix (budget : PageBudget) (window : List Tuple) (wanted : Nat) : Nat :=
  fittingFrom budget window.length (window.take wanted) 0 2 0

/-- (`rows-after-key`) The rows after the first one with the key. -/
def rowsAfterKey : List Tuple → String → List Tuple
  | [], _ => []
  | row :: rows, key => if key = rowKey row then rows else rowsAfterKey rows key

/-! ## Pages -/

/-- (`evaluation-error-page-or-raise!`) An abort is the error of a page; any other error is thrown. -/
def evaluationErrorPageOrRaise (error : QueryEvaluationError) : Except Fault QueryPage :=
  if error.errorType = ⟨"fram-query-abort"⟩ then .ok (failurePage [⟨error.code, error.message⟩])
  else .error ⟨error.errorType, error.message⟩

/-- The page of the rows in order that come after a key. -/
def pageOfRows (budget : PageBudget) (ordered : List Tuple) (limit : Nat) (afterKey : Option String) : QueryPage :=
  let eligible := afterKey.elim ordered (rowsAfterKey ordered)
  let window := eligible.take (limit + 1)
  let wanted := min limit window.length
  if wanted = 0 then pageEnvelope window 0
  else
    let count := fittingPrefix budget window wanted
    if count = 0 then
      wireFailurePage
        (queryError "query-page-row-too-large" "page contains a row too large for the bounded response") budget.wireBytes
    else pageEnvelope window count

/-- The key that a caller's cursor holds, if there is a cursor. -/
def afterKeyOf (budget : PageBudget) : After → Except QueryError (Option String)
  | .absent => .ok none
  | .text cursor => (decodePageCursor budget cursor).map some
  | .other => .error (queryError "query-page-cursor" "page cursor must be a string or nil")

/-- (`run-page-plan-projected!`) A page of a plan, within a budget; the source's is `maxPageBudget`. A limit that is no integer is
`none`. -/
def runPagePlanProjected (budget : PageBudget) (host : QueryHost) (Γ : Host) (rounds : Nat) (projection : Projection)
    (plan : QueryPlan) (control : Option QueryControl) (limit : Option Int) (after : After) : Except Fault (Option QueryPage) :=
  let errors := validatePlan host plan
  if !errors.isEmpty then .ok (some (failurePage errors))
  else if isAggregateFind plan.find then
    .ok (some (failurePage [queryError "query-aggregate-not-pageable" "aggregate results are not pageable"]))
  else
    match limit.filter fun n => decide (1 ≤ n) && decide (n ≤ maxPageLimit), afterKeyOf budget after with
    | none, _ =>
      .ok (some (failurePage [queryError "query-page-limit" ("page limit must be from 1 through " ++ toString maxPageLimit)]))
    | some _, .error error => .ok (some (failurePage [error]))
    | some limit, .ok afterKey => do
      -- what is thrown here is not an abort: those are recorded
      let evaluation ← evaluatePlanResult Γ rounds projection plan control
      match evaluation.error, evaluation.db with
      | some error, _ => some <$> evaluationErrorPageOrRaise error
      | none, none => .ok none
      | none, some db => do
        let ordered ← orderedPlanRows plan (db plan.find.relation)
        .ok (some (pageOfRows budget ordered limit.toNat afterKey))

end Query

end Fram
