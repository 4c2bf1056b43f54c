import Fram.Dispatch
import Fram.Dump
import Fram.Kernel
import Fram.QueryOps
import Fram.QueryPages
import Fram.TextSearch

/-!
# The read route

`src/fram/native_query_ops.bgl`: queries, occurrences and validation. A plan is read from the records of a request, a window of history
is chosen by its snapshot and its cursor, the rows come from the cache or from an evaluation that is then kept, and a page of them is cut.

A read of the source goes on after its first error with values that stand in for what is missing, and answers that error at the end;
here it stops. What the host gives is a parameter: its digest, its texts, and for an evaluation its clock and the rounds that its loops
may run.
-/

namespace Fram

namespace QueryOps

open Datalog Query

/-! ## Limits -/

/-- (`default-query-timeout-ms`) -/
def defaultQueryTimeoutMs : Int := 5000

/-- (`max-query-timeout-ms`) -/
def maxQueryTimeoutMs : Int := 60000

/-- (`query-step-limit`) -/
def queryStepLimit : Int := 10000000

/-- (`rpc-v2-max-unpaged-rows`) -/
def rpcV2MaxUnpagedRows : Nat := termCodecV1MaxDepth - 8

/-- (`retryable-error-codes`) -/
def retryableErrorCodes : List Keyword :=
  [⟨"rpc/conflict"⟩, ⟨"rpc/cancelled"⟩, ⟨"query-cancelled"⟩, ⟨"query-time-limit"⟩, ⟨"query-work-limit"⟩,
    ⟨"query/archive-unavailable"⟩, ⟨"durability-ambiguous"⟩]

/-! ## Records -/

/-- A read that fails. -/
def failRead {α : Type} (code message : String) : Except ReadError α := .error ⟨⟨code⟩, message⟩

/-- (`read-list!`) -/
def readListFields (value : Term) : Except ReadError (List Term) :=
  match readList value with
  | .ok values => .ok values
  | .error message => failRead "rpc-invalid-list" message

/-- (`read-record!`) -/
def readRecordFields (value : Term) (tag : String) (fieldCount : Nat) : Except ReadError (List Term) :=
  match value with
  | .triple t1 t2 t3 =>
    if t1 = .kw tag ∧ t3 = .kw "rpc/record" then do
      let fields ← readListFields t2
      if fields.length = fieldCount then .ok fields
      else failRead "rpc-invalid-record" "RPC record contains the wrong number of fields"
    else failRead "rpc-invalid-record" "RPC record tag or marker is invalid"
  | .atom _ => failRead "rpc-invalid-record" "RPC record tag or marker is invalid"

/-- (`read-option!`) -/
def readOptionField (value : Term) : Except ReadError (Option Term) :=
  match readOption value with
  | .ok value => .ok value
  | .error message => failRead "rpc-invalid-option" message

/-- (`require-string!`) -/
def requireString (value : Term) (label : String) : Except ReadError String :=
  match value with
  | .atom (.string text) => .ok text
  | _ => failRead "rpc-invalid-payload" (label ++ " must be a String")

/-- (`require-int!`) -/
def requireInt (value : Term) (label : String) : Except ReadError Int :=
  match value with
  | .atom (.int n) => .ok n
  | _ => failRead "rpc-invalid-payload" (label ++ " must be an Int")

/-- (`require-keyword!`) -/
def requireKeyword (value : Term) (label : String) : Except ReadError Keyword :=
  match value with
  | .atom (.keyword k) => .ok k
  | _ => failRead "rpc-invalid-payload" (label ++ " must be a Keyword")

/-- (`require-bool!`) -/
def requireBool (value : Term) (label : String) : Except ReadError Bool :=
  match value with
  | .atom (.bool b) => .ok b
  | _ => failRead "rpc-invalid-payload" (label ++ " must be a Bool")

/-- (`require-unit!`) -/
def requireUnit (value : Term) : Except ReadError Unit :=
  if value = .kw "rpc/unit" then .ok ()
  else failRead "rpc-invalid-payload" "operation payload must be :rpc/unit"

/-- (`query-record-tag`) The tag of a record. -/
def queryRecordTag : Term → Option Keyword
  | .triple (.atom (.keyword tag)) _ marker => if marker = .kw "rpc/record" then some tag else none
  | _ => none

/-! ## Plans -/

/-- (`parse-query-term!`) -/
def parseQueryTerm (value : Term) : Except ReadError QueryTerm :=
  if queryRecordTag value = some ⟨"query/var"⟩ then do
    match ← readRecordFields value "query/var" 1 with
    | [name] =>
      let name ← requireString name "query variable"
      if 0 < name.length then .ok ⟨some name, none⟩
      else failRead "invalid-query-variable" "native read operation failed"
    | _ => failRead "rpc-invalid-record" "RPC record contains the wrong number of fields"
  else if queryRecordTag value = some ⟨"query/const"⟩ then do
    match ← readRecordFields value "query/const" 1 with
    | [known] => .ok (constant known)
    | _ => failRead "rpc-invalid-record" "RPC record contains the wrong number of fields"
  else failRead "query-invalid-term" "query term must be query/var or query/const"

/-- (`parse-query-terms!`) -/
def parseQueryTerms (value : Term) : Except ReadError (List QueryTerm) := do
  let values ← readListFields value
  values.mapM parseQueryTerm

/-- (`parse-query-head!`) -/
def parseQueryHead (value : Term) : Except ReadError (String × List QueryTerm) := do
  match ← readRecordFields value "query/head" 2 with
  | [relation, terms] =>
    let relation ← requireString relation "query head relation"
    let terms ← parseQueryTerms terms
    .ok (relation, terms)
  | _ => failRead "rpc-invalid-record" "RPC record contains the wrong number of fields"

/-- (`parse-query-clause!`) -/
def parseQueryClause (value : Term) : Except ReadError Literal :=
  if queryRecordTag value = some ⟨"query/relation"⟩ then do
    match ← readRecordFields value "query/relation" 3 with
    | [relation, terms, negated] =>
      let relation ← requireString relation "query relation"
      let terms ← parseQueryTerms terms
      let negated ← requireBool negated "query negation"
      .ok (if negated then negatedLiteral relation terms else relationLiteral relation terms)
    | _ => failRead "rpc-invalid-record" "RPC record contains the wrong number of fields"
  else if queryRecordTag value = some ⟨"query/predicate"⟩ then do
    match ← readRecordFields value "query/predicate" 3 with
    | [operation, left, right] =>
      let operation ← requireKeyword operation "query predicate"
      if operation ∈ comparisonOperators then
        let left ← parseQueryTerm left
        let right ← parseQueryTerm right
        .ok (comparisonLiteral operation [left, right])
      else failRead "query-invalid-predicate" "query predicate operation is unsupported"
    | _ => failRead "rpc-invalid-record" "RPC record contains the wrong number of fields"
  else if queryRecordTag value = some ⟨"query/function"⟩ then do
    match ← readRecordFields value "query/function" 3 with
    | [operation, terms, binding] =>
      let operation ← requireKeyword operation "query function"
      if operation ∈ builtinOperators then
        let terms ← parseQueryTerms terms
        let binding ← requireString binding "query function binding"
        .ok (builtinLiteral operation terms binding)
      else failRead "query-invalid-function" "query function operation is unsupported"
    | _ => failRead "rpc-invalid-record" "RPC record contains the wrong number of fields"
  else failRead "query-invalid-clause" "query clause record is unsupported"

/-- (`parse-query-rule!`) -/
def parseQueryRule (value : Term) : Except ReadError Rule := do
  match ← readRecordFields value "query/rule" 2 with
  | [head, body] =>
    let (relation, terms) ← parseQueryHead head
    let clauses ← readListFields body
    let body ← clauses.mapM parseQueryClause
    .ok ⟨relation, terms, body⟩
  | _ => failRead "rpc-invalid-record" "RPC record contains the wrong number of fields"

/-- (`parse-query-stratum!`) -/
def parseQueryStratum (value : Term) : Except ReadError (List Rule) := do
  match ← readRecordFields value "query/stratum" 1 with
  | [rules] =>
    let rules ← readListFields rules
    rules.mapM parseQueryRule
  | _ => failRead "rpc-invalid-record" "RPC record contains the wrong number of fields"

/-- (`parse-query-aggregate!`) -/
def parseQueryAggregate (value : Term) : Except ReadError AggregateSpec := do
  match ← readRecordFields value "query/aggregate" 2 with
  | [operation, argument] =>
    let operation ← requireKeyword operation "query aggregate"
    let argument ← readOptionField argument
    if operation ∈ aggregateOperators then
      let argument ← argument.mapM (requireInt · "aggregate argument index")
      .ok ⟨operation, argument⟩
    else failRead "query-invalid-aggregate" "query aggregate operation is unsupported"
  | _ => failRead "rpc-invalid-record" "RPC record contains the wrong number of fields"

/-- (`parse-query-having!`) -/
def parseQueryHaving (value : Term) : Except ReadError HavingClause := do
  match ← readRecordFields value "query/having" 3 with
  | [comparison, index, wanted] =>
    let comparison ← requireKeyword comparison "having comparison"
    if comparison ∈ comparisonOperators then
      let index ← requireInt index "having aggregate index"
      .ok ⟨comparison, index, wanted⟩
    else failRead "query-invalid-having" "having comparison operation is unsupported"
  | _ => failRead "rpc-invalid-record" "RPC record contains the wrong number of fields"

/-- (`parse-query-find!`) -/
def parseQueryFind (value : Term) : Except ReadError FindSpec :=
  if queryRecordTag value = some ⟨"query/find-relation"⟩ then do
    match ← readRecordFields value "query/find-relation" 1 with
    | [relation] =>
      let relation ← requireString relation "find relation"
      .ok ⟨relation, [], [], []⟩
    | _ => failRead "rpc-invalid-record" "RPC record contains the wrong number of fields"
  else if queryRecordTag value = some ⟨"query/find-aggregate"⟩ then do
    match ← readRecordFields value "query/find-aggregate" 4 with
    | [relation, grouping, aggregates, having] =>
      let relation ← requireString relation "aggregate find relation"
      let positions ← readListFields grouping
      let grouping ← positions.mapM (requireInt · "aggregate grouping index")
      let specs ← readListFields aggregates
      let aggregates ← specs.mapM parseQueryAggregate
      let clauses ← readListFields having
      let having ← clauses.mapM parseQueryHaving
      .ok ⟨relation, grouping, aggregates, having⟩
    | _ => failRead "rpc-invalid-record" "RPC record contains the wrong number of fields"
  else failRead "query-invalid-find" "query find record is unsupported"

/-- (`parse-query-order!`) -/
def parseQueryOrder (value : Term) : Except ReadError OrderClause := do
  match ← readRecordFields value "query/order" 2 with
  | [column, direction] =>
    let column ← requireInt column "query order column"
    let direction ← requireKeyword direction "query order direction"
    .ok ⟨column, direction⟩
  | _ => failRead "rpc-invalid-record" "RPC record contains the wrong number of fields"

/-- (`parse-query-plan!`) A plan that is read has passed its validation. -/
def parseQueryPlan (host : QueryHost) (value : Term) : Except ReadError QueryPlan := do
  match ← readRecordFields value "query/plan" 4 with
  | [find, strata, order, limit] =>
    let limit ← readOptionField limit
    let find ← parseQueryFind find
    let strata ← readListFields strata
    let strata ← strata.mapM parseQueryStratum
    let clauses ← readListFields order
    let order ← clauses.mapM parseQueryOrder
    let limit ← limit.mapM (requireInt · "query limit")
    let plan : QueryPlan := ⟨find, strata, order, limit⟩
    match validatePlan host plan with
    | [] => .ok plan
    | error :: _ => .error ⟨error.code, error.message⟩
  | _ => failRead "rpc-invalid-record" "RPC record contains the wrong number of fields"

/-! ## Cursors and snapshots -/

/-- (`QueryCursor`) -/
structure QueryCursor where
  snapshotVersion : Int
  digest : String
  nextPageOrdinal : Int
  afterRow : Tuple
  deriving DecidableEq

/-- (`QueryBounds`) A window of history: past one version and up to another. -/
structure QueryBounds where
  version : Int
  lowerExclusive : Int
  deriving DecidableEq

/-- (`parse-query-row!`) -/
def parseQueryRow (value : Term) : Except ReadError Tuple := do
  match ← readRecordFields value "query/row" 1 with
  | [entries] => readListFields entries
  | _ => failRead "rpc-invalid-record" "RPC record contains the wrong number of fields"

/-- (`parse-query-cursor!`) -/
def parseQueryCursor (value : Term) : Except ReadError QueryCursor := do
  match ← readRecordFields value "query/cursor" 4 with
  | [version, digest, ordinal, row] =>
    let version ← requireInt version "cursor snapshot version"
    let ordinal ← requireInt ordinal "cursor page ordinal"
    if version < 0 ∨ ordinal < 0 then
      failRead "query-cursor-mismatch" "query cursor coordinates must be non-negative"
    else
      let digest ← requireString digest "cursor query digest"
      let row ← parseQueryRow row
      .ok ⟨version, digest, ordinal, row⟩
  | _ => failRead "rpc-invalid-record" "RPC record contains the wrong number of fields"

/-- (`request-cursor!`) -/
def requestCursor (request : RpcRequest) : Except ReadError (Option QueryCursor) :=
  match request.page with
  | some ⟨_, some cursor⟩ => some <$> parseQueryCursor cursor
  | _ => .ok none

/-- (`upper-snapshot-version!`) -/
def upperSnapshotVersion (snapshot : Term) (cursor : Option QueryCursor) (head : Int) : Except ReadError Int :=
  if snapshot = .kw "query/current" then .ok (cursor.elim head (·.snapshotVersion))
  else if queryRecordTag snapshot = some ⟨"query/as-of"⟩ then do
    match ← readRecordFields snapshot "query/as-of" 1 with
    | [version] => requireInt version "query snapshot version"
    | _ => failRead "rpc-invalid-record" "RPC record contains the wrong number of fields"
  else failRead "query-invalid-snapshot" "query upper snapshot must be current or as-of"

/-- (`requested-query-bounds!`, its lower and its upper bound) -/
def requestedWindow (head : Int) (snapshot : Term) (cursor : Option QueryCursor) : Except ReadError (Int × Int) :=
  if queryRecordTag snapshot = some ⟨"query/since"⟩ then do
    match ← readRecordFields snapshot "query/since" 2 with
    | [lower, upper] =>
      let lower ← requireInt lower "query since lower bound"
      if lower < 0 then failRead "query-invalid-snapshot" "query since lower bound must be non-negative"
      else
        let upper ← upperSnapshotVersion upper cursor head
        .ok (lower, upper)
    | _ => failRead "rpc-invalid-record" "RPC record contains the wrong number of fields"
  else do
    let upper ← upperSnapshotVersion snapshot cursor head
    .ok (-1, upper)

/-- (`requested-query-bounds!`) -/
def requestedQueryBounds (head : Int) (snapshot : Term) (cursor : Option QueryCursor) : Except ReadError QueryBounds := do
  let (lower, upper) ← requestedWindow head snapshot cursor
  if cursor.any (fun cursor => decide (cursor.snapshotVersion ≠ upper)) = true then
    failRead "query-cursor-mismatch" "query cursor belongs to a different snapshot"
  else if upper < lower then
    failRead "query-invalid-snapshot" "query since lower bound exceeds its upper snapshot"
  else .ok ⟨upper, lower⟩

/-! ## Rows of a query -/

/-- What the read route is given: the digest, the classes of characters and the lower case of texts, the clock of an evaluation from when
it starts, and the rounds that it may run. -/
structure ReadHost where
  sha256 : Bytes → String
  text : TextHost
  startNs : Int
  clock : Nat → Int
  rounds : Nat

/-- What the host gives to the check of plans. -/
abbrev ReadHost.query (H : ReadHost) : QueryHost := H.text.toQueryHost

/-- (`query-control`) The budgets of an evaluation that starts now. -/
def queryControl (H : ReadHost) (maxSteps timeoutMs : Int) : QueryControl :=
  ⟨0, fun _ => none, maxSteps, H.startNs + timeoutMs * 1000000, timeoutMs, H.clock⟩

/-- (`rule-uses-any-relation?`) -/
def ruleUsesAnyRelation (rule : Rule) (relations : List String) : Bool :=
  decide (rule.headRelation ∈ relations) || rule.body.any fun literal => decide (literal.relation ∈ relations)

/-- (`plan-uses-any-relation?`) -/
def planUsesAnyRelation (plan : QueryPlan) (relations : List String) : Bool :=
  decide (plan.find.relation ∈ relations) ||
    plan.strata.any fun stratum => stratum.any fun rule => ruleUsesAnyRelation rule relations

/-- (`literal-text-attribute-scope`) -/
def literalTextAttributeScope (scope : Option (List Term)) (literal : Literal) : Except Fault (Option (List Term)) :=
  match scope with
  | none => .ok none
  | some scope =>
    if literal.kind = relationKind ∧ literal.relation ∈ textRelations then do
      let position ← nth literal.arguments 1
      match position.variableName, position.value with
      | some _, _ => .ok none
      | none, some value => .ok (some (if scope.any (·.eqv value) then scope else scope ++ [value]))
      | none, none => .ok (some scope)
    else .ok (some scope)

/-- (`plan-text-attribute-scope`) The attributes that the text literals of a plan name, if each of them names one. -/
def planTextAttributeScope (plan : QueryPlan) : Except Fault (Option (List Term)) :=
  (plan.strata.flatten.flatMap (·.body)).foldlM literalTextAttributeScope (some [])

/-- (`text-candidate-sources`) -/
def textCandidateSources (source : Datalog.TextSearchSource) : CandidateSources := fun relation =>
  if relation ∈ textRelations then some (.virtual relation source) else none

/-- (`build-text-candidates-result!` and `build-text-candidates-for-attributes-result!`) The text sources over propositions, or over
those of some attributes. -/
def buildTextCandidatesResult (H : ReadHost) (propositions : List Triple) (scope : Option (List Term)) :
    Except QueryEvaluationError CandidateSources :=
  let built :=
    match scope with
    | some attributes =>
      TextSearch.buildSourceForAttributesResult H.text propositions attributes TextIndex.textIndexMaxBytes
    | none => TextSearch.buildSourceResult H.text propositions TextIndex.textIndexMaxBytes
  match built with
  | .ok source => .ok (textCandidateSources (TextSearch.searches H.text source))
  | .error error => .error (queryEvaluationErrorFromTextError error)

/-- (`QueryView`) -/
structure QueryView where
  root : TermStore
  rotation : Rotation
  version : Int
  lowerExclusive : Int

/-- (`query-rows!`, its text sources) -/
def textCandidates (H : ReadHost) (view : QueryView) (plan : QueryPlan) : Except Fault (Except QueryEvaluationError CandidateSources) :=
  if planUsesAnyRelation plan textRelations then do
    let propositions := (eventsAfterSequence (allOccurrences view.rotation) view.lowerExclusive).map (·.proposition)
    let scope ← planTextAttributeScope plan
    .ok (buildTextCandidatesResult H propositions scope)
  else .ok (.ok fun _ => none)

/-- (`query-rows!`, its sources) The live triples, and the occurrences and withdrawals where the plan uses them. -/
def queryCandidates (view : QueryView) (plan : QueryPlan) (texts : CandidateSources) : Except Fault CandidateSources := do
  let withdrawals ←
    if planUsesAnyRelation plan [withdrawalRelation] then
      some <$> withdrawalCandidateSource view.root view.lowerExclusive view.version
    else .ok none
  let triples := Function.update texts tripleRelation (some (.candidates (rotationCandidateSource view.rotation view.lowerExclusive)))
  let occurrences :=
    if planUsesAnyRelation plan [occurrenceRelation] then
      Function.update triples occurrenceRelation
        (some (.candidates (occurrenceCandidateSource view.root view.lowerExclusive view.version)))
    else triples
  match withdrawals with
  | some source => .ok (Function.update occurrences withdrawalRelation (some (.candidates source)))
  | none => .ok occurrences

/-- (`query-rows!`) -/
def queryRows (Γ : Host) (H : ReadHost) (view : QueryView) (plan : QueryPlan) (timeoutMs : Int) :
    Except Fault (Option QueryExecutionResult) := do
  match ← textCandidates H view plan with
  | .error error => .ok (some ⟨none, some error⟩)
  | .ok texts => do
    let candidates ← queryCandidates view plan texts
    runPlanProjectedResult H.query Γ H.rounds ⟨fun _ => [], candidates⟩ plan (some (queryControl H queryStepLimit timeoutMs))

/-- (`query-view!`) -/
def queryView (Γ : Host) (session : Session) (bounds : QueryBounds) : Except Fault (Except ReadError QueryView) := do
  let root := session.store
  let (context, selected) ← snapshotRoot Γ none root bounds.version
  match context with
  | some error => .ok (.error error)
  | none => do
    let rotation ← if currentSequence root = bounds.version then .ok session.view else project Γ selected
    .ok (.ok ⟨selected, rotation, bounds.version, bounds.lowerExclusive⟩)

/-! ## Pages -/

/-- (`rpc-query-row`) -/
def rpcQueryRow (values : Tuple) : Triple := rpcRecord "query/row" [rpcList values]

/-- (`rpc-query-rows`) -/
def rpcQueryRows (rows : List Tuple) : Triple := rpcRecord "query/rows" [rpcList (rows.map fun row => (rpcQueryRow row).term)]

/-- (`rpc-occurrence`) -/
def rpcOccurrence (value : OperationOccurrence) : Triple :=
  rpcRecord "rpc/occurrence" [value.coordinate.term, value.action.term, value.proposition.term]

/-- (`rpc-occurrences`) -/
def rpcOccurrences (values : List Triple) : Triple := rpcRecord "rpc/occurrences" [rpcList (values.map (·.term))]

/-- (`rpc-query-cursor`) -/
def rpcQueryCursor (snapshotVersion : Int) (digest : String) (nextPageOrdinal : Int) (afterRow : Tuple) : Triple :=
  rpcRecord "query/cursor" [.int snapshotVersion, .str digest, .int nextPageOrdinal, (rpcQueryRow afterRow).term]

/-- (`query-row-position!`) The position of the first row that is the cursor's. -/
def queryRowPosition (rows : List Tuple) (afterRow : Tuple) : Except ReadError Nat :=
  match rows.findIdx? (rowEqv afterRow) with
  | some position => .ok position
  | none => failRead "query-cursor-mismatch" "query cursor row is absent from its snapshot"

/-- (`occurrence-position!`) The position that a cursor names, where the row that it holds stands. -/
def occurrencePosition (rows : List Triple) (afterRow : Tuple) : Except ReadError Nat :=
  match afterRow with
  | [.atom (.int position), .triple t1 t2 t3] =>
    match rows[position.toNat]? with
    | some row =>
      if 0 ≤ position ∧ (Triple.mk t1 t2 t3).eqv row = true then .ok position.toNat
      else failRead "query-cursor-mismatch" "page cursor row is absent from its snapshot"
    | none => failRead "query-cursor-mismatch" "page cursor row is absent from its snapshot"
  | _ => failRead "query-cursor-mismatch" "page cursor row is absent from its snapshot"

/-- (`page-request-limit!`) -/
def pageRequestLimit (page : RpcPageRequest) : Except ReadError Nat :=
  if 1 ≤ page.limit ∧ (page.limit : Int) ≤ maxPageLimit then .ok page.limit
  else failRead "query-page-limit" "query page limit must be from 1 through 4096"

/-- (`PageResult`) -/
structure PageResult where
  payload : Triple
  page : Option RpcPageResponse
  deriving DecidableEq

/-- One page of rows: those from the one after the cursor's on, and the cursor of the last of them while there are more. -/
def slicePage {α : Type} (position : List α → Tuple → Except ReadError Nat) (render : List α → Triple) (last : Nat → α → Tuple)
    (rows : List α) (page : RpcPageRequest) (cursor : Option QueryCursor) (snapshotVersion : Int) (digest : String) :
    Except ReadError PageResult := do
  let limit ← pageRequestLimit page
  if cursor.any (fun cursor => decide (digest ≠ cursor.digest)) = true then
    failRead "query-cursor-mismatch" "query cursor belongs to a different query"
  else
    let ordinal := cursor.elim 0 (·.nextPageOrdinal)
    let start ← match cursor with
      | some cursor => (· + 1) <$> position rows cursor.afterRow
      | none => .ok 0
    let selected := (rows.drop start).take limit
    let nextPosition := start + selected.length
    let done := decide (rows.length ≤ nextPosition)
    let next := if done then none
      else selected.getLast?.map fun row => (rpcQueryCursor snapshotVersion digest (ordinal + 1) (last nextPosition row)).term
    .ok ⟨render selected, some ⟨ordinal, next, done⟩⟩

/-- (`slice-query-page!`) -/
def sliceQueryPage (rows : List Tuple) (page : Option RpcPageRequest) (cursor : Option QueryCursor) (snapshotVersion : Int)
    (digest : String) : Except ReadError PageResult :=
  match page with
  | none =>
    if rpcV2MaxUnpagedRows < rows.length then
      failRead "term-depth-exceeded" "unpaged query result exceeds the TermCodecV1 depth bound"
    else .ok ⟨rpcQueryRows rows, none⟩
  | some page => slicePage queryRowPosition rpcQueryRows (fun _ row => row) rows page cursor snapshotVersion digest

/-- (`slice-occurrence-page!`) -/
def sliceOccurrencePage (rows : List Triple) (page : Option RpcPageRequest) (cursor : Option QueryCursor) (snapshotVersion : Int)
    (digest : String) : Except ReadError PageResult :=
  match page with
  | none => .ok ⟨rpcOccurrences (rows.take rpcV2MaxUnpagedRows), none⟩
  | some page =>
    slicePage occurrencePosition rpcOccurrences (fun nextPosition row => [.int ((nextPosition : Int) - 1), row.term]) rows page cursor
      snapshotVersion digest

/-! ## Responses -/

/-- (`response`) -/
def readResponse (request : RpcRequest) (servedVersion : Int) (result : PageResult) : RpcResponse :=
  ⟨request.space, request.op, servedVersion, result.page, none, some result.payload.term⟩

/-- (`error-response`) -/
def readErrorResponse (request : RpcRequest) (servedVersion : Int) (code : Keyword) (message : String) : RpcResponse :=
  errorResponse request servedVersion code.spelling (decide (code ∈ retryableErrorCodes)) message

/-- The answer of a read that has failed: its first error, as of the newest version. -/
def readFailed (request : RpcRequest) (head : Int) (error : ReadError) : RpcResponse :=
  readErrorResponse request head error.code error.message

/-- The answer of a page, or of why there is none. -/
def pageResponse (request : RpcRequest) (head version : Int) (result : Except ReadError PageResult) : RpcResponse :=
  match result with
  | .ok result => readResponse request version result
  | .error error => readFailed request head error

/-- (`read-digest!`) -/
def readDigest (sha256 : Bytes → String) (term : Term) : Except ReadError String :=
  match written (appendTerm term 0) with
  | .ok bytes => .ok (sha256 bytes)
  | .error message => failRead "term-codec-encode-failed" message

/-- (`query-result-weight!`) -/
def queryResultWeight (rows : List Tuple) : Nat :=
  32 + 8 * rows.length + (rows.map fun row => canonicalTermByteCount (rpcQueryRow row).term).sum

/-- (`retain-query-result!`) -/
def retainQueryResult (session : Session) (key : OrderedResultKey) (rows : List Tuple) : Session :=
  retainResultEntry session ⟨key, rows, [], queryResultWeight rows⟩

/-- What a query asks for: its plan, its cursor, its window and its digest. -/
structure QueryAsk where
  plan : QueryPlan
  cursor : Option QueryCursor
  bounds : QueryBounds
  digest : String

/-- The parts of `query-response!` before its cache is looked up. -/
def parseQueryRequest (H : ReadHost) (head : Int) (request : RpcRequest) : Except ReadError QueryAsk := do
  match ← readRecordFields request.payload "query/request" 2 with
  | [planTerm, snapshot] =>
    let plan ← parseQueryPlan H.query planTerm
    let cursor ← requestCursor request
    let bounds ← requestedQueryBounds head snapshot cursor
    let digest ← readDigest H.sha256 (.triple planTerm (.int bounds.lowerExclusive) (.int bounds.version))
    .ok ⟨plan, cursor, bounds, digest⟩
  | _ => failRead "rpc-invalid-record" "RPC record contains the wrong number of fields"

/-- The source evaluates until it ends; here its rounds are bounded, and where they are not enough there is this in place of an answer. -/
def outOfRounds : Fault := ⟨⟨"query-rounds"⟩, "the evaluation needs more rounds"⟩

/-- (`query-evaluation-error-response!`) -/
def queryEvaluationErrorResponse (request : RpcRequest) (head viewVersion : Int) (error : QueryEvaluationError) : RpcResponse :=
  if error.errorType = ⟨"fram-query-abort"⟩ then readErrorResponse request viewVersion error.code error.message
  else readFailed request head ⟨error.code, "native read operation failed"⟩

/-- The rest of `query-response!` when its rows are not in the cache: they are evaluated, kept, and answered by a page. -/
def evaluatedResponse (Γ : Host) (H : ReadHost) (session : Session) (request : RpcRequest) (ask : QueryAsk) (key : OrderedResultKey)
    (timeoutMs : Int) : Except Fault (Session × RpcResponse) := do
  let head := currentSequence session.store
  match ← queryView Γ session ask.bounds with
  | .error error => .ok (session, readFailed request head error)
  | .ok view => do
    match ← queryRows Γ H view ask.plan timeoutMs with
    | none => .error outOfRounds
    | some execution =>
      match execution.error, execution.queryResult with
      | some error, _ => .ok (session, queryEvaluationErrorResponse request head view.version error)
      | none, none => .ok (session, readFailed request head ⟨⟨"rpc/native-query-failed"⟩, "native read operation failed"⟩)
      | none, some result =>
        match result.errors with
        | error :: _ => .ok (session, readErrorResponse request view.version error.code error.message)
        | [] =>
          .ok (retainQueryResult session key result.rows,
            pageResponse request head view.version
              (sliceQueryPage result.rows request.page ask.cursor view.version ask.digest))

/-- (`query-response!`) -/
def queryResponse (Γ : Host) (H : ReadHost) (session : Session) (request : RpcRequest) : Except Fault (Session × RpcResponse) :=
  let head := currentSequence session.store
  match parseQueryRequest H head request with
  | .error error => .ok (session, readFailed request head error)
  | .ok ask =>
    let timeoutMs := min maxQueryTimeoutMs (request.timeoutMs.elim defaultQueryTimeoutMs fun ms => (ms : Int))
    if timeoutMs < 0 then
      .ok (session, readErrorResponse request ask.bounds.version ⟨"rpc-invalid-payload"⟩ "query timeout-ms must be non-negative")
    else
      let key := resultCacheKey session ask.bounds.version ask.bounds.lowerExclusive ⟨"rpc/query"⟩ ask.digest
      match resultCacheLookup session key with
      | (session, some entry) =>
        .ok (session, pageResponse request head ask.bounds.version
          (sliceQueryPage entry.queryRows request.page ask.cursor ask.bounds.version ask.digest))
      | (session, none) => evaluatedResponse Γ H session request ask key timeoutMs

/-- The rows of an occurrences read: the occurrences of the store as it was at a version. -/
def occurrenceRows (Γ : Host) (session : Session) (version : Int) : Except Fault (Except ReadError (List Triple)) := do
  let (context, snapshot) ← snapshotRoot Γ none session.store version
  match context with
  | some error => .ok (.error error)
  | none => do
    let all ← occurrences snapshot
    .ok (.ok (all.map rpcOccurrence))

/-- The parts of `occurrences-response!` before its rows are looked up. -/
def parseOccurrencesRequest (sha256 : Bytes → String) (request : RpcRequest) : Except ReadError (Option QueryCursor × String) := do
  requireUnit request.payload
  let cursor ← requestCursor request
  let digest ← readDigest sha256 (.kw "rpc/unit")
  .ok (cursor, digest)

/-- (`occurrences-response!`) -/
def occurrencesResponse (Γ : Host) (H : ReadHost) (session : Session) (request : RpcRequest) : Except Fault (Session × RpcResponse) :=
  let head := currentSequence session.store
  match parseOccurrencesRequest H.sha256 request with
  | .error error => .ok (session, readFailed request head error)
  | .ok (cursor, digest) =>
    let version := cursor.elim head (·.snapshotVersion)
    let answer := fun rows => pageResponse request head version (sliceOccurrencePage rows request.page cursor version digest)
    if request.page.isSome then
      let key := resultCacheKey session version (-1) ⟨"rpc/occurrences"⟩ digest
      match resultCacheLookup session key with
      | (session, some entry) => .ok (session, answer entry.tripleRows)
      | (session, none) => do
        match ← occurrenceRows Γ session version with
        | .error error => .ok (session, readFailed request head error)
        | .ok rows => .ok (retainTripleResult session key rows, answer rows)
    else do
      match ← occurrenceRows Γ session version with
      | .error error => .ok (session, readFailed request head error)
      | .ok rows => .ok (session, answer rows)

/-! ## Validation -/

/-- (`rpc-violation`) -/
def rpcViolation (code : Keyword) (detail : Term) : Triple := rpcRecord "rpc/violation" [.atom (.keyword code), detail]

/-- (`rpc-validation`) -/
def rpcValidation (valid : Bool) (violations : List Triple) : Triple :=
  rpcRecord "rpc/validation" [.bool valid, rpcTripleList violations]

/-- (`validation-payload!`) -/
def validationPayload (Γ : Host) (root : TermStore) : Except Fault Triple :=
  match loadTermStoreResult Γ root (dumpTermStore root) with
  | .error fault => .ok (rpcValidation false [rpcViolation fault.type (.str "validation failed")])
  | .ok copy => do
    let propositions ← livePropositions Γ copy
    .ok (rpcValidation true ((Kernel.lintDeclaredProfile propositions copy.spaceId).map fun violation =>
      rpcViolation ⟨"rpc/profile-violation"⟩ violation.term))

/-- (`validate-response!`) -/
def validateResponse (Γ : Host) (session : Session) (request : RpcRequest) : Except Fault (Session × RpcResponse) :=
  let servedVersion := currentSequence session.store
  match requireUnit request.payload with
  | .error error => .ok (session, readFailed request servedVersion error)
  | .ok _ => do
    let payload ← validationPayload Γ session.store
    .ok (session, readResponse request servedVersion ⟨payload, none⟩)

/-! ## The route -/

/-- What a read has written, beside its answer. -/
def derivedOf (answered : Session × RpcResponse) : RpcResponse × OrderedResultCache × Int :=
  (answered.2, answered.1.orderedResults, answered.1.derivedGeneration)

/-- The read route, for the dispatcher. -/
def reads (Γ : Host) (H : ReadHost) : Reads where
  sha256 := H.sha256
  query session request := derivedOf <$> queryResponse Γ H session request
  occurrences session request := derivedOf <$> occurrencesResponse Γ H session request
  validate session request := derivedOf <$> validateResponse Γ session request

end QueryOps

end Fram
