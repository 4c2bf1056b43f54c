import Fram.Lease

/-!
# Dispatch

`src/fram/native_dispatch.bgl`: a request against a session. Mutations are planned against the live propositions, answered by a
receipt that is encoded before anything is committed, and then committed as one transaction.

The read route of `src/fram/native_query_ops.bgl` (queries, occurrences, validation) is a parameter: it answers from the store and
the rotation, and the only cells it is given to write are the cache of ordered results and the count of its changes.
-/

namespace Fram

/-- (`sha256-bytes`, and `query-response!`, `occurrences-response!`, `validate-response!` of the read route) -/
structure Reads where
  sha256 : Bytes → String
  query : Session → RpcRequest → Except Fault (RpcResponse × OrderedResultCache × Int)
  occurrences : Session → RpcRequest → Except Fault (RpcResponse × OrderedResultCache × Int)
  validate : Session → RpcRequest → Except Fault (RpcResponse × OrderedResultCache × Int)

namespace Dispatch

/-- (`effective-page-limit`) -/
def effectivePageLimit : Nat := 200

/-- (`Policy`) Whether an action needs its subject to be live. -/
inductive Policy where
  | subjectAny
  | subjectExisting
  deriving DecidableEq

/-- (`Action`) -/
structure BatchAction where
  index : Nat
  operation : Action
  proposition : Triple
  policy : Policy
  deriving DecidableEq

/-- (`Decision`) -/
structure Decision where
  index : Nat
  changed : Bool
  deriving DecidableEq

/-- (`PreparedMutation`) -/
structure PreparedMutation where
  operations : List CommitOperation
  decisions : List Decision
  deriving DecidableEq

/-- A refusal: its code and its message. -/
structure Refusal where
  code : String
  message : String
  deriving DecidableEq

/-- (`LeaseState`) -/
structure LeaseState where
  holder : Term
  expiresMs : Int
  epoch : Int
  deriving DecidableEq

/-- (`PatternResult`) The slots that a scan binds. -/
structure Pattern where
  t1 : Option Term
  t2 : Option Term
  t3 : Option Term
  deriving DecidableEq

/-- (`ScanCursorResult`) Where a scan goes on. -/
structure ScanCursor where
  version : Int
  ordinal : Int
  offset : Int
  deriving DecidableEq

/-! ## Records -/

/-- (`rpc-action-result`) -/
def rpcActionResult (inputIndex : Nat) (changed : Bool) (occurrence : Triple) : Triple :=
  rpcRecord "rpc/action-result" [.int inputIndex, .bool changed, occurrence.term]

/-- (`rpc-mutation-result`) -/
def rpcMutationResult (results : List Triple) : Triple := rpcRecord "rpc/mutation-result" [rpcTripleList results]

/-- (`rpc-status`) -/
def rpcStatus (liveCount : Nat) (cacheStats : List Int) : Triple :=
  rpcRecord "rpc/status" [.kw "ready", .int liveCount, .kw "rpc/native",
    (⟨.kw "rpc/result-cache", rpcList (cacheStats.map Term.int), .kw "rpc/record"⟩ : Triple).term]

/-! ## Scans -/

/-- (`parse-pattern`) -/
def parsePattern (payload : Term) : Except String Pattern :=
  match readRecord payload "rpc/triple-pattern" 3 with
  | .error message => .error message
  | .ok [v1, v2, v3] =>
    match readOption v1, readOption v2, readOption v3 with
    | .ok t1, .ok t2, .ok t3 => .ok ⟨t1, t2, t3⟩
    | _, _, _ => .error "scan pattern contains a malformed option"
  | .ok _ => .error "scan pattern is malformed"

/-- (`scan-rows`) -/
def scanRows (Γ : Host) (rotation : Rotation) (pattern : Pattern) : List Triple :=
  (matching Γ rotation pattern.t1 pattern.t2 pattern.t3).map (·.proposition)

/-- (`scan-cursor`) -/
def scanCursor (space : String) (version ordinal offset : Int) (pattern : Term) : Triple :=
  rpcRecord "rpc/native-scan-cursor" [.str space, .int version, .int ordinal, .int offset, pattern]

/-- (`parse-scan-cursor`) -/
def parseScanCursor (cursor : Term) (space : String) (pattern : Term) : Except String ScanCursor :=
  match readRecord cursor "rpc/native-scan-cursor" 5 with
  | .error _ => .error "scan cursor record is malformed"
  | .ok [cursorSpace, version, ordinal, offset, cursorPattern] =>
    match cursorSpace.asString, version.asInt, ordinal.asInt, offset.asInt with
    | some cursorSpace, some version, some ordinal, some offset =>
      if space ≠ cursorSpace then .error "scan cursor belongs to another SpaceId"
      else if pattern.eqv cursorPattern = false then .error "scan cursor belongs to another pattern"
      else if version < 0 ∨ ordinal < 0 ∨ offset < 0 then .error "scan cursor positions must be non-negative"
      else .ok ⟨version, ordinal, offset⟩
    | _, _, _, _ => .error "scan cursor fields have invalid types"
  | .ok _ => .error "scan cursor record is malformed"

/-- (`historical-root!`) A copy of the store as it was at a version. -/
def historicalRoot (Γ : Host) (root : TermStore) (version : Int) : Except Fault TermStore :=
  if version = currentSequence root then .ok root
  else do
    let copy ← newTermStore root.spaceId
    let frames ← transactionFramesBetween root 0 version
    frames.foldlM (fun copy frame => do
      let (copy, _) ← replayTransaction Γ copy frame
      .ok copy) copy

/-- (`scan-rotation!`) -/
def scanRotation (Γ : Host) (session : Session) (version : Int) : Except Fault Rotation :=
  if version = currentSequence session.store then .ok session.view
  else do project Γ (← historicalRoot Γ session.store version)

/-- (`rpc-page-request-cursor-value`, where it is taken as a condition) The cursor of a page; the Boolean false is none. -/
def pageCursor (page : RpcPageRequest) : Option Term :=
  match page.cursor with
  | some (.atom (.bool false)) => none
  | cursor => cursor

/-- (`canonical-term-sha256-result!`) -/
def canonicalTermSha256Result (R : Reads) (term : Term) : Except String String := do
  let bytes ← written (appendTerm term 0)
  .ok (R.sha256 bytes)

/-- The rows of a scan at a version: those kept under the key, or new ones that are then kept. -/
def scanResult (Γ : Host) (session : Session) (key : OrderedResultKey) (version : Int) (pattern : Pattern) :
    Except Fault (Session × List Triple) :=
  match resultCacheLookup session key with
  | (session, some entry) => .ok (session, entry.tripleRows)
  | (session, none) => do
    let built := scanRows Γ (← scanRotation Γ session version) pattern
    .ok (retainTripleResult session key built, built)

/-- One page of the rows of a scan. -/
def scanPage (request : RpcRequest) (limit : Nat) (cursor : ScanCursor) (rows : List Triple) : RpcResponse :=
  let offset := cursor.offset.toNat
  if rows.length < cursor.offset then
    errorResponse request cursor.version "query-cursor-mismatch" false "scan cursor offset is past the result"
  else
    let stop := min rows.length (offset + limit)
    let selected := (rows.take stop).drop offset
    let page : RpcPageResponse :=
      if stop = rows.length then ⟨cursor.ordinal, none, true⟩
      else
        ⟨cursor.ordinal, some (scanCursor request.space cursor.version (cursor.ordinal + 1) stop request.payload).term, false⟩
    pagedResponse request cursor.version page (rpcTriples selected).term

/-- (`scan-response!`) -/
def scanResponse (Γ : Host) (R : Reads) (session : Session) (request : RpcRequest) (currentVersion : Int) :
    Except Fault (Session × RpcResponse) :=
  match parsePattern request.payload with
  | .error message => .ok (session, errorResponse request currentVersion "rpc-invalid-payload" false message)
  | .ok pattern =>
    match request.page with
    | none =>
      let rows := scanRows Γ session.view pattern
      if effectivePageLimit < rows.length then
        .ok (session, errorResponse request currentVersion "rpc/native-page-required" false
          "native scan result exceeds the unpaged response limit")
      else .ok (session, response request currentVersion (rpcTriples rows).term)
    | some page =>
      if page.limit < 1 ∨ effectivePageLimit < page.limit then
        .ok (session, errorResponse request currentVersion "query-page-limit" false "native scan page limit must be from 1 through 200")
      else
        match (match pageCursor page with
          | some cursorValue => parseScanCursor cursorValue request.space request.payload
          | none => .ok ⟨currentVersion, 0, 0⟩) with
        | .error message => .ok (session, errorResponse request currentVersion "query-cursor-mismatch" false message)
        | .ok cursor =>
          if currentVersion < cursor.version then
            .ok (session, errorResponse request currentVersion "query-cursor-mismatch" false "scan cursor names a future store version")
          else
            match canonicalTermSha256Result R request.payload with
            | .error message => .ok (session, errorResponse request cursor.version "rpc-invalid-payload" false message)
            | .ok digest => do
              let key := resultCacheKey session cursor.version (-1) ⟨"rpc/scan"⟩ digest
              let (session, rows) ← scanResult Γ session key cursor.version pattern
              .ok (session, scanPage request page.limit cursor rows)

/-! ## Actions -/

/-- The action that an operation of a record names. -/
def actionOf (operation : Term) : Option Action :=
  if operation = .kw "rpc/assert" then some .assert
  else if operation = .kw "rpc/retract" then some .retract
  else none

/-- The policy that a term names. -/
def policyOf (policy : Term) : Option Policy :=
  if policy = .kw "rpc/subject-any" then some .subjectAny
  else if policy = .kw "rpc/subject-existing" then some .subjectExisting
  else none

/-- (`parse-action`) -/
def parseAction (value : Term) (index : Nat) : Except Refusal BatchAction :=
  match readRecord value "rpc/action" 3 with
  | .ok [operation, proposition, policy] =>
    match actionOf operation with
    | none => .error ⟨"rpc-invalid-action", "action operation is unsupported"⟩
    | some operation =>
      match proposition.asTriple with
      | none => .error ⟨"rpc-invalid-payload", "action proposition must be a Triple"⟩
      | some proposition =>
        match policyOf policy with
        | none => .error ⟨"rpc-invalid-policy", "subject policy is unsupported"⟩
        | some policy => .ok ⟨index, operation, proposition, policy⟩
  | _ => .error ⟨"rpc-invalid-payload", "mutation contains a malformed action"⟩

/-- (`parse-actions`, from an index on) -/
def parseActionsFrom : Nat → List Term → Except Refusal (List BatchAction)
  | _, [] => .ok []
  | index, value :: values => do
    let action ← parseAction value index
    let actions ← parseActionsFrom (index + 1) values
    .ok (action :: actions)

/-- (`parse-actions`) -/
def parseActions (values : List Term) : Except Refusal (List BatchAction) :=
  if values.isEmpty then .error ⟨"rpc-invalid-action", "batch requires at least one action"⟩
  else if rpcV2MaxBatchActions < values.length then
    .error ⟨"term-depth-exceeded", "batch action count exceeds the TermCodecV1 depth bound"⟩
  else parseActionsFrom 0 values

/-- (`subject-known?`) -/
def subjectKnown (propositions : List Triple) (proposition : Triple) : Bool :=
  propositions.any fun known => proposition.t1.eqv known.t1

/-- (`remove-last-equal`) What is left, and whether anything was removed. -/
def removeLastEqual (values : List Triple) (target : Triple) : List Triple × Bool :=
  match values.extractLast fun value => target.eqv value with
  | some (_, rest) => (rest, true)
  | none => (values, false)

/-- (`plan-reads-live?`) -/
def planReadsLive (actions : List BatchAction) : Bool :=
  actions.any fun action => decide (action.operation = .retract) || decide (action.policy = .subjectExisting)

/-- (`prepare-actions`) The operations of the actions and their decisions, simulated over the live propositions. -/
def prepareActions : List Triple → List BatchAction → Except Refusal PreparedMutation
  | _, [] => .ok ⟨[], []⟩
  | simulated, action :: remaining =>
    if action.policy = .subjectExisting ∧ subjectKnown simulated action.proposition = false then
      .error ⟨"rpc/subject-not-found", "subject-existing policy requires a live t1"⟩
    else
      match action.operation with
      | .assert => do
        let prepared ← prepareActions (simulated ++ [action.proposition]) remaining
        .ok ⟨⟨.assert, action.proposition⟩ :: prepared.operations, ⟨action.index, true⟩ :: prepared.decisions⟩
      | .retract => do
        let removed := removeLastEqual simulated action.proposition
        let prepared ← prepareActions removed.1 remaining
        .ok ⟨⟨.retract, action.proposition⟩ :: prepared.operations, ⟨action.index, removed.2⟩ :: prepared.decisions⟩

/-! ## Fences -/

/-- (`parse-fence`) The fence of a mutation, if it has one. -/
def parseFence (option : Except String (Option Term)) : Except Refusal (Option Fence) :=
  match option with
  | .error _ => .error ⟨"rpc-invalid-payload", "mutation fence option is malformed"⟩
  | .ok none => .ok none
  | .ok (some value) =>
    match readRecord value "rpc/fence" 3 with
    | .ok [resource, holder, epoch] =>
      match epoch.asInt with
      | some epoch => .ok (some ⟨resource, holder, epoch⟩)
      | none => .error ⟨"rpc-invalid-payload", "mutation fence fields are invalid"⟩
    | _ => .error ⟨"rpc-invalid-payload", "mutation fence is malformed"⟩

/-- (`occurrence-sequence`) -/
def occurrenceSequence (occurrence : Triple) : Int :=
  if isOccurrenceCoordinate occurrence.term = true ∧ isTransactionCoordinate occurrence.t1 = true then
    match occurrence.t1 with
    | .triple _ _ (.atom (.int sequence)) => sequence
    | _ => 0
  else 0

/-- (`lease-event?`) The holder and the expiry of the lease that an occurrence is, if it is one. -/
def leaseEvent (event : OperationOccurrence) : Option (Term × Int) :=
  match event.proposition.t3 with
  | .triple holder marker (.atom (.int expiresMs)) =>
    if event.proposition.t2 = .kw "kernel/lease" ∧ marker = .kw "kernel/expires-at" then some (holder, expiresMs) else none
  | _ => none

/-- (`current-lease`) The newest live lease of a resource, by a walk of the live occurrences. -/
def currentLease (Γ : Host) (root : TermStore) (resource : Term) : Except Fault (Option LeaseState) := do
  let events ← liveOccurrences Γ root
  .ok (events.foldl
    (fun known event =>
      match leaseEvent event with
      | some (holder, expiresMs) =>
        if resource.eqv event.proposition.t1 then some ⟨holder, expiresMs, occurrenceSequence event.coordinate⟩ else known
      | none => known)
    none)

/-- (`fence-valid?`) -/
def fenceValid (Γ : Host) (root : TermStore) (fence : Option Fence) (nowMs : Int) : Except Fault Bool :=
  match fence with
  | none => .ok true
  | some fence => do
    match ← currentLease Γ root fence.resource with
    | none => .ok false
    | some lease =>
      .ok (fence.holder.eqv lease.holder && (decide (fence.epoch = lease.epoch) && decide (nowMs < lease.expiresMs)))

/-! ## Mutations -/

/-- The action results of a transaction, from an ordinal on. -/
def actionResultsFrom (transaction : Triple) : Nat → List Decision → Except Fault (List Triple)
  | _, [] => .ok []
  | ordinal, decision :: decisions => do
    let occurrence ← occurrenceCoordinate transaction ordinal
    let results ← actionResultsFrom transaction (ordinal + 1) decisions
    .ok (rpcActionResult decision.index decision.changed occurrence :: results)

/-- (`mutation-results`) The receipt of a transaction. -/
def mutationResults (transaction : Option Triple) (decisions : List Decision) : Except Fault Triple :=
  match transaction with
  | none => .error ⟨⟨"rpc-invalid-mutation-receipt"⟩, "mutation receipt requires a transaction coordinate"⟩
  | some transaction => do
    let results ← actionResultsFrom transaction 0 decisions
    .ok (rpcMutationResult results)

/-- (`commit-mutation!`) -/
def commitMutation (Γ : Host) (session : Session) (request : RpcRequest) (prepared : Except Refusal PreparedMutation)
    (servedVersion : Int) : Except Fault (Session × RpcResponse) :=
  match prepared with
  | .error refusal => .ok (session, errorResponse request servedVersion refusal.code false refusal.message)
  | .ok prepared => do
    let root := session.store
    let changed := !prepared.operations.isEmpty
    let predictedVersion := if changed then root.nextSequence else servedVersion
    let transaction ←
      if changed then some <$> transactionCoordinate root.spaceId predictedVersion else .ok none
    let receipt ← mutationResults transaction prepared.decisions
    let candidate := response request predictedVersion receipt.term
    match responseEncodeError candidate with
    | some encodeError =>
      .ok (session, errorResponse request servedVersion (responseEncodeErrorCode encodeError).spelling false
        "mutation response exceeds FRAMRPC v2 encode limits")
    | none =>
      if changed then do
        let session ← session.commit Γ prepared.operations
        .ok (session, candidate)
      else .ok (session, candidate)

/-- (`execute-actions!`) -/
def executeActions (Γ : Host) (session : Session) (request : RpcRequest) (plan : Except Refusal (List BatchAction))
    (fence : Except Refusal (Option Fence)) (nowMs servedVersion : Int) : Except Fault (Session × RpcResponse) :=
  match plan with
  | .error refusal => .ok (session, errorResponse request servedVersion refusal.code false refusal.message)
  | .ok actions =>
    match fence with
    | .error refusal => .ok (session, errorResponse request servedVersion refusal.code false refusal.message)
    | .ok fence => do
      if (← fenceValid Γ session.store fence nowMs) = false then
        .ok (session, errorResponse request servedVersion "rpc/lease-fence-mismatch" false "lease fence is not current and unexpired")
      else do
        let live ← if planReadsLive actions then livePropositions Γ session.store else .ok []
        commitMutation Γ session request (prepareActions live actions) servedVersion

/-- (`write-response!`) One action, its operation that of the request. -/
def writeResponse (Γ : Host) (session : Session) (request : RpcRequest) (nowMs servedVersion : Int) :
    Except Fault (Session × RpcResponse) :=
  match readRecord request.payload "rpc/write" 3 with
  | .error message => .ok (session, errorResponse request servedVersion "rpc-invalid-payload" false message)
  | .ok [proposition, policy, fenceValue] =>
    match parseAction (rpcRecord "rpc/action" [.atom (.keyword request.op), proposition, policy]).term 0 with
    | .ok action => executeActions Γ session request (.ok [action]) (parseFence (readOption fenceValue)) nowMs servedVersion
    | .error refusal => .ok (session, errorResponse request servedVersion refusal.code false refusal.message)
  | .ok _ => .ok (session, errorResponse request servedVersion "rpc-invalid-payload" false "write payload is malformed")

/-- (`batch-response!`) -/
def batchResponse (Γ : Host) (session : Session) (request : RpcRequest) (nowMs servedVersion : Int) :
    Except Fault (Session × RpcResponse) :=
  match readRecord request.payload "rpc/batch" 2 with
  | .error message => .ok (session, errorResponse request servedVersion "rpc-invalid-payload" false message)
  | .ok [actionList, fenceValue] =>
    match readList actionList with
    | .error message => .ok (session, errorResponse request servedVersion "rpc-invalid-payload" false message)
    | .ok values =>
      executeActions Γ session request (parseActions values) (parseFence (readOption fenceValue)) nowMs servedVersion
  | .ok _ => .ok (session, errorResponse request servedVersion "rpc-invalid-payload" false "batch payload is malformed")

/-- (`mutation-request?`) -/
def mutationRequest (operation : Keyword) : Bool :=
  decide (operation = ⟨"rpc/assert"⟩) || (decide (operation = ⟨"rpc/retract"⟩) || decide (operation = ⟨"rpc/batch"⟩))

/-! ## Routes -/

/-- A session after the read route. -/
def withDerived (session : Session) (answer : RpcResponse × OrderedResultCache × Int) : Session × RpcResponse :=
  ({ session with orderedResults := answer.2.1, derivedGeneration := answer.2.2 }, answer.1)

/-- (`dispatch-read!`) The answer of the read route, if it takes the operation. -/
def dispatchRead (R : Reads) (session : Session) (request : RpcRequest) : Except Fault (Option (Session × RpcResponse)) :=
  let servedVersion := currentSequence session.store
  if request.op = ⟨"rpc/query"⟩ then do
    .ok (some (withDerived session (← R.query session request)))
  else if request.op = ⟨"rpc/occurrences"⟩ then
    if request.timeoutMs.isSome then
      .ok (some (session, errorResponse request servedVersion "rpc/unexpected-timeout" false "timeout-ms is supported only by rpc/query"))
    else do .ok (some (withDerived session (← R.occurrences session request)))
  else if request.op = ⟨"rpc/validate"⟩ then
    if request.timeoutMs.isSome then
      .ok (some (session, errorResponse request servedVersion "rpc/unexpected-timeout" false "timeout-ms is supported only by rpc/query"))
    else if request.page.isSome then
      .ok (some (session, errorResponse request servedVersion "rpc/unexpected-page" false
        "paging is supported only by rpc/query, rpc/scan, and rpc/occurrences"))
    else do .ok (some (withDerived session (← R.validate session request)))
  else .ok none

/-- The routes of the operations that the read route does not take. -/
def dispatchRoute (Γ : Host) (R : Reads) (session : Session) (request : RpcRequest) (nowMs : Int) :
    Except Fault (Session × RpcResponse) :=
  let servedVersion := currentSequence session.store
  let operation := request.op
  if request.timeoutMs.isSome then
    .ok (session, errorResponse request servedVersion "rpc/unexpected-timeout" false "timeout-ms is supported only by rpc/query")
  else if mutationRequest operation = true ∧ request.page.isSome then
    .ok (session, errorResponse request servedVersion "rpc/unexpected-page" false "mutation operations do not support paging")
  else if operation = ⟨"rpc/version"⟩ then
    if request.page.isSome then
      .ok (session, errorResponse request servedVersion "rpc/unexpected-page" false "rpc/version does not support paging")
    else .ok (session, unitResponse request servedVersion (.kw "rpc/unit"))
  else if operation = ⟨"rpc/status"⟩ then
    if request.page.isSome then
      .ok (session, errorResponse request servedVersion "rpc/unexpected-page" false "rpc/status does not support paging")
    else do
      let live ← livePropositions Γ session.store
      .ok (session, unitResponse request servedVersion (rpcStatus live.length (resultCacheStats session)).term)
  else if operation = ⟨"rpc/scan"⟩ then scanResponse Γ R session request servedVersion
  else if operation = ⟨"rpc/assert"⟩ ∨ operation = ⟨"rpc/retract"⟩ then writeResponse Γ session request nowMs servedVersion
  else if operation = ⟨"rpc/batch"⟩ then batchResponse Γ session request nowMs servedVersion
  else if Lease.leaseOperation operation then Lease.dispatch Γ session request nowMs
  else
    .ok (session, errorResponse request servedVersion "rpc/native-operation-unavailable" false
      "FRAMRPC operation has no typed native server route")

/-- (`dispatch!`) -/
def dispatch (Γ : Host) (R : Reads) (session : Session) (request : RpcRequest) (nowMs : Int) :
    Except Fault (Session × RpcResponse) :=
  let servedVersion := currentSequence session.store
  if session.store.spaceId ≠ request.space then
    .ok (session, errorResponse request servedVersion "rpc/space-mismatch" false "request SpaceId does not match the served store")
  else if expectedVersionMatches servedVersion request.expectedVersion = false then
    .ok (session, errorResponse request servedVersion "rpc/conflict" true "expected-version does not match the served version")
  else do
    match ← dispatchRead R session request with
    | some answered => .ok answered
    | none => dispatchRoute Γ R session request nowMs

end Dispatch

end Fram
