import Fram.Dispatch
import Fram.Mutation
import Fram.Preflight

/-!
# The server of the JVM

`handle-rpc-request!` of `src/server.clj`: a request against a booted database. The checks of a request's envelope come first. A read
operation is answered from the published snapshot; a mutation is parsed and handed to the commit sequencer as a mutation function, which
looks at the store, encodes the response it foresees and commits. What a read operation answers, once its version has been checked, is a
parameter.

A request is handled alone: its cohort has no other function. The bytes and the time of a ticket, by which cohorts are filled, are left
out.
-/

namespace Fram.JvmServer

open Database Framrpc

/-! ## State -/

/-- (`snapshot-of`) What readers see. -/
structure Published where
  version : Int
  root : TermStore

/-- A booted server: the log of its generation, its database and snapshot, whether it is the active one and holds the writer's lock, and
whether its sequencer runs. -/
structure Server where
  log : Bytes
  db : Db
  published : Published
  active : Bool
  authority : Bool
  sequencing : Bool

/-- What the read operations answer from a snapshot: a payload, a page, and the version served if it is another one. -/
structure Answers where
  read : Server → RpcRequest → Except Fault (Term × Option RpcPageResponse × Option Int)

/-- (`server-fail!`) -/
def serverFail {α : Type} (code message : String) : Except Fault α := .error ⟨⟨code⟩, message⟩

/-- (`snapshot-of`) -/
def snapshotOf (db : Db) : Published := ⟨currentSequence db.termStore, db.termStore⟩

/-- (`refresh-standby!`) A standby reads its log again. -/
def refreshStandby (Γ : Host) (J : Gzip) (server : Server) : Except Fault Server :=
  if server.active then .ok server
  else do
    let (db, log) ← openDatabase Γ J server.log (some server.db.spaceId) false
    .ok { server with log := log, db := db, published := snapshotOf db }

/-- (`require-writer!`) -/
def requireWriter (server : Server) : Except Fault Unit :=
  if (server.active && server.authority) = false then
    serverFail "rpc/writer-authority-required" "active writer authority is required"
  else requireMutationReady server.db

/-- (`cancelled!`) -/
def checkCancelled (cancelled : Bool) : Except Fault Unit :=
  if cancelled then serverFail "rpc/cancelled" "request was cancelled before completion" else .ok ()

/-- (`require-version-expected!`) -/
def requireVersionExpected (version : Int) (expected : Option Int) : Except Fault Unit :=
  if expected.any (· ≠ version) then serverFail "rpc/conflict" "expected-version does not match current version" else .ok ()

/-! ## Payloads -/

/-- (`require-triple!`) -/
def requireTriple (value : Term) (label : String) : Except Fault Triple :=
  match value.asTriple with
  | some triple => .ok triple
  | none => serverFail "rpc-invalid-payload" (label ++ " must be a Triple")

/-- (`require-int!`) -/
def requireInt (value : Term) (label : String) : Except Fault Int :=
  match value.asInt with
  | some n => .ok n
  | none => serverFail "rpc-invalid-payload" (label ++ " must be an Int")

/-- (`require-keyword!`) -/
def requireKeyword (value : Term) (label : String) : Except Fault Keyword :=
  match value with
  | .atom (.keyword k) => .ok k
  | _ => serverFail "rpc-invalid-payload" (label ++ " must be a Keyword")

/-- (`rpc-list-values!`) A list is read as the native server reads it; the failure has a code. -/
def listValues (value : Term) : Except Fault (List Term) :=
  match readList value with
  | .ok values => .ok values
  | .error message => .error (codecFail "rpc-invalid-list" message)

/-- (`rpc-record-fields!`) -/
def recordFields (value : Term) (tag : String) (count : Nat) : Except Fault (List Term) :=
  match value with
  | .triple t1 t2 t3 =>
    if t1 = .kw tag ∧ t3 = .kw "rpc/record" then do
      let fields ← listValues t2
      if fields.length = count then .ok fields
      else .error (codecFail "rpc-invalid-record" "RPC record contains the wrong number of fields")
    else .error (codecFail "rpc-invalid-record" "RPC record tag or marker is invalid")
  | .atom _ => .error (codecFail "rpc-invalid-record" "RPC record tag or marker is invalid")

/-- (`rpc-option-present?!`, `rpc-option-value!`) -/
def optionValue (value : Term) : Except Fault (Option Term) :=
  match readOption value with
  | .ok option => .ok option
  | .error _ => .error (codecFail "rpc-invalid-option" "RPC option must be :rpc/none or (:rpc/some value :rpc/option)")

/-- (`rpc-list!`) -/
def makeList (values : List Term) : Except Fault Term :=
  if termCodecV1MaxDepth - 6 < values.length then
    .error (codecFail "term-depth-exceeded" "RPC list length exceeds the TermCodecV1 depth bound")
  else .ok (rpcList values)

/-- (`parse-fence!`) -/
def parseFence (value : Term) : Except Fault Fence := do
  match ← recordFields value "rpc/fence" 3 with
  | [resource, holder, epoch] => do
    let epoch ← requireInt epoch "fence epoch"
    .ok ⟨resource, holder, epoch⟩
  | _ => .error (codecFail "rpc-invalid-record" "RPC record contains the wrong number of fields")

/-- (`parse-policy!`) -/
def parsePolicy (value : Term) : Except Fault Dispatch.Policy := do
  let _ ← requireKeyword value "subject policy"
  match Dispatch.policyOf value with
  | some policy => .ok policy
  | none => serverFail "rpc-invalid-policy" "subject policy is unsupported"

/-- An action of a mutation. -/
structure ServerAction where
  operation : Action
  proposition : Triple
  policy : Dispatch.Policy

/-- (`parse-action!`) -/
def parseAction (value : Term) : Except Fault ServerAction := do
  match ← recordFields value "rpc/action" 3 with
  | [operation, proposition, policy] => do
    let _ ← requireKeyword operation "action operation"
    match Dispatch.actionOf operation with
    | none => serverFail "rpc-invalid-action" "action operation is unsupported"
    | some operation => do
      let proposition ← requireTriple proposition "action proposition"
      let policy ← parsePolicy policy
      .ok ⟨operation, proposition, policy⟩
  | _ => .error (codecFail "rpc-invalid-record" "RPC record contains the wrong number of fields")

/-! ## Preparing a mutation -/

/-- What a mutation commits, and what it tells of each action. -/
structure Prepared where
  operations : List CommitOperation
  decisions : List (Nat × Bool)

/-- (`prepare-actions!`) From an index on. -/
def prepareActions : List Triple → List ServerAction → Nat → Except Fault Prepared
  | _, [], _ => .ok ⟨[], []⟩
  | simulated, action :: remaining, index =>
    if action.policy = .subjectExisting ∧ Dispatch.subjectKnown simulated action.proposition = false then
      serverFail "rpc/subject-not-found" "subject-existing policy requires a live t1"
    else
      match action.operation with
      | .assert => do
        let rest ← prepareActions (simulated ++ [action.proposition]) remaining (index + 1)
        .ok ⟨⟨.assert, action.proposition⟩ :: rest.operations, (index, true) :: rest.decisions⟩
      | .retract => do
        let removed := Dispatch.removeLastEqual simulated action.proposition
        let rest ← prepareActions removed.1 remaining (index + 1)
        .ok ⟨⟨.retract, action.proposition⟩ :: rest.operations, (index, removed.2) :: rest.decisions⟩

/-- (`prepare-actions-on-store!`) Assertions of any subject need no live propositions. -/
def prepareActionsOnStore (Γ : Host) (store : TermStore) (actions : List ServerAction) : Except Fault Prepared :=
  if actions.all fun action => decide (action.operation = .assert) && decide (action.policy = .subjectAny) then
    .ok ⟨actions.map fun action => ⟨.assert, action.proposition⟩, (List.range actions.length).map (·, true)⟩
  else do
    let live ← livePropositions Γ store
    prepareActions live actions 0

/-- (`predicted-mutation-occurrences`) -/
def predictedMutationOccurrences (store : TermStore) (operations : List CommitOperation) : Except Fault (List Triple) :=
  if operations.isEmpty then .ok []
  else do
    let transaction ← transactionCoordinate store.spaceId store.nextSequence
    (List.range operations.length).mapM fun ordinal => occurrenceCoordinate transaction ordinal

/-- (`mutation-result`) -/
def mutationResult (decisions : List (Nat × Bool)) (occurrences : List Triple) : Except Fault Term := do
  let results ← makeList ((decisions.zip occurrences).map fun (decision, occurrence) =>
    (Dispatch.rpcActionResult decision.1 decision.2 occurrence).term)
  .ok (rpcRecord "rpc/mutation-result" [results]).term

/-- A response as the codec takes it. -/
def responseFrame (request : RpcRequest) (servedVersion : Int) (payload : Term) : Preflight.Frame :=
  ⟨⟨"response"⟩, 0, 0, none, some ⟨.string (utf16 request.space), .keyword (utf16 request.op.spelling), servedVersion, none, none,
    some (Value.ofTerm payload)⟩⟩

/-- (`require-encodable-rpc-response!`) -/
def requireEncodable (request : RpcRequest) (servedVersion : Int) (payload : Term) : Except Fault Unit := do
  let _ ← Preflight.encodeRpcFrameV2 (responseFrame request servedVersion payload)
  .ok ()

/-! ## Leases and fences -/

/-- (`occurrence-epoch`) -/
def occurrenceEpoch (coordinate : Triple) : Term :=
  match coordinate.t1 with
  | .triple _ _ epoch => epoch
  | .atom a => .atom a

/-- The lease is of the holder and of the epoch. -/
def names (lease : LeaseRecord) (fence : Fence) : Bool :=
  fence.holder.eqv lease.holder && (Term.int fence.epoch).eqv (occurrenceEpoch lease.occurrence)

/-- (`require-fence!`) -/
def requireFence (Γ : Host) (store : TermStore) (fence : Option Triple) (nowMs : Int) : Except Fault Unit :=
  match fence with
  | none => .ok ()
  | some fence => do
    let fence ← parseFence fence.term
    let lease ← currentLease Γ store fence.resource
    if lease.any fun lease => names lease fence && decide (nowMs < lease.expiresMs) then .ok ()
    else serverFail "rpc/lease-fence-mismatch" "lease fence is not current and unexpired"

/-! ## Mutation functions -/

/-- (`mutation-payload!`) -/
def mutationPayload (Γ : Host) (server : Server) (request : RpcRequest) (actions : List ServerAction) (fence : Option Triple)
    (cancelled : Bool) (nowMs : Int) : Mutating Term :=
  orThrow (requireWriter server) fun _ =>
  looking fun store =>
  orThrow (requireVersionExpected (currentSequence store) request.expectedVersion) fun _ =>
  orThrow (requireFence Γ store fence nowMs) fun _ =>
  orThrow (checkCancelled cancelled) fun _ =>
  orThrow (prepareActionsOnStore Γ store actions) fun prepared =>
  orThrow (request.expectedVersion.mapM (transactionCoordinate store.spaceId)) fun base =>
  orThrow (predictedMutationOccurrences store prepared.operations) fun occurrences =>
  orThrow (mutationResult prepared.decisions occurrences) fun payload =>
  orThrow (requireEncodable request (if prepared.operations.isEmpty then currentSequence store else store.nextSequence) payload) fun _ =>
  if prepared.operations.isEmpty then .done (.ok payload)
  else
    orThrow (checkCancelled cancelled) fun _ =>
    (commitOnly ⟨prepared.operations.map fun o => ⟨some o.action, o.proposition.term, none, none, none, none⟩, base.map (·.term), none,
      none⟩).bind fun answer => orThrow answer fun
        | .conflict _ _ => .done (serverFail "rpc/conflict" "expected-version lost its commit race")
        | .committed _ _ _ _ => .done (.ok payload)

/-- (`handle-write!`) The mutation function of a write. -/
def handleWrite (Γ : Host) (server : Server) (request : RpcRequest) (operation : Action) (cancelled : Bool) (nowMs : Int) :
    Except Fault (Mutating Term) := do
  match ← recordFields request.payload "rpc/write" 3 with
  | [proposition, policy, fenceOption] => do
    let fence ← optionValue fenceOption
    .ok (
      orThrow (requireTriple proposition "write proposition") fun proposition =>
      orThrow (parsePolicy policy) fun policy =>
      orThrow (fence.mapM (requireTriple · "write fence")) fun fence =>
      mutationPayload Γ server request [⟨operation, proposition, policy⟩] fence cancelled nowMs)
  | _ => .error (codecFail "rpc-invalid-record" "RPC record contains the wrong number of fields")

/-- (`handle-batch!`) -/
def handleBatch (Γ : Host) (server : Server) (request : RpcRequest) (cancelled : Bool) (nowMs : Int) : Except Fault (Mutating Term) := do
  match ← recordFields request.payload "rpc/batch" 2 with
  | [actionList, fenceOption] => do
    let values ← listValues actionList
    if rpcV2MaxBatchActions < values.length then
      serverFail "term-depth-exceeded" "batch action count exceeds the TermCodecV1 depth bound"
    else do
      let actions ← values.mapM parseAction
      let fence ← optionValue fenceOption
      if actions.isEmpty then serverFail "rpc-invalid-action" "batch requires at least one action"
      else
        .ok (
          orThrow (fence.mapM (requireTriple · "batch fence")) fun fence =>
          mutationPayload Γ server request actions fence cancelled nowMs)
  | _ => .error (codecFail "rpc-invalid-record" "RPC record contains the wrong number of fields")

/-- (`lease-mutation-guard!`) -/
def leaseMutationGuard (server : Server) (request : RpcRequest) (cancelled : Bool) (next : TermStore → Mutating Term) : Mutating Term :=
  orThrow (requireWriter server) fun _ =>
  looking fun store =>
  orThrow (requireVersionExpected (currentSequence store) request.expectedVersion) fun _ =>
  orThrow (checkCancelled cancelled) fun _ =>
  next store

/-- The payload of a lease that is granted at the next transaction, encoded before anything is committed. -/
def foreseeGrant (request : RpcRequest) (store : TermStore) (resource holder : Term) (ttlMs nowMs : Int) : Except Fault Term := do
  let transaction ← transactionCoordinate store.spaceId store.nextSequence
  let epoch ← occurrenceCoordinate transaction 0
  let expiresMs ← addLong nowMs ttlMs
  let payload := (rpcRecord "lease/grant" [(rpcRecord "rpc/fence" [resource, holder, occurrenceEpoch epoch]).term,
    .atom (.instant (Lease.millisInstant expiresMs))]).term
  requireEncodable request store.nextSequence payload
  .ok payload

/-- A time to live that is positive. -/
def requirePositive (ttlMs : Int) : Except Fault Unit :=
  if 0 < ttlMs then .ok () else serverFail "rpc-invalid-payload" "lease ttl-ms must be positive"

/-- (`handle-lease-acquire!`) -/
def handleLeaseAcquire (Γ : Host) (server : Server) (request : RpcRequest) (cancelled : Bool) (nowMs : Int) :
    Except Fault (Mutating Term) := do
  match ← recordFields request.payload "lease/acquire" 3 with
  | [resource, holder, ttl] => do
    let ttlMs ← requireInt ttl "lease ttl-ms"
    requirePositive ttlMs
    .ok (leaseMutationGuard server request cancelled fun store =>
      orThrow (currentLease Γ store resource) fun current =>
      if current.any fun lease => decide (nowMs < lease.expiresMs) then
        .done (serverFail "rpc/lease-held" "lease resource is already held")
      else
        orThrow (foreseeGrant request store resource holder ttlMs nowMs) fun payload =>
        (acquireLease Γ resource holder ttlMs nowMs).bind fun answer => orThrow answer fun
          | .granted _ _ _ => .done (.ok payload)
          | _ => .done (serverFail "rpc/lease-held" "lease resource is already held"))
  | _ => .error (codecFail "rpc-invalid-record" "RPC record contains the wrong number of fields")

/-- (`handle-lease-renew!`) -/
def handleLeaseRenew (Γ : Host) (server : Server) (request : RpcRequest) (cancelled : Bool) (nowMs : Int) :
    Except Fault (Mutating Term) := do
  match ← recordFields request.payload "lease/renew" 2 with
  | [fenceValue, ttl] => do
    let fence ← parseFence fenceValue
    let ttlMs ← requireInt ttl "lease ttl-ms"
    requirePositive ttlMs
    .ok (leaseMutationGuard server request cancelled fun store =>
      orThrow (currentLease Γ store fence.resource) fun
        | none => .done (serverFail "rpc/lease-fence-mismatch" "lease fence does not name the current lease")
        | some current =>
          if names current fence && decide (nowMs < current.expiresMs) then
            orThrow (foreseeGrant request store fence.resource fence.holder ttlMs nowMs) fun payload =>
            (renewLease Γ fence.resource fence.holder current.occurrence.term ttlMs nowMs).bind fun answer => orThrow answer fun
              | .granted _ _ _ => .done (.ok payload)
              | _ => .done (serverFail "rpc/lease-fence-mismatch" "lease fence is stale or expired")
          else .done (serverFail "rpc/lease-fence-mismatch" "lease fence does not name the current lease"))
  | _ => .error (codecFail "rpc-invalid-record" "RPC record contains the wrong number of fields")

/-- (`rpc-lease-released!`) -/
def leaseReleased (released : Bool) : Term := (rpcRecord "lease/released" [.bool released]).term

/-- (`handle-lease-release!`) -/
def handleLeaseRelease (Γ : Host) (server : Server) (request : RpcRequest) (cancelled : Bool) : Except Fault (Mutating Term) := do
  let fence ← parseFence request.payload
  .ok (leaseMutationGuard server request cancelled fun store =>
    orThrow (currentLease Γ store fence.resource) fun
      | none => .done (.ok (leaseReleased false))
      | some current =>
        if names current fence = false then .done (.ok (leaseReleased false))
        else
          orThrow (requireEncodable request store.nextSequence (leaseReleased true)) fun _ =>
          (releaseLease Γ fence.resource fence.holder current.occurrence.term).bind fun answer => orThrow answer fun
            | .released _ _ => .done (.ok (leaseReleased true))
            | _ => .done (serverFail "rpc/lease-fence-mismatch" "lease fence is stale or expired"))

/-! ## Requests -/

/-- (`native-rpc-operations`) -/
def nativeRpcOperations : List String :=
  ["rpc/version", "rpc/status", "rpc/assert", "rpc/retract", "rpc/batch", "rpc/scan", "rpc/query", "rpc/occurrences", "rpc/lease-acquire",
    "rpc/lease-renew", "rpc/lease-release", "rpc/lease-check", "rpc/validate"]

/-- (`paged-rpc-operations`) -/
def pagedRpcOperations : List String := ["rpc/query", "rpc/scan", "rpc/occurrences"]

/-- (`read-only-rpc-operations`) -/
def readOnlyRpcOperations : List String := nativeRpcOperations.filter fun operation =>
  !(["rpc/assert", "rpc/retract", "rpc/batch", "rpc/lease-acquire", "rpc/lease-renew", "rpc/lease-release"].contains operation)

/-- The mutation function of a request, parsed of its payload (`dispatch-request!`, at the mutations). -/
def mutationOf (Γ : Host) (server : Server) (request : RpcRequest) (cancelled : Bool) (nowMs : Int) : Except Fault (Mutating Term) :=
  if request.op = ⟨"rpc/assert"⟩ then handleWrite Γ server request .assert cancelled nowMs
  else if request.op = ⟨"rpc/retract"⟩ then handleWrite Γ server request .retract cancelled nowMs
  else if request.op = ⟨"rpc/batch"⟩ then handleBatch Γ server request cancelled nowMs
  else if request.op = ⟨"rpc/lease-acquire"⟩ then handleLeaseAcquire Γ server request cancelled nowMs
  else if request.op = ⟨"rpc/lease-renew"⟩ then handleLeaseRenew Γ server request cancelled nowMs
  else if request.op = ⟨"rpc/lease-release"⟩ then handleLeaseRelease Γ server request cancelled
  else serverFail "rpc/unsupported-operation" "operation is not part of FRAMRPC v2"

/-- What the handling of a request gives: a payload, a page and the version served, or what it throws. -/
abbrev Handled := Except Fault (Term × Option RpcPageResponse × Int)

/-- (`sequence-commit!`, with the delivery of a cohort of one) -/
def sequenceCommit (Γ : Host) (J : Gzip) (server : Server) (cancelled : Bool) (mutation : Mutating Term) : Handled × Server :=
  match checkCancelled cancelled with
  | .error fault => (.error fault, server)
  | .ok _ =>
    match requireWriter server with
    | .error fault => (.error fault, server)
    | .ok _ =>
      if server.sequencing = false then (serverFail "rpc/not-booted" "commit sequencer is not running", server)
      else
        let outcome := commitMutations Γ J server.log server.db [mutation]
        let after := { server with log := server.log ++ outcome.appended, db := outcome.db }
        match outcome.answer with
        | .error fault => (.error fault, after)
        | .ok answer =>
          let after := if 0 < answer.frameCount then { after with published := snapshotOf outcome.db } else after
          match answer.results with
          | told :: _ => (told.result.map fun payload => (payload, none, told.version), after)
          | [] => (serverFail "rpc/internal-error" "native RPC request failed", after)

/-- The checks that `handle-rpc-request!` makes of a request before it looks at its operation. -/
def checkEnvelope (server : Server) (request : RpcRequest) : Except Fault Unit :=
  if request.space ≠ server.db.spaceId then
    serverFail "rpc/space-mismatch" "request SpaceId does not match the served space"
  else if nativeRpcOperations.contains request.op.spelling = false then
    serverFail "rpc/unsupported-operation" "operation is not part of FRAMRPC v2"
  else if pagedRpcOperations.contains request.op.spelling = false ∧ request.page.isSome then
    serverFail "rpc/unexpected-page" "paging is supported only by rpc/query, rpc/scan, and rpc/occurrences"
  else if request.op ≠ ⟨"rpc/query"⟩ ∧ request.timeoutMs.isSome then
    serverFail "rpc/unexpected-timeout" "timeout-ms is supported only by rpc/query"
  else .ok ()

/-- The body of `handle-rpc-request!`, on a server that is booted and fresh. -/
def serve (Γ : Host) (J : Gzip) (A : Answers) (server : Server) (request : RpcRequest) (cancelled : Bool) (nowMs : Int) :
    Handled × Server :=
  match checkEnvelope server request with
  | .error fault => (.error fault, server)
  | .ok _ =>
    if readOnlyRpcOperations.contains request.op.spelling then
      (do
        requireVersionExpected server.published.version request.expectedVersion
        let (payload, page, served) ← A.read server request
        .ok (payload, page, served.getD server.published.version), server)
    else
      match mutationOf Γ server request cancelled nowMs with
      | .error fault => (.error fault, server)
      | .ok mutation => sequenceCommit Γ J server cancelled mutation

/-- (`retryable-error-codes`) -/
def retryableErrorCodes : List String :=
  ["rpc/conflict", "rpc/cancelled", "query-cancelled", "query-time-limit", "query-work-limit", "query/archive-unavailable",
    "durability-ambiguous"]

/-- The host's exceptions carry no code. -/
def hostExceptions : List String :=
  ["ExceptionInfo", "ArithmeticException", "IllegalArgumentException", "BufferUnderflowException", "NullPointerException"]

/-- The code of a failure. -/
def codeOf (fault : Fault) : Keyword := if hostExceptions.contains fault.type.spelling then ⟨"rpc/internal-error"⟩ else fault.type

/-- The response of a request, and of what its handling gave. -/
def respond (request : RpcRequest) (handled : Handled) (version : Int) : RpcResponse :=
  match handled with
  | .ok (payload, page, served) => ⟨request.space, request.op, served, page, none, some payload⟩
  | .error fault =>
    ⟨request.space, request.op, version, none,
      some ⟨codeOf fault, retryableErrorCodes.contains (codeOf fault).spelling, fault.message, none⟩, none⟩

/-- (`handle-rpc-request!`) -/
def handleRpcRequest (Γ : Host) (J : Gzip) (A : Answers) (server : Option Server) (request : RpcRequest) (cancelled : Bool)
    (nowMs : Int) : RpcResponse × Option Server :=
  match server with
  | none => (respond request (serverFail "rpc/not-booted" "database is not booted") 0, none)
  | some server =>
    match refreshStandby Γ J server with
    | .error fault => (respond request (.error fault) server.published.version, some server)
    | .ok fresh =>
      let (handled, after) := serve Γ J A fresh request cancelled nowMs
      (respond request handled after.published.version, some after)

end Fram.JvmServer
