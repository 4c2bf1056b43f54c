import Fram.Rpc

/-!
# Leases

`src/fram/native_lease_ops.bgl`: a lease is a live proposition of its resource, and its epoch is the sequence of the transaction that
asserted it. Granting and renewing replace the proposition of the prior lease in one transaction; releasing retracts it.
-/

namespace Fram

/-- (`FenceResult`) The claim of a holder to the lease of a resource. -/
structure Fence where
  resource : Term
  holder : Term
  epoch : Int
  deriving DecidableEq

/-- (`LeaseSnapshot`) What a decision reads of a lease. -/
structure LeaseSnapshot where
  holder : String
  exp : Int
  epoch : Int
  deriving DecidableEq

/-- (`lease-held?`) -/
def leaseHeld (lease : Option LeaseSnapshot) (nowMs : Int) : Bool :=
  match lease with
  | none => false
  | some lease => decide (nowMs < lease.exp)

namespace Lease

/-- (`max-time-ms`) -/
def maxTimeMs : Int := 9223372036854775807

/-- (`LeaseState`) -/
structure LeaseState where
  resource : Term
  holder : Term
  expiresMs : Int
  epoch : Int
  occurrence : Triple
  proposition : Triple
  deriving DecidableEq

/-- (`response-preflight-error`) -/
def responsePreflightError (request : RpcRequest) (servedVersion : Int) (encodeError : String) : RpcResponse :=
  errorResponse request servedVersion (responseEncodeErrorCode encodeError).spelling false
    "lease response exceeds FRAMRPC v2 encode limits"

/-- (`millis->instant`) -/
def millisInstant (value : Int) : Instant :=
  ⟨value.tdiv 1000, (value % 1000 * 1000000).toNat, by omega⟩

/-- (`fence-record`) -/
def fenceRecord (resource holder : Term) (epoch : Int) : Triple := rpcRecord "rpc/fence" [resource, holder, .int epoch]

/-- (`grant-record`) -/
def grantRecord (resource holder : Term) (epoch expiresMs : Int) : Triple :=
  rpcRecord "lease/grant" [(fenceRecord resource holder epoch).term, .atom (.instant (millisInstant expiresMs))]

/-- (`released-record`) -/
def releasedRecord (released : Bool) : Triple := rpcRecord "lease/released" [.bool released]

/-- (`check-record`) -/
def checkRecord (valid : Bool) (expiresMs : Option Int) : Triple :=
  rpcRecord "lease/check" [.bool valid, rpcOption (expiresMs.map fun ms => .atom (.instant (millisInstant ms)))]

/-- (`parse-fence`) -/
def parseFence (value : Term) : Except String Fence :=
  match readRecord value "rpc/fence" 3 with
  | .error message => .error message
  | .ok [resource, holder, epoch] =>
    match epoch.asInt with
    | some epoch => .ok ⟨resource, holder, epoch⟩
    | none => .error "lease fence requires Term resource/holder and an integer epoch"
  | .ok _ => .error "lease fence is malformed"

/-- (`lease-state`) The lease that a live assertion is, if it is one. -/
def leaseState (event : OperationOccurrence) : Option LeaseState :=
  match event.proposition.t3 with
  | .triple holder marker (.atom (.int expiresMs)) =>
    if event.proposition.t2 = .kw "kernel/lease" ∧ marker = .kw "kernel/expires-at" ∧
        isOccurrenceCoordinate event.coordinate.term = true then
      match event.coordinate.t1 with
      | .triple _ _ (.atom (.int epoch)) =>
        some ⟨event.proposition.t1, holder, expiresMs, epoch, event.coordinate, event.proposition⟩
      | _ => none
    else none
  | _ => none

/-- (`current-lease`) The newest lease among the live assertions of the resource. -/
def currentLease (Γ : Host) (session : Session) (resource : Term) : Option LeaseState :=
  (byT12 Γ session.view resource (.kw "kernel/lease")).foldl
    (fun current event =>
      match leaseState event with
      | none => current
      | some candidate => some candidate)
    none

/-- (`decision-snapshot`) -/
def decisionSnapshot (lease : LeaseState) : LeaseSnapshot := ⟨"", lease.expiresMs, lease.epoch⟩

/-- (`held?`) -/
def held (lease : Option LeaseState) (nowMs : Int) : Bool :=
  match lease with
  | none => false
  | some lease => leaseHeld (some (decisionSnapshot lease)) nowMs

/-- (`matching-fence?`) -/
def matchingFence (lease : Option LeaseState) (fence : Fence) : Bool :=
  match lease with
  | none => false
  | some lease =>
    lease.resource.eqv fence.resource && (lease.holder.eqv fence.holder && decide (lease.epoch = fence.epoch))

/-- (`valid-grant-input?`) -/
def validGrantInput (ttlMs nowMs : Int) : Bool :=
  decide (0 < ttlMs) && (decide (0 ≤ nowMs) && decide (ttlMs ≤ maxTimeMs - nowMs))

/-- (`lease-proposition`) -/
def leaseProposition (resource holder : Term) (expiresMs : Int) : Triple :=
  ⟨resource, .kw "kernel/lease", .triple holder (.kw "kernel/expires-at") (.int expiresMs)⟩

/-- The operations that put a lease in the place of the prior one. -/
def replacement (prior : Option LeaseState) (resource holder : Term) (expiresMs : Int) : List CommitOperation :=
  match prior with
  | none => [⟨.assert, leaseProposition resource holder expiresMs⟩]
  | some prior => [⟨.retract, prior.proposition⟩, ⟨.assert, leaseProposition resource holder expiresMs⟩]

end Lease

/-- (`commit-transaction!`, then `refresh!`) A session after a commit. -/
def Session.commit (Γ : Host) (session : Session) (operations : List CommitOperation) : Except Fault Session := do
  let (store, _) ← commitTransaction Γ session.store operations
  refreshSession Γ { session with store := store }

namespace Lease

/-- (`replace-lease!`) -/
def replaceLease (Γ : Host) (session : Session) (prior : Option LeaseState) (resource holder : Term) (expiresMs : Int) :
    Except Fault Session :=
  session.commit Γ (replacement prior resource holder expiresMs)

/-- (`retract-lease!`) -/
def retractLease (Γ : Host) (session : Session) (lease : Option LeaseState) : Except Fault Session :=
  match lease with
  | none => .ok session
  | some lease => session.commit Γ [⟨.retract, lease.proposition⟩]

/-- (`matching-expiry`) -/
def matchingExpiry (lease : Option LeaseState) (fence : Fence) : Option Int :=
  match lease with
  | none => none
  | some state => if matchingFence (some state) fence then some state.expiresMs else none

/-- The grant of a lease: the response is encoded before the lease is replaced. -/
def grant (Γ : Host) (session : Session) (request : RpcRequest) (prior : Option LeaseState) (resource holder : Term)
    (expiresMs : Int) : Except Fault (Session × RpcResponse) :=
  let servedVersion := currentSequence session.store
  let epoch := session.store.nextSequence
  let candidate := response request epoch (grantRecord resource holder epoch expiresMs).term
  match responseEncodeError candidate with
  | some encodeError => .ok (session, responsePreflightError request servedVersion encodeError)
  | none => do
    let session ← replaceLease Γ session prior resource holder expiresMs
    .ok (session, candidate)

/-- (`acquire-response!`) -/
def acquireResponse (Γ : Host) (session : Session) (request : RpcRequest) (nowMs : Int) :
    Except Fault (Session × RpcResponse) :=
  let servedVersion := currentSequence session.store
  match readRecord request.payload "lease/acquire" 3 with
  | .error message => .ok (session, errorResponse request servedVersion "rpc-invalid-payload" false message)
  | .ok [resource, holder, ttlMs] =>
    let ttlMsInt := ttlMs.asInt.getD 0
    if validGrantInput ttlMsInt nowMs = false then
      .ok (session, errorResponse request servedVersion "rpc-invalid-payload" false
        "lease acquire requires Term resource/holder and a positive bounded ttl-ms")
    else
      let prior := currentLease Γ session resource
      if held prior nowMs then
        .ok (session, errorResponse request servedVersion "rpc/lease-held" false "lease resource is already held")
      else grant Γ session request prior resource holder (nowMs + ttlMsInt)
  | .ok _ =>
    .ok (session, errorResponse request servedVersion "rpc-invalid-payload" false "lease acquire payload is malformed")

/-- (`renew-response!`) -/
def renewResponse (Γ : Host) (session : Session) (request : RpcRequest) (nowMs : Int) : Except Fault (Session × RpcResponse) :=
  let servedVersion := currentSequence session.store
  match readRecord request.payload "lease/renew" 2 with
  | .error message => .ok (session, errorResponse request servedVersion "rpc-invalid-payload" false message)
  | .ok [fenceValue, ttlMs] =>
    let ttlMsInt := ttlMs.asInt.getD 0
    match parseFence fenceValue with
    | .error message => .ok (session, errorResponse request servedVersion "rpc-invalid-payload" false message)
    | .ok fence =>
      if validGrantInput ttlMsInt nowMs = false then
        .ok (session, errorResponse request servedVersion "rpc-invalid-payload" false
          "lease renew requires a valid fence and positive bounded ttl-ms")
      else
        let prior := currentLease Γ session fence.resource
        if (matchingFence prior fence && held prior nowMs) = false then
          .ok (session, errorResponse request servedVersion "rpc/lease-fence-mismatch" false "lease fence is stale or expired")
        else grant Γ session request prior fence.resource fence.holder (nowMs + ttlMsInt)
  | .ok _ => .ok (session, errorResponse request servedVersion "rpc-invalid-payload" false "lease renew payload is malformed")

/-- (`release-response!`) -/
def releaseResponse (Γ : Host) (session : Session) (request : RpcRequest) : Except Fault (Session × RpcResponse) :=
  let servedVersion := currentSequence session.store
  match parseFence request.payload with
  | .error message => .ok (session, errorResponse request servedVersion "rpc-invalid-payload" false message)
  | .ok fence =>
    let prior := currentLease Γ session fence.resource
    if matchingFence prior fence = false then .ok (session, response request servedVersion (releasedRecord false).term)
    else
      let candidate := response request session.store.nextSequence (releasedRecord true).term
      match responseEncodeError candidate with
      | some encodeError => .ok (session, responsePreflightError request servedVersion encodeError)
      | none => do
        let session ← retractLease Γ session prior
        .ok (session, candidate)

/-- (`check-response`) -/
def checkResponse (Γ : Host) (session : Session) (request : RpcRequest) (nowMs : Int) : RpcResponse :=
  let servedVersion := currentSequence session.store
  match parseFence request.payload with
  | .error message => errorResponse request servedVersion "rpc-invalid-payload" false message
  | .ok fence =>
    let prior := currentLease Γ session fence.resource
    let expiresMs := matchingExpiry prior fence
    response request servedVersion (checkRecord (expiresMs.isSome && held prior nowMs) expiresMs).term

/-- (`lease-operation?`) -/
def leaseOperation (operation : Keyword) : Bool :=
  decide (operation = ⟨"rpc/lease-acquire"⟩) || (decide (operation = ⟨"rpc/lease-renew"⟩) ||
    (decide (operation = ⟨"rpc/lease-release"⟩) || decide (operation = ⟨"rpc/lease-check"⟩)))

/-- (`dispatch!`) -/
def dispatch (Γ : Host) (session : Session) (request : RpcRequest) (nowMs : Int) : Except Fault (Session × RpcResponse) :=
  let servedVersion := currentSequence session.store
  if session.store.spaceId ≠ request.space then
    .ok (session, errorResponse request servedVersion "rpc/space-mismatch" false "request SpaceId does not match the served store")
  else if expectedVersionMatches servedVersion request.expectedVersion = false then
    .ok (session, errorResponse request servedVersion "rpc/conflict" true "expected-version does not match the served version")
  else if request.timeoutMs.isSome then
    .ok (session, errorResponse request servedVersion "rpc/unexpected-timeout" false "timeout-ms is supported only by rpc/query")
  else if request.page.isSome then
    .ok (session, errorResponse request servedVersion "rpc/unexpected-page" false "lease operations do not support paging")
  else if request.op = ⟨"rpc/lease-acquire"⟩ then acquireResponse Γ session request nowMs
  else if request.op = ⟨"rpc/lease-renew"⟩ then renewResponse Γ session request nowMs
  else if request.op = ⟨"rpc/lease-release"⟩ then releaseResponse Γ session request
  else if request.op = ⟨"rpc/lease-check"⟩ then .ok (session, checkResponse Γ session request nowMs)
  else
    .ok (session, errorResponse request servedVersion "rpc/native-operation-unavailable" false "FRAMRPC operation is not a lease operation")

end Lease

end Fram
