import Fram.Dispatch
import Fram.Snapshot

/-!
# The server engine

`src/fram/native_server.bgl`: booting a store from the bytes of its log, with or without an image, and answering requests. A request
that commits answers with the bytes that the host then appends to the log.
-/

namespace Fram

/-- (`Store`) A booted store, and how many bytes its log has. -/
structure Store where
  canonicalLogPath : String
  session : Session
  logByteCount : Nat

/-- (`StoreResult`) What a boot answers: a store, or an error when there is none. -/
structure StoreResult where
  store : Except String Store
  validLogBytes : Nat
  bootAppend : Bytes
  snapshotReport : String

/-- (`failed-store`) -/
def failedStore (message : String) : StoreResult := ⟨.error message, 0, [], ""⟩

/-- (`next-store-result`) -/
def nextStoreResult (prior : StoreResult) (store : Store) : StoreResult := ⟨.ok store, prior.validLogBytes, [], ""⟩

/-- (`ResponseResult`) What a request answers. -/
structure ResponseResult where
  response : Except String RpcFrameV2
  appendBytes : Bytes
  nextStore : StoreResult
  stateChanged : Bool
  snapshotBytes : Bytes

/-- (`failed-response`) -/
def failedResponse (message : String) (storeResult : StoreResult) : ResponseResult :=
  ⟨.error message, [], storeResult, false, []⟩

/-! ## Booting -/

/-- (`fold-store!`) A boot from the log alone. -/
def foldStore (Γ : Host) (canonicalLogPath spaceId : String) (logBytes : Bytes) (report : String) : Except Fault StoreResult := do
  match ← consumeFramlogHeader Γ (startFramlogStream spaceId) logBytes with
  | .error message => .ok (failedStore message)
  | .ok completed =>
    match completed.store with
    | none => .ok (failedStore "native FRAMLOG boot failed")
    | some root => do
      let session ← newSession Γ (closeFold root)
      .ok ⟨.ok ⟨canonicalLogPath, session, completed.validLogBytes + completed.bootAppend.length⟩,
        completed.validLogBytes, completed.bootAppend, report⟩

/-- The report of a boot that has an image and folds the log all the same. -/
def degraded (reason : String) : String := "fram: snapshot boot degraded to full fold; reason " ++ reason

/-- (`snapshot-store!`) A boot from an image and the log past it. -/
def snapshotStore (Γ : Host) (canonicalLogPath spaceId : String) (logBytes : Bytes) (plan : BootPlan) :
    Except Fault StoreResult :=
  match plan.image with
  | none => foldStore Γ canonicalLogPath spaceId logBytes (degraded ":no-image")
  | some image =>
    match image.sidecar with
    | none => foldStore Γ canonicalLogPath spaceId logBytes (degraded ":no-sidecar")
    | some sidecar => do
      let root ← newTermStore image.spaceId
      match installImage Γ image root with
      | .error fault => foldStore Γ canonicalLogPath spaceId logBytes (degraded (":" ++ fault.type.spelling))
      | .ok root =>
        match consumeFramlogFrames Γ ⟨spaceId, some (openFold root), sidecar.watermark.toNat, []⟩ logBytes
            sidecar.watermark.toNat with
        | .error message => foldStore Γ canonicalLogPath spaceId logBytes (degraded message)
        | .ok tail =>
          match tail.store with
          | none => foldStore Γ canonicalLogPath spaceId logBytes (degraded "tail-does-not-continue")
          | some root => do
            let session ← newSession Γ (closeFold root)
            .ok ⟨.ok ⟨canonicalLogPath, session, tail.validLogBytes⟩, tail.validLogBytes, [], plan.report⟩

/-- (`boot-store!`) -/
def bootStore (Γ : Host) (canonicalLogPath spaceId : String) (logBytes snapshotBytes : Bytes) : Except Fault StoreResult := do
  let plan ← planSnapshotBoot true snapshotBytes logBytes spaceId
  match plan.route with
  | .replay => snapshotStore Γ canonicalLogPath spaceId logBytes plan
  | .fold => foldStore Γ canonicalLogPath spaceId logBytes plan.report

/-! ## Requests -/

/-- (`wrap-rpc-response`) -/
def wrapRpcResponse (requestFrame : RpcFrameV2) (rpcResponse : RpcResponse) : RpcFrameV2 :=
  ⟨⟨"response"⟩, 0, requestFrame.requestId, none, some rpcResponse⟩

/-- The answer of a request that changes no store state. -/
def unchangedResponse (storeResult : StoreResult) (store : Store) (frame : RpcFrameV2) (rpcResponse : RpcResponse)
    (snapshotBytes : Bytes) : ResponseResult :=
  ⟨.ok (wrapRpcResponse frame rpcResponse), [], nextStoreResult storeResult store, false, snapshotBytes⟩

/-- (`checkpoint-response!`) An image of the store, for the host to write beside the log. -/
def checkpointResponse (storeResult : StoreResult) (store : Store) (frame : RpcFrameV2) (request : RpcRequest) (nowMs : Int) :
    ResponseResult :=
  let root := store.session.store
  let servedVersion := currentSequence root
  let watermark := store.logByteCount
  let answer := unchangedResponse storeResult store frame
  if root.spaceId ≠ request.space then
    answer (errorResponse request servedVersion "rpc/space-mismatch" false "request SpaceId does not match the served store") []
  else if request.payload ≠ .kw "rpc/unit" then
    answer (errorResponse request servedVersion "rpc-invalid-payload" false "operation payload must be :rpc/unit") []
  else if request.page.isSome then
    answer (errorResponse request servedVersion "rpc/unexpected-page" false "rpc/checkpoint does not support paging") []
  else
    match encodeSnapshot root servedVersion watermark nowMs with
    | .ok encoded =>
      answer (response request servedVersion (rpcRecord "rpc/checkpoint" [.int servedVersion, .int watermark, .int nowMs,
        .int encoded.fingerprint, .int encoded.bytes.length]).term) encoded.bytes
    | .error message => answer (errorResponse request servedVersion "rpc/checkpoint-unavailable" false message) []

/-- (`dispatch-request!`) -/
def dispatchRequest (Γ : Host) (R : Reads) (storeResult : StoreResult) (store : Store) (frame : RpcFrameV2) (nowMs : Int) :
    Except Fault ResponseResult :=
  match frame.request with
  | none => .ok (failedResponse "decoded request frame omitted RpcRequest" storeResult)
  | some present =>
    if present.op = ⟨"rpc/checkpoint"⟩ then .ok (checkpointResponse storeResult store frame present nowMs)
    else do
      let beforeSequence := currentSequence store.session.store
      let beforeDerived := store.session.derivedGeneration
      let (session, rpcResponse) ← Dispatch.dispatch Γ R store.session present nowMs
      match ← encodeStoreAppend session.store beforeSequence with
      | .error message => .ok (failedResponse message storeResult)
      | .ok appendBytes =>
        .ok ⟨.ok (wrapRpcResponse frame rpcResponse), appendBytes,
          nextStoreResult storeResult ⟨store.canonicalLogPath, session, store.logByteCount + appendBytes.length⟩,
          decide (beforeSequence ≠ currentSequence session.store) || decide (beforeDerived ≠ session.derivedGeneration), []⟩

end Fram
