import Fram.CommitRequest

/-!
# The response size preflight

The frames of `src/framrpc.bclj` as the JVM encodes them: a frame is validated, its body is measured, the body is written, and the size
measured is compared with the size written. The values of a frame are those of the JVM: its texts are UTF-16 and may have an unpaired
surrogate, an integer may be past the longs, and an instant may be built without the check of its constructor.
-/

namespace Fram.Preflight

open Database Framrpc LittleEndian

/-! ## Writing a value -/

/-- The host's encoder of UTF-8, which reports what is malformed. -/
def encodeUnits (units : List UInt16) : Option Bytes := (scalars units).map fun cs => utf8Encode (String.ofList cs)

/-- (`strict-utf8-bytes!`) -/
def strictUtf8Bytes (units : List UInt16) (maximum : Nat) (label : String) : Except Fault Bytes := do
  let expected ← utf8LengthUnits maximum label units 0
  match encodeUnits units with
  | some bytes =>
    if expected = bytes.length then .ok bytes
    else .error (codecFail "term-codec-invalid-utf8" (label ++ " encoded to an unexpected byte length"))
  | none => .error (codecFail "term-codec-invalid-utf8" (label ++ " is not valid UTF-8 text"))

/-- (`write-sized-text-core!`) -/
def writeSizedTextCore (units : List UInt16) (maxStringBytes : Nat) (label : String) : Except Fault Bytes := do
  let bytes ← strictUtf8Bytes units maxStringBytes label
  let length ← codecWriteU32Le bytes.length
  .ok (length ++ bytes)

/-- (`codec-write-i64-le!`) The host shifts no integer past the longs. -/
def codecWriteI64Le (value : Int) : Except Fault Bytes :=
  if -9223372036854775808 ≤ value ∧ value ≤ 9223372036854775807 then .ok (toBytes 8 (natOfI64 value))
  else .error ⟨⟨"IllegalArgumentException"⟩, "bit operation not supported for: class clojure.lang.BigInt"⟩

/-- (`write-term-core!`) -/
def writeTermCore (maxStringBytes : Nat) : Value → Except Fault Bytes
  | .triple t1 t2 t3 => do
    let b1 ← writeTermCore maxStringBytes t1
    let b2 ← writeTermCore maxStringBytes t2
    let b3 ← writeTermCore maxStringBytes t3
    .ok (7 :: (b1 ++ (b2 ++ b3)))
  | .string units => do
    let text ← writeSizedTextCore units maxStringBytes "String atom"
    .ok (1 :: text)
  | .int n => do
    let bytes ← codecWriteI64Le n
    .ok (2 :: bytes)
  | .float x => .ok (3 :: toBytes 8 (natOfI64 x.toBits))
  | .bool false => .ok [4]
  | .bool true => .ok [5]
  | .keyword units => do
    let text ← writeSizedTextCore units maxStringBytes "Keyword atom"
    .ok (6 :: text)
  | .instant epochSeconds nanos => do
    let seconds ← codecWriteI64Le epochSeconds
    let rest ← codecWriteU32Le nanos
    .ok (8 :: (seconds ++ rest))
  | .other => .error (codecFail "term-codec-unsupported-term" "TermCodecV1 encountered a value outside Term")

/-- (`measure-term-codec-v1!`) The bytes of a value, and its nodes. -/
def measureTermCodecV1 (term : Value) (maxStringBytes maxNodes maxDepth : Nat) : Except Fault TermCodecMeasure := do
  requireCodecLimits maxStringBytes maxNodes maxDepth
  let (bytes, nodes) ← measureValue maxStringBytes maxNodes maxDepth term 0 0
  .ok ⟨bytes, nodes⟩

/-- (`write-term-codec-v1!`) The bytes written. -/
def writeTermCodecV1 (term : Value) (maxStringBytes maxNodes maxDepth : Nat) : Except Fault Bytes := do
  let _ ← measureTermCodecV1 term maxStringBytes maxNodes maxDepth
  writeTermCore maxStringBytes term

/-! ## Frames -/

/-- (`RpcPageRequest`) -/
structure PageRequest where
  limit : Int
  cursor : Option Value

/-- (`RpcPageResponse`) -/
structure PageResponse where
  ordinal : Int
  nextCursor : Option Value
  done : Bool

/-- (`RpcError`) -/
structure Error where
  code : Value
  retryable : Bool
  message : Value
  detail : Option Value

/-- (`RpcRequest`) -/
structure Request where
  space : Value
  op : Value
  expectedVersion : Option Int
  page : Option PageRequest
  timeoutMs : Option Int
  payload : Value

/-- (`RpcResponse`) -/
structure Response where
  space : Value
  op : Value
  servedVersion : Int
  page : Option PageResponse
  error : Option Error
  payload : Option Value

/-- (`RpcFrameV2`) -/
structure Frame where
  kind : Keyword
  flags : Int
  requestId : Int
  request : Option Request
  response : Option Response

/-! ## Validation -/

/-- (`t/term?`) -/
def isTerm : Value → Bool
  | .triple t1 t2 t3 => isTerm t1 && (isTerm t2 && isTerm t3)
  | .other => false
  | _ => true

/-- A check of `rpc-fail!`. -/
def require (holds : Bool) (code message : String) : Except Fault Unit := if holds then .ok () else .error (codecFail code message)

/-- (`require-rpc-term!`) -/
def requireRpcTerm (value : Value) (label : String) : Except Fault Unit :=
  require (isTerm value) "rpc-invalid-term" (label ++ " must be a Term")

/-- (`require-rpc-optional-term!`) -/
def requireRpcOptionalTerm (value : Option Value) (label : String) : Except Fault Unit :=
  require (value.all isTerm) "rpc-invalid-term" (label ++ " must be nil or a Term")

/-- (`require-rpc-string!`) The units of a text. -/
def requireRpcString (value : Value) (label : String) : Except Fault (List UInt16) :=
  match value with
  | .string units => .ok units
  | _ => .error (codecFail "rpc-invalid-field" (label ++ " must be a String"))

/-- (`require-rpc-keyword!`) -/
def requireRpcKeyword (value : Value) (label : String) : Except Fault Unit :=
  match value with
  | .keyword _ => .ok ()
  | _ => .error (codecFail "rpc-invalid-field" (label ++ " must be a Keyword"))

/-- (`require-rpc-u32!`) -/
def requireRpcU32 (value : Int) (label : String) : Except Fault Unit :=
  require (decide (0 ≤ value ∧ value ≤ 4294967295)) "rpc-integer-range" (label ++ " is outside u32")

/-- (`require-rpc-i64!`) -/
def requireRpcI64 (value : Int) (label : String) : Except Fault Unit :=
  require (decide (-9223372036854775808 ≤ value ∧ value ≤ 9223372036854775807)) "rpc-integer-range" (label ++ " is outside i64")

/-- A check of what there is. -/
def whenSome {α : Type} (check : α → Except Fault Unit) : Option α → Except Fault Unit
  | some value => check value
  | none => .ok ()

/-- (`validate-rpc-page-request!`) -/
def validateRpcPageRequest (page : PageRequest) : Except Fault Unit := do
  requireRpcU32 page.limit "page limit"
  requireRpcOptionalTerm page.cursor "page cursor"

/-- (`validate-rpc-page-response!`) -/
def validateRpcPageResponse (page : PageResponse) : Except Fault Unit := do
  requireRpcU32 page.ordinal "page ordinal"
  requireRpcOptionalTerm page.nextCursor "next cursor"

/-- (`validate-rpc-error!`) -/
def validateRpcError (error : Error) : Except Fault Unit := do
  requireRpcKeyword error.code "error code"
  let _ ← requireRpcString error.message "error message"
  requireRpcOptionalTerm error.detail "error detail"

/-- (`validate-rpc-request!`) -/
def validateRpcRequest (request : Request) : Except Fault Unit := do
  let space ← requireRpcString request.space "request space"
  let _ ← utf8LengthUnits rpcV2MaxSpaceBytes "SpaceId" space 0
  requireRpcKeyword request.op "request op"
  whenSome (requireRpcI64 · "expected version") request.expectedVersion
  whenSome validateRpcPageRequest request.page
  whenSome (requireRpcU32 · "timeout-ms") request.timeoutMs
  requireRpcTerm request.payload "request payload"

/-- (`validate-rpc-response!`) -/
def validateRpcResponse (response : Response) : Except Fault Unit := do
  let space ← requireRpcString response.space "response space"
  let _ ← utf8LengthUnits rpcV2MaxSpaceBytes "SpaceId" space 0
  requireRpcKeyword response.op "response op"
  requireRpcI64 response.servedVersion "served version"
  whenSome validateRpcPageResponse response.page
  whenSome validateRpcError response.error
  requireRpcOptionalTerm response.payload "response payload"

/-- (`validate-rpc-frame!`) -/
def validateRpcFrame (frame : Frame) : Except Fault Unit := do
  require (decide (frame.flags = 0)) "rpc-invalid-flags" "FRAMRPC v2 flags must be zero"
  requireRpcI64 frame.requestId "request id"
  if frame.kind = ⟨"request"⟩ then
    match frame.request, frame.response with
    | some request, none => validateRpcRequest request
    | _, _ => .error (codecFail "rpc-invalid-shape" "request frame must carry exactly one RpcRequest")
  else if frame.kind = ⟨"response"⟩ ∨ frame.kind = ⟨"event"⟩ then
    match frame.request, frame.response with
    | none, some response => validateRpcResponse response
    | _, _ => .error (codecFail "rpc-invalid-shape" "response/event frame must carry exactly one RpcResponse")
  else if frame.kind = ⟨"cancel"⟩ then
    match frame.request, frame.response with
    | none, none => .ok ()
    | _, _ => .error (codecFail "rpc-invalid-shape" "cancel frame body must be empty")
  else .error (codecFail "rpc-invalid-kind" "FRAMRPC frame kind is unknown")

/-! ## Measuring -/

/-- (`rpc-add-measured-term!`) The bytes of a term; its nodes are added to those of the frame. -/
def rpcAddMeasuredTerm (term : Value) : Measure := fun nodes =>
  if rpcV2MaxTermNodes ≤ nodes then
    .error (codecFail "rpc-term-node-limit" "FRAMRPC body exceeds the aggregate Term node limit")
  else do
    let measure ← measureTermCodecV1 term rpcV2MaxStringBytes (rpcV2MaxTermNodes - nodes) termCodecV1MaxDepth
    .ok (measure.bytes, nodes + measure.nodes)

/-- The bytes of what there may be. -/
def addIf {α : Type} (measure : α → Measure) : Option α → Measure
  | none => pure 0
  | some value => measure value

/-- (`rpc-page-request-bytes!`) -/
def rpcPageRequestBytes (page : PageRequest) : Measure := do
  let cursor ← addIf rpcAddMeasuredTerm page.cursor
  pure (5 + cursor)

/-- (`rpc-page-response-bytes!`) -/
def rpcPageResponseBytes (page : PageResponse) : Measure := do
  let cursor ← addIf rpcAddMeasuredTerm page.nextCursor
  pure (6 + cursor)

/-- (`rpc-error-bytes!`) -/
def rpcErrorBytes (error : Error) : Measure := do
  let code ← rpcAddMeasuredTerm error.code
  let message ← rpcAddMeasuredTerm error.message
  let detail ← addIf rpcAddMeasuredTerm error.detail
  pure (2 + (code + (message + detail)))

/-- (`rpc-request-body-bytes!`) -/
def rpcRequestBodyBytes (request : Request) : Measure := do
  let space ← rpcAddMeasuredTerm request.space
  let op ← rpcAddMeasuredTerm request.op
  let page ← addIf rpcPageRequestBytes request.page
  let payload ← rpcAddMeasuredTerm request.payload
  pure (3 + (space + (op + ((if request.expectedVersion.isSome then 8 else 0) +
    (page + ((if request.timeoutMs.isSome then 4 else 0) + payload))))))

/-- (`rpc-response-body-bytes!`) -/
def rpcResponseBodyBytes (response : Response) : Measure := do
  let space ← rpcAddMeasuredTerm response.space
  let op ← rpcAddMeasuredTerm response.op
  let page ← addIf rpcPageResponseBytes response.page
  let error ← addIf rpcErrorBytes response.error
  let payload ← addIf rpcAddMeasuredTerm response.payload
  pure (11 + (space + (op + (page + (error + payload)))))

/-- The request of a frame that has its kind. -/
def Frame.asRequest (frame : Frame) : Option Request := if frame.kind = ⟨"request"⟩ then frame.request else none

/-- The response of a frame that has its kind. -/
def Frame.asResponse (frame : Frame) : Option Response :=
  if frame.kind = ⟨"response"⟩ ∨ frame.kind = ⟨"event"⟩ then frame.response else none

/-- The size that `rpc-body-bytes!` finds, before it compares it with the limit. -/
def measuredBody (frame : Frame) : Except Fault Nat := do
  validateRpcFrame frame
  let (size, _) ← (match frame.asRequest, frame.asResponse with
    | some request, _ => rpcRequestBodyBytes request
    | none, some response => rpcResponseBodyBytes response
    | none, none => pure 0) 0
  .ok size

/-- The failure of a frame for its size. -/
def frameTooLarge : Fault := codecFail "rpc-frame-too-large" "FRAMRPC body exceeds the configured byte limit"

/-- (`rpc-body-bytes!`) -/
def rpcBodyBytes (frame : Frame) : Except Fault Nat := do
  let size ← measuredBody frame
  if rpcV2MaxBodyBytes < size then .error frameTooLarge else .ok size

/-! ## Writing -/

/-- (`rpc-write-present!`) -/
def present {α : Type} (value : Option α) : Bytes := [if value.isSome then 1 else 0]

/-- A flag. -/
def flag (value : Bool) : Bytes := [if value then 1 else 0]

/-- (`rpc-write-term!`) -/
def rpcWriteTerm (value : Value) : Except Fault Bytes :=
  writeTermCodecV1 value rpcV2MaxStringBytes rpcV2MaxTermNodes termCodecV1MaxDepth

/-- What is written of what there may be. -/
def writeIf {α : Type} (write : α → Except Fault Bytes) : Option α → Except Fault Bytes
  | none => .ok []
  | some value => write value

/-- (`write-rpc-page-request!`) -/
def writeRpcPageRequest (page : PageRequest) : Except Fault Bytes := do
  let limit ← codecWriteU32Le page.limit
  let cursor ← writeIf rpcWriteTerm page.cursor
  .ok (limit ++ (present page.cursor ++ cursor))

/-- (`write-rpc-page-response!`) -/
def writeRpcPageResponse (page : PageResponse) : Except Fault Bytes := do
  let ordinal ← codecWriteU32Le page.ordinal
  let cursor ← writeIf rpcWriteTerm page.nextCursor
  .ok (ordinal ++ (present page.nextCursor ++ (cursor ++ flag page.done)))

/-- (`write-rpc-error!`) -/
def writeRpcError (error : Error) : Except Fault Bytes := do
  let code ← rpcWriteTerm error.code
  let message ← rpcWriteTerm error.message
  let detail ← writeIf rpcWriteTerm error.detail
  .ok (code ++ (flag error.retryable ++ (message ++ (present error.detail ++ detail))))

/-- (`write-rpc-request!`) -/
def writeRpcRequest (request : Request) : Except Fault Bytes := do
  let space ← rpcWriteTerm request.space
  let op ← rpcWriteTerm request.op
  let expected ← writeIf codecWriteI64Le request.expectedVersion
  let page ← writeIf writeRpcPageRequest request.page
  let timeout ← writeIf codecWriteU32Le request.timeoutMs
  let payload ← rpcWriteTerm request.payload
  .ok (space ++ (op ++ (present request.expectedVersion ++ (expected ++ (present request.page ++ (page ++
    (present request.timeoutMs ++ (timeout ++ payload))))))))

/-- (`write-rpc-response!`) -/
def writeRpcResponse (response : Response) : Except Fault Bytes := do
  let space ← rpcWriteTerm response.space
  let op ← rpcWriteTerm response.op
  let served ← codecWriteI64Le response.servedVersion
  let page ← writeIf writeRpcPageResponse response.page
  let error ← writeIf writeRpcError response.error
  let payload ← writeIf rpcWriteTerm response.payload
  .ok (space ++ (op ++ (served ++ (present response.page ++ (page ++ (present response.error ++ (error ++
    (present response.payload ++ payload))))))))

/-- The writing pass of `encode-rpc-frame-v2!`. -/
def writeBody (frame : Frame) : Except Fault Bytes :=
  match frame.asRequest, frame.asResponse with
  | some request, _ => writeRpcRequest request
  | none, some response => writeRpcResponse response
  | none, none => .ok []

/-- (`rpc-kind-code!`) -/
def rpcKindCode (kind : Keyword) : Except Fault Nat :=
  if kind = ⟨"request"⟩ then .ok 1
  else if kind = ⟨"response"⟩ then .ok 2
  else if kind = ⟨"cancel"⟩ then .ok 3
  else if kind = ⟨"event"⟩ then .ok 4
  else .error (codecFail "rpc-invalid-kind" "FRAMRPC frame kind is unknown")

/-- The failure of a body that has another size than was measured. -/
def sizeMismatch : Fault := codecFail "rpc-size-mismatch" "FRAMRPC preflight size disagrees with encoded body"

/-- (`encode-rpc-frame-v2!`) -/
def encodeRpcFrameV2 (frame : Frame) : Except Fault Bytes := do
  let bodySize ← rpcBodyBytes frame
  let body ← writeBody frame
  if bodySize = body.length then do
    let code ← rpcKindCode frame.kind
    let size ← codecWriteU32Le bodySize
    let id ← codecWriteI64Le frame.requestId
    .ok (rpcV2Magic ++ (toBytes 2 2 ++ (toBytes 2 0 ++ (UInt8.ofNat code :: 0 :: (size ++ (id ++ body))))))
  else .error sizeMismatch

end Fram.Preflight
