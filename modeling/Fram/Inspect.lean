import Fram.Javascript
import Fram.Wire

/-!
# Inspection of request envelopes

`clients/cloudflare-do/src/adapter.mjs`: before a request goes to the engine, its frame is inspected for what the embedder authorises:
the space, the operation and the request id. The rest of the body is left to the engine.
-/

namespace Fram.Worker

open Reader LittleEndian

/-- (`FramRequestError`) -/
structure RequestError where
  code : String
  message : String
  deriving DecidableEq

/-- (`requestFail`) -/
def requestFail {α : Type} (message code : String) : Except RequestError α := .error ⟨code, message⟩

/-- (`FRAMRPC_OPERATIONS`) -/
def FRAMRPC_OPERATIONS : List String :=
  ["rpc/version", "rpc/status", "rpc/validate", "rpc/assert", "rpc/retract", "rpc/batch", "rpc/scan", "rpc/query", "rpc/occurrences",
    "rpc/lease-acquire", "rpc/lease-renew", "rpc/lease-release", "rpc/lease-check", "rpc/checkpoint"]

/-- (`FRAMRPC_HEADER_BYTES`) -/
def FRAMRPC_HEADER_BYTES : Nat := 26

/-- (`FRAMRPC_MAX_BODY_BYTES`) -/
def FRAMRPC_MAX_BODY_BYTES : Nat := 1024 * 1024

/-- (`FRAMRPC_MAX_FRAME_BYTES`) -/
def FRAMRPC_MAX_FRAME_BYTES : Nat := FRAMRPC_HEADER_BYTES + FRAMRPC_MAX_BODY_BYTES

/-- (`FRAMRPC_MAX_SPACE_BYTES`) -/
def FRAMRPC_MAX_SPACE_BYTES : Nat := 4096

/-- (`FRAMRPC_MAGIC`) -/
def FRAMRPC_MAGIC : Bytes := [0x46, 0x52, 0x41, 0x4d, 0x52, 0x50, 0x43, 0x00]

/-! ## Bodies -/

/-- (`RequestReader`) A reader of a body. -/
abbrev RequestReader := Reader.M RequestError UInt8 Unit

/-- (`ensure`) The next bytes; it fails where there are fewer. -/
def takeEnsured (length : Nat) (label : String) : RequestReader Bytes := fun d =>
  if length ≤ d.rest.length then .ok (d.rest.take length, ⟨d.rest.drop length, ()⟩)
  else requestFail ("frame ended inside " ++ label) "request/truncated"

/-- (`u8`) -/
def readerU8 (label : String) : RequestReader Nat := do
  let bytes ← takeEnsured 1 label
  pure (ofBytes bytes)

/-- (`u32`) -/
def readerU32 (label : String) : RequestReader Nat := do
  let bytes ← takeEnsured 4 label
  pure (ofBytes bytes)

/-- (`text`) -/
def readerText (maximum : Nat) (label : String) : RequestReader String := do
  let length ← readerU32 (label ++ " length")
  if maximum < length then fail ⟨"request/string-limit", label ++ " exceeds its UTF-8 byte limit"⟩
  else do
    let bytes ← takeEnsured length label
    match textDecode bytes with
    | some text => pure text
    | none => fail ⟨"request/invalid-utf8", label ++ " is not valid UTF-8"⟩

/-- (`stringTerm`) -/
def stringTerm (label : String) : RequestReader String := do
  let tag ← readerU8 (label ++ " tag")
  if tag ≠ 1 then fail ⟨"request/invalid-record", label ++ " is not a String Term"⟩
  else readerText FRAMRPC_MAX_SPACE_BYTES label

/-- (`keywordTerm`) -/
def keywordTerm (label : String) : RequestReader String := do
  let tag ← readerU8 (label ++ " tag")
  if tag ≠ 6 then fail ⟨"request/invalid-record", label ++ " is not a Keyword Term"⟩
  else do
    let value ← readerText FRAMRPC_MAX_BODY_BYTES label
    if value = "" then fail ⟨"request/invalid-record", label ++ " is empty"⟩ else pure value

/-! ## Frames -/

/-- What an inspection returns. -/
structure Inspected where
  space : String
  operation : String
  requestId : Int
  frameBytes : Nat
  bodyBytes : Nat
  deriving DecidableEq

/-- (`DataView`) The unsigned number in some bytes of a frame. -/
def field (frame : Bytes) (position count : Nat) : Nat := ofBytes ((frame.drop position).take count)

/-- The space and the operation of a body. -/
def inspectBody : RequestReader (String × String) := do
  let space ← stringTerm "SpaceId"
  let operation ← keywordTerm "operation"
  pure (space, operation)

/-- What becomes of the names of a body: the last checks of an inspection. -/
def checkNames (requestId : Int) (frameBytes bodyBytes : Nat) (space operation : String) : Except RequestError Inspected :=
  if space = "" ∨ FRAMRPC_MAX_SPACE_BYTES < (utf8Encode space).length then
    requestFail "SpaceId is empty or too large" "request/invalid-space"
  else if operation ∉ FRAMRPC_OPERATIONS then
    requestFail "operation is outside FRAMRPC v2" "request/unsupported-operation"
  else .ok ⟨space, operation, requestId, frameBytes, bodyBytes⟩

/-- (`inspectFramRpcRequest`) Of a frame of bytes. -/
def inspectFramRpcRequest (frame : Bytes) : Except RequestError Inspected :=
  if frame.length < FRAMRPC_HEADER_BYTES then requestFail "frame ended inside its header" "request/truncated"
  else if FRAMRPC_MAX_FRAME_BYTES < frame.length then requestFail "frame exceeds 1 MiB body limit" "request/frame-too-large"
  else if frame.take 8 ≠ FRAMRPC_MAGIC then requestFail "magic does not match" "request/invalid-magic"
  else
    let major := field frame 8 2
    let minor := field frame 10 2
    let kind := field frame 12 1
    let flags := field frame 13 1
    let bodyBytes := field frame 14 4
    let requestId := i64OfNat (field frame 18 8)
    if major ≠ 2 ∨ minor ≠ 0 then requestFail "protocol version is unsupported" "request/unsupported-version"
    else if kind ≠ 1 then requestFail "frame is not a request" "request/invalid-kind"
    else if flags ≠ 0 then requestFail "flags must be zero" "request/invalid-flags"
    else if FRAMRPC_MAX_BODY_BYTES < bodyBytes then requestFail "body exceeds 1 MiB" "request/frame-too-large"
    else if frame.length ≠ FRAMRPC_HEADER_BYTES + bodyBytes then
      requestFail "body length is inconsistent" "request/truncated"
    else do
      let (names, _) ← inspectBody ⟨frame.drop FRAMRPC_HEADER_BYTES, ()⟩
      checkNames requestId frame.length bodyBytes names.1 names.2

end Fram.Worker
