import Fram.Lib.LittleEndian
import Fram.Lib.Reader
import Fram.Types
import Fram.Utf8

/-!
# The wire codec

`src/fram/native_wire_codec.bgl`: terms, requests and responses as bytes. The decoder and the encoder of the source carry a sticky
first error and keep going; a result with an error is thrown away, so the readers and writers here stop at the first error instead.
The cells of a decoder are what is left before its limit and the count of nodes read; those of an encoder are the bytes written and
the count of nodes written.
-/

namespace Fram

open Reader LittleEndian

/-! ## Limits -/

/-- (`rpc-v2-header-bytes`) -/
def rpcV2HeaderBytes : Nat := 26

/-- (`rpc-v2-max-body-bytes`) -/
def rpcV2MaxBodyBytes : Nat := 1048576

/-- (`rpc-v2-max-frame-bytes`) -/
def rpcV2MaxFrameBytes : Nat := 1048602

/-- (`rpc-v2-max-string-bytes`) -/
def rpcV2MaxStringBytes : Nat := 1048576

/-- (`rpc-v2-max-space-bytes`) -/
def rpcV2MaxSpaceBytes : Nat := 4096

/-- (`rpc-v2-max-term-nodes`) -/
def rpcV2MaxTermNodes : Nat := 65536

/-- (`rpc-v2-magic`) -/
def rpcV2Magic : Bytes := [70, 82, 65, 77, 82, 80, 67, 0]

/-- (`term-codec-v1-max-depth`) -/
def termCodecV1MaxDepth : Nat := 256

/-- (`rpc-v2-max-batch-actions`) The codec's depth less the nine levels around a mutation receipt. -/
def rpcV2MaxBatchActions : Nat := termCodecV1MaxDepth - 9

/-- (`recursive-term-depth-error`) -/
def recursiveTermDepthError : String := "recursive Term exceeds the TermCodecV1 depth bound"

/-- (`term-node-count-error`) -/
def termNodeCountError : String := "TermCodecV1 node count exceeds the configured bound"

/-- (`response-encode-error-code`) The error code of a response that cannot be encoded. -/
def responseEncodeErrorCode (error : String) : Keyword :=
  if error = recursiveTermDepthError then ⟨"term-depth-exceeded"⟩
  else if error = termNodeCountError then ⟨"term-codec-node-limit"⟩
  else ⟨"rpc-frame-too-large"⟩

/-! ## Requests and responses -/

/-- (`RpcPageRequest`) -/
structure RpcPageRequest where
  limit : Nat
  cursor : Option Term
  deriving DecidableEq

/-- (`RpcPageResponse`) -/
structure RpcPageResponse where
  ordinal : Int
  nextCursor : Option Term
  done : Bool
  deriving DecidableEq

/-- (`RpcError`) -/
structure RpcError where
  code : Keyword
  retryable : Bool
  message : String
  detail : Option Term
  deriving DecidableEq

/-- (`RpcRequest`) -/
structure RpcRequest where
  space : String
  op : Keyword
  expectedVersion : Option Int
  page : Option RpcPageRequest
  timeoutMs : Option Nat
  payload : Term
  deriving DecidableEq

/-- (`RpcResponse`) -/
structure RpcResponse where
  space : String
  op : Keyword
  servedVersion : Int
  page : Option RpcPageResponse
  error : Option RpcError
  payload : Option Term
  deriving DecidableEq

/-- (`RpcFrameV2`) -/
structure RpcFrameV2 where
  kind : Keyword
  flags : Int
  requestId : Int
  request : Option RpcRequest
  response : Option RpcResponse
  deriving DecidableEq

/-! ## Numbers -/

/-- The signed number of 64 bits. -/
def i64OfNat (n : Nat) : Int := (BitVec.ofNat 64 n).toInt

/-- The 64 bits of a number, modulo `2 ^ 64`. -/
def natOfI64 (v : Int) : Nat := (BitVec.ofInt 64 v).toNat

/-- (`float-from-bits`) The double of 64 bits; every NaN pattern gives the one NaN. -/
def F64.ofBits (v : Int) : F64 :=
  if h : isNaNBits (BitVec.ofInt 64 v) = true then nan else ⟨BitVec.ofInt 64 v, fun hn => absurd hn h⟩

/-- (`float-to-bits`) -/
def F64.toBits (x : F64) : Int := x.bits.toInt

/-! ## Reading -/

/-- The cells of a decoder: what is left before its limit, and the nodes read. -/
abbrev Decoder := Reader.State UInt8 Nat

/-- A reader of the wire; it fails with the decoder's first error. -/
abbrev Read := Reader.M String UInt8 Nat

/-- The error of a read that runs into the limit. -/
def endedInside (context : String) : String := "FRAMRPC ended inside " ++ context

/-- (`read-u8!`) -/
def readU8 (context : String) : Read Nat := do
  let b ← next (endedInside context)
  pure b.toNat

/-- The unsigned number of the next `k` bytes, least significant first. -/
def readLe (context : String) : Nat → Read Nat
  | 0 => pure 0
  | k + 1 => do
    let b ← readU8 context
    let high ← readLe context k
    pure (b + 256 * high)

/-- (`read-u16-le!`) -/
def readU16Le (context : String) : Read Nat := readLe context 2

/-- (`read-u32-le!`) -/
def readU32Le (context : String) : Read Nat := readLe context 4

/-- (`read-i64-le!`) -/
def readI64Le (context : String) : Read Int := do
  let n ← readLe context 8
  pure (i64OfNat n)

/-- (`read-presence!`, `read-bool!`) -/
def readPresence (context : String) : Read Bool := do
  let value ← readU8 context
  if value = 0 then pure false
  else if value = 1 then pure true
  else fail (context ++ " must be the strict byte 0 or 1")

/-- (`ensure-bytes!`, then `subvec`) The next `k` bytes. -/
def takeBytes (context : String) (k : Nat) : Read Bytes := fun d =>
  if k ≤ d.rest.length then .ok (d.rest.take k, ⟨d.rest.drop k, d.aux⟩) else .error (endedInside context)

/-- (`read-utf8!`) The text of the next `length` bytes. -/
def readUtf8 (length : Nat) (label : String) : Read String := do
  let text ← takeBytes label length
  match utf8Decode text with
  | some s => pure s
  | none => fail (label ++ " is not valid UTF-8")

/-- (`read-sized-text!`) A text after its length. -/
def readSizedText (maximum : Nat) (label : String) : Read String := do
  let length ← readU32Le label
  if maximum < length then fail (label ++ " exceeds the UTF-8 byte limit") else readUtf8 length label

/-- (`decoder-node-limited!`, past its depth check) One more node. -/
def countNode (maxNodes : Nat) : Read Unit := fun d =>
  if maxNodes < d.aux + 1 then .error termNodeCountError else .ok ((), ⟨d.rest, d.aux + 1⟩)

/-- (`read-term-limited!`) A term below `room` more levels of nesting; a term at a depth past the limit has no room. -/
def readTermAt (maxStringBytes maxNodes : Nat) : Nat → Read Term
  | 0 => fail recursiveTermDepthError
  | room + 1 => do
    countNode maxNodes
    let tag ← readU8 "Term tag"
    if tag = 1 then do
      let s ← readSizedText maxStringBytes "String atom"
      pure (.str s)
    else if tag = 2 then do
      let n ← readI64Le "Int atom"
      pure (.int n)
    else if tag = 3 then do
      let bits ← readI64Le "Float atom"
      pure (.atom (.float (F64.ofBits bits)))
    else if tag = 4 then pure (.bool false)
    else if tag = 5 then pure (.bool true)
    else if tag = 6 then do
      let spelling ← readSizedText maxStringBytes "Keyword atom"
      if spelling = "" then fail "Keyword atom spelling must be nonempty" else pure (.kw spelling)
    else if tag = 7 then do
      let t1 ← readTermAt maxStringBytes maxNodes room
      let t2 ← readTermAt maxStringBytes maxNodes room
      let t3 ← readTermAt maxStringBytes maxNodes room
      pure (.triple t1 t2 t3)
    else if tag = 8 then do
      let seconds ← readI64Le "Instant atom"
      let nanos ← readU32Le "Instant nanos"
      if h : nanos < 1000000000 then pure (.atom (.instant ⟨seconds, nanos, h⟩))
      else fail "Instant nanoseconds are outside the canonical range"
    else fail "TermCodecV1 contains an unknown tag"

/-- (`read-term-limited!`) -/
def readTermLimited (depth maxStringBytes maxNodes maxDepth : Nat) : Read Term :=
  readTermAt maxStringBytes maxNodes (maxDepth + 1 - depth)

/-- (`read-term!`) -/
def readTerm (depth : Nat) : Read Term :=
  readTermLimited depth rpcV2MaxStringBytes rpcV2MaxTermNodes termCodecV1MaxDepth

/-- (`read-keyword-term!`) -/
def readKeywordTerm (label : String) : Read Keyword := do
  match ← readTerm 0 with
  | .atom (.keyword k) => pure k
  | _ => fail (label ++ " must be a Keyword Term")

/-- (`read-space-term!`) -/
def readSpaceTerm : Read String := do
  countNode rpcV2MaxTermNodes
  let tag ← readU8 "SpaceId Term tag"
  if tag = 1 then readSizedText rpcV2MaxSpaceBytes "SpaceId" else fail "FRAMRPC SpaceId must be a String Term"

/-- A value after its presence byte. -/
def readOptional {α : Type} (context : String) (read : Read α) : Read (Option α) := do
  if ← readPresence context then some <$> read else pure none

/-- (`read-page-request!`) -/
def readPageRequest : Read RpcPageRequest := do
  let limit ← readU32Le "page limit"
  let cursor ← readOptional "page cursor presence" (readTerm 0)
  pure ⟨limit, cursor⟩

/-- (`read-request-body!`) -/
def readRequestBody : Read RpcRequest := do
  let space ← readSpaceTerm
  let op ← readKeywordTerm "request op"
  let expected ← readOptional "expected-version presence" (readI64Le "expected-version")
  let page ← readOptional "request page presence" readPageRequest
  let timeout ← readOptional "timeout-ms presence" (readU32Le "timeout-ms")
  let payload ← readTerm 0
  pure ⟨space, op, expected, page, timeout, payload⟩

/-- The fields of a frame header after its magic: versions, kind, flags, body length and request id. -/
def readFrameHeader : Read (Nat × Nat × Nat × Nat × Nat × Int) := do
  let major ← readU16Le "major version"
  let minor ← readU16Le "minor version"
  let kind ← readU8 "frame kind"
  let flags ← readU8 "frame flags"
  let bodyLength ← readU32Le "body length"
  let requestId ← readI64Le "request id"
  pure (major, minor, kind, flags, bodyLength, requestId)

/-- (`decode-request-bytes!`) The frame of a request, or the error of the first check that fails. -/
def decodeRequestBytes (bytes : Bytes) : Except String RpcFrameV2 :=
  if rpcV2MaxFrameBytes < bytes.length then .error "FRAMRPC frame exceeds the configured byte limit"
  else if bytes.length < rpcV2HeaderBytes then .error "FRAMRPC frame ended inside its header"
  else if bytes.take 8 ≠ rpcV2Magic then .error "FRAMRPC magic does not match"
  else do
    let ((major, minor, kind, flags, bodyLength, requestId), d) ← readFrameHeader ⟨bytes.drop 8, 0⟩
    if major ≠ 2 ∨ minor ≠ 0 then .error "FRAMRPC major/minor version is unsupported"
    else if kind ≠ 1 then .error "native request decoder accepts only request frames"
    else if flags ≠ 0 then .error "FRAMRPC v2 flags must be zero"
    else if rpcV2MaxBodyBytes < bodyLength then .error "FRAMRPC declared body exceeds the configured byte limit"
    else if d.rest.length < bodyLength then .error "FRAMRPC body is shorter than declared"
    else if bodyLength < d.rest.length then .error "FRAMRPC frame has bytes beyond its declared body"
    else do
      let (request, d') ← readRequestBody d
      if d'.rest ≠ [] then .error "FRAMRPC body decoder left trailing bytes"
      else .ok ⟨⟨"request"⟩, 0, requestId, some request, none⟩

/-! ## Writing -/

/-- The cells of an encoder: the bytes written, and the nodes written. -/
structure Encoder where
  bytes : Bytes
  nodes : Nat

/-- A writer of the wire; it fails with the encoder's first error. -/
abbrev Write := StateT Encoder (Except String) Unit

/-- (`append-bytes!`, and `append-u8!` of a byte) -/
def appendBytes (bytes : Bytes) : Write := fun e => .ok ((), { e with bytes := e.bytes ++ bytes })

/-- A writer's failure. -/
def writeError (message : String) : Write := fun _ => .error message

/-- (`append-u32-le!`) -/
def appendU32Le (value : Int) : Write :=
  if 0 ≤ value ∧ value ≤ 4294967295 then appendBytes (toBytes 4 value.toNat)
  else writeError "FRAMRPC u32 value is out of range"

/-- (`append-i64-le!`) -/
def appendI64Le (value : Int) : Write := appendBytes (toBytes 8 (natOfI64 value))

/-- (`append-presence!`) -/
def appendPresence (present : Bool) : Write := appendBytes [if present then 1 else 0]

/-- (`append-sized-text!`) -/
def appendSizedText (value : String) (maximum : Nat) (label : String) : Write :=
  let bytes := utf8Encode value
  if maximum < bytes.length then writeError (label ++ " exceeds the UTF-8 byte limit")
  else do
    appendU32Le bytes.length
    appendBytes bytes

/-- (`encoder-node-limited!`) One more node at a depth. -/
def encoderNode (depth maxNodes maxDepth : Nat) : Write := fun e =>
  if maxDepth < depth then .error recursiveTermDepthError
  else if maxNodes < e.nodes + 1 then .error termNodeCountError
  else .ok ((), { e with nodes := e.nodes + 1 })

/-- The bytes of an atom after its node is counted. -/
def appendAtom (maxStringBytes : Nat) : Atom → Write
  | .string s => do
    appendBytes [1]
    appendSizedText s maxStringBytes "String atom"
  | .int n => do
    appendBytes [2]
    appendI64Le n
  | .float x => do
    appendBytes [3]
    appendI64Le x.toBits
  | .bool false => appendBytes [4]
  | .bool true => appendBytes [5]
  | .keyword k =>
    if k.spelling = "" then writeError "Keyword atom spelling must be nonempty"
    else do
      appendBytes [6]
      appendSizedText k.spelling maxStringBytes "Keyword atom"
  | .instant i => do
    appendBytes [8]
    appendI64Le i.epochSeconds
    appendU32Le i.nanos

/-- (`append-term-limited!`) -/
def appendTermLimited (maxStringBytes maxNodes maxDepth : Nat) : Term → Nat → Write
  | .atom a, depth => do
    encoderNode depth maxNodes maxDepth
    appendAtom maxStringBytes a
  | .triple t1 t2 t3, depth => do
    encoderNode depth maxNodes maxDepth
    appendBytes [7]
    appendTermLimited maxStringBytes maxNodes maxDepth t1 (depth + 1)
    appendTermLimited maxStringBytes maxNodes maxDepth t2 (depth + 1)
    appendTermLimited maxStringBytes maxNodes maxDepth t3 (depth + 1)

/-- (`append-term!`) -/
def appendTerm (term : Term) (depth : Nat) : Write :=
  appendTermLimited rpcV2MaxStringBytes rpcV2MaxTermNodes termCodecV1MaxDepth term depth

/-- A value after its presence byte. -/
def appendOptional {α : Type} (value : Option α) (append : α → Write) : Write :=
  match value with
  | none => appendPresence false
  | some v => do
    appendPresence true
    append v

/-- (`append-page-response!`) -/
def appendPageResponse (page : RpcPageResponse) : Write := do
  appendU32Le page.ordinal
  appendOptional page.nextCursor (appendTerm · 0)
  appendBytes [if page.done then 1 else 0]

/-- (`append-error!`) -/
def appendError (error : RpcError) : Write := do
  appendTerm (.atom (.keyword error.code)) 0
  appendBytes [if error.retryable then 1 else 0]
  appendTerm (.str error.message) 0
  appendOptional error.detail (appendTerm · 0)

/-- The SpaceId of a response, as a term of its own limit. -/
def appendSpace (space : String) : Write := do
  encoderNode 0 rpcV2MaxTermNodes termCodecV1MaxDepth
  let bytes := utf8Encode space
  if rpcV2MaxSpaceBytes < bytes.length then writeError "SpaceId exceeds the UTF-8 byte limit"
  else do
    appendBytes [1]
    appendU32Le bytes.length
    appendBytes bytes

/-- (`append-response-body!`) -/
def appendResponseBody (response : RpcResponse) : Write := do
  appendSpace response.space
  appendTerm (.atom (.keyword response.op)) 0
  appendI64Le response.servedVersion
  appendOptional response.page appendPageResponse
  appendOptional response.error appendError
  appendOptional response.payload (appendTerm · 0)

/-- What a writer writes. -/
def written (write : Write) : Except String Bytes :=
  match write ⟨[], 0⟩ with
  | .ok (_, e) => .ok e.bytes
  | .error message => .error message

/-- (`finish-response-frame!`) -/
def finishResponseFrame (frame : RpcFrameV2) (body : Bytes) : Except String Bytes :=
  written do
    appendBytes rpcV2Magic
    appendBytes (toBytes 2 2)
    appendBytes (toBytes 2 0)
    appendBytes [2]
    appendBytes [0]
    appendU32Le body.length
    appendI64Le frame.requestId
    appendBytes body

/-- (`encode-response-bytes!`) -/
def encodeResponseBytes (frame : RpcFrameV2) : Except String Bytes :=
  if frame.kind ≠ ⟨"response"⟩ then .error "native response encoder accepts only response frames"
  else if frame.flags ≠ 0 then .error "FRAMRPC v2 flags must be zero"
  else
    match frame.response with
    | none => .error "response frame must carry one RpcResponse"
    | some response =>
      if frame.request.isSome then .error "response frame must not carry RpcRequest"
      else do
        let body ← written (appendResponseBody response)
        if rpcV2MaxBodyBytes < body.length then .error "FRAMRPC body exceeds the configured byte limit"
        else finishResponseFrame frame body

end Fram
