import Fram.CommitRequest
import Fram.Javascript
import Fram.Lib.Decimal
import Fram.Lib.Hex
import Fram.Lib.Lines

/-!
# The codec of the JavaScript client

`clients/bun/framrpc-core.mjs`: terms as tagged arrays, requests as the client writes them and responses as it reads them. A string is
its UTF-16 units, an integer a number, a `BigInt` or a decimal text, and a double its sixteen hexadecimal digits. An array with another
tag, another arity or another kind of part is refused, and left out here.
-/

namespace Fram.Client

open Database (scalars utf16)
open Reader LittleEndian
open Lines (Text)

/-- (`FramProtocolError`) -/
structure ProtocolError where
  message : String
  code : String
  deriving DecidableEq

/-- (`fail`) -/
def protocolFail {α : Type} (message code : String) : Except ProtocolError α := .error ⟨message, code⟩

/-- (`MAX_BODY_BYTES`) -/
def MAX_BODY_BYTES : Nat := 1024 * 1024

/-- (`HEADER_BYTES`) -/
def HEADER_BYTES : Nat := 26

/-- (`MAX_FRAME_BYTES`) -/
def MAX_FRAME_BYTES : Nat := HEADER_BYTES + MAX_BODY_BYTES

/-- (`MAX_STRING_BYTES`) -/
def MAX_STRING_BYTES : Nat := 1024 * 1024

/-- (`MAX_SPACE_BYTES`) -/
def MAX_SPACE_BYTES : Nat := 4096

/-- (`MAX_TERM_NODES`) -/
def MAX_TERM_NODES : Nat := 65536

/-- (`MAX_TERM_DEPTH`) -/
def MAX_TERM_DEPTH : Nat := 256

/-- (`MAX_PAGE_LIMIT`) -/
def MAX_PAGE_LIMIT : Nat := 4096

/-- (`I64_MIN`) -/
def I64_MIN : Int := -9223372036854775808

/-- (`I64_MAX`) -/
def I64_MAX : Int := 9223372036854775807

/-- (`U32_MAX`) -/
def U32_MAX : Int := 4294967295

/-- (`MAGIC`) -/
def MAGIC : Bytes := [0x46, 0x52, 0x41, 0x4d, 0x52, 0x50, 0x43, 0x00]

/-- (`PAGED_OPERATIONS`) -/
def PAGED_OPERATIONS : List String := ["rpc/scan", "rpc/query", "rpc/occurrences"]

/-! ## Values -/

/-- An integer as a caller writes it. A number that is no safe integer is refused. -/
inductive JsInteger
  | bigint (n : Int)
  | number (n : Int)
  | text (t : Text)

/-- `BigInt(text)` of a decimal text. -/
def bigIntOfText : Text → Int
  | '-' :: digits => -(Decimal.value digits)
  | digits => Decimal.value digits

/-- `BigInt(value)` -/
def JsInteger.toInt : JsInteger → Int
  | .bigint n => n
  | .number n => n
  | .text t => bigIntOfText t

/-- The text is `0`, or digits of which the first is not `0`. -/
def isNatural : Text → Bool
  | ['0'] => true
  | c :: cs => c.isDigit && decide (c ≠ '0') && cs.all Char.isDigit
  | [] => false

/-- (`I64`) The text is a canonical decimal. -/
def isCanonicalDecimal : Text → Bool
  | '-' :: cs => isNatural cs && decide (cs ≠ ['0'])
  | cs => isNatural cs

/-- (`Number.isSafeInteger`) -/
def isSafeInteger (n : Int) : Bool := decide (-9007199254740991 ≤ n) && decide (n ≤ 9007199254740991)

/-- The text of an integer, or the failure that it is none. -/
def integerText (label : String) : JsInteger → Except ProtocolError Text
  | .bigint n => .ok (toString n).toList
  | .number n =>
    if isSafeInteger n then .ok (toString n).toList
    else protocolFail (label ++ " must be a safe integer, bigint, or canonical decimal string") "client/invalid-integer"
  | .text t =>
    if isCanonicalDecimal t then .ok t
    else protocolFail (label ++ " must be a safe integer, bigint, or canonical decimal string") "client/invalid-integer"

/-- (`decimal`) -/
def decimal (value : JsInteger) (label : String) (min max : Int) : Except ProtocolError Text := do
  let text ← integerText label value
  if !isCanonicalDecimal text then protocolFail (label ++ " is not canonical decimal") "client/invalid-integer"
  else if bigIntOfText text < min ∨ max < bigIntOfText text then protocolFail (label ++ " is out of range") "client/integer-range"
  else .ok text

/-- (`integerBigInt`) -/
def integerBigInt (value : JsInteger) (label : String) (min max : Int) : Except ProtocolError Int := do
  let text ← decimal value label min max
  .ok (bigIntOfText text)

/-- (`strictUtf8`) The bytes of a string without an unpaired surrogate. -/
def strictUtf8 (value : List UInt16) (maximum : Nat) (label : String) : Except ProtocolError Bytes :=
  match scalars value with
  | none => protocolFail (label ++ " contains an unpaired UTF-16 surrogate") "client/invalid-utf8"
  | some cs =>
    let bytes := utf8Encode (String.ofList cs)
    if maximum < bytes.length then protocolFail (label ++ " exceeds the UTF-8 byte limit") "client/string-limit" else .ok bytes

/-- (`FLOAT64`) -/
def isFloat64Text (bits : Text) : Bool := decide (bits.length = 16) && bits.all Hex.isDigit

/-- The digits of the canonical NaN. -/
def canonicalNaNText : Text := "7ff8000000000000".toList

/-- (`canonicalFloatBits`) -/
def canonicalFloatBits (bits : Text) : Except ProtocolError Text :=
  if !isFloat64Text bits then protocolFail "float64 bits must be 16 lowercase hex digits" "client/invalid-float"
  else if isNaNBits (BitVec.ofNat 64 (Hex.value bits)) && decide (bits ≠ canonicalNaNText) then
    protocolFail "float64 NaN bits are not canonical" "client/invalid-float"
  else .ok bits

/-- (`floatBits`) -/
def floatBits (value : F64) : Text := if value.isNaN then canonicalNaNText else Hex.digits 16 value.bits.toNat

/-- A term, as a tagged array. -/
inductive JsTerm
  | string (value : List UInt16)
  | integer (value : JsInteger)
  | float64 (bits : Text)
  | boolean (value : Bool)
  | keyword (spelling : List UInt16)
  | instant (seconds nanos : JsInteger)
  | triple (t1 t2 t3 : JsTerm)

/-- The nodes counted, and the deepest level. -/
structure Budget where
  nodes : Nat
  maxDepth : Nat
  deriving DecidableEq

/-- (`keywordTerm`) The check of a keyword. -/
def checkKeyword (value : List UInt16) : Except ProtocolError Unit := do
  let bytes ← strictUtf8 value MAX_STRING_BYTES "Keyword atom"
  if bytes.length = 0 then protocolFail "Keyword atom spelling must be nonempty" "client/invalid-keyword" else .ok ()

/-- The start of a validation: one more node at a depth. -/
def countTerm (depth : Nat) (budget : Budget) : Except ProtocolError Budget :=
  if MAX_TERM_DEPTH < depth then protocolFail "Term exceeds the nesting limit" "client/term-depth"
  else if MAX_TERM_NODES < budget.nodes + 1 then protocolFail "Term exceeds the node limit" "client/term-nodes"
  else .ok ⟨budget.nodes + 1, max budget.maxDepth depth⟩

/-- (`validateTerm`) The budget after it. -/
def validateTerm : JsTerm → Nat → Budget → Except ProtocolError Budget
  | .string value, depth, budget => do
    let budget ← countTerm depth budget
    let _ ← strictUtf8 value MAX_STRING_BYTES "String atom"
    .ok budget
  | .integer value, depth, budget => do
    let budget ← countTerm depth budget
    let _ ← decimal value "integer" I64_MIN I64_MAX
    .ok budget
  | .float64 bits, depth, budget => do
    let budget ← countTerm depth budget
    let _ ← canonicalFloatBits bits
    .ok budget
  | .boolean _, depth, budget => countTerm depth budget
  | .keyword spelling, depth, budget => do
    let budget ← countTerm depth budget
    checkKeyword spelling
    .ok budget
  | .instant seconds nanos, depth, budget => do
    let budget ← countTerm depth budget
    let _ ← decimal seconds "instant seconds" I64_MIN I64_MAX
    let _ ← decimal nanos "instant nanoseconds" 0 999999999
    .ok budget
  | .triple t1 t2 t3, depth, budget => do
    let budget ← countTerm depth budget
    let budget ← validateTerm t1 (depth + 1) budget
    let budget ← validateTerm t2 (depth + 1) budget
    validateTerm t3 (depth + 1) budget

/-- A value that is taken for a term: a tagged array, or a plain value. A number is a safe integer or any other number. -/
inductive JsValue
  | term (t : JsTerm)
  | string (value : List UInt16)
  | bigint (n : Int)
  | integer (n : Int)
  | number (x : F64)
  | boolean (b : Bool)
  | date (millis : Int)

/-- (`integerTerm`) -/
def integerTerm (value : JsInteger) : Except ProtocolError JsTerm := do
  let text ← decimal value "integer" I64_MIN I64_MAX
  .ok (.integer (.text text))

/-- (`instantTerm`) -/
def instantTerm (seconds nanos : JsInteger) : Except ProtocolError JsTerm := do
  let s ← decimal seconds "instant seconds" I64_MIN I64_MAX
  let n ← decimal nanos "instant nanoseconds" 0 999999999
  .ok (.instant (.text s) (.text n))

/-- (`stringTerm`) -/
def stringTerm (value : List UInt16) : Except ProtocolError JsTerm := do
  let _ ← strictUtf8 value MAX_STRING_BYTES "String atom"
  .ok (.string value)

/-- (`keywordTerm`) -/
def keywordTerm (value : List UInt16) : Except ProtocolError JsTerm := do
  checkKeyword value
  .ok (.keyword value)

/-- The whole seconds of a time in milliseconds: division of a `BigInt` goes towards zero. -/
def dateSeconds (millis : Int) : Int := if 0 ≤ millis then millis.tdiv 1000 else (millis - 999).tdiv 1000

/-- (`term`) -/
def term : JsValue → Except ProtocolError JsTerm
  | .term t => do
    let _ ← validateTerm t 0 ⟨0, 0⟩
    .ok t
  | .string value => stringTerm value
  | .bigint n => integerTerm (.bigint n)
  | .integer n => integerTerm (.number n)
  | .number x => .ok (.float64 (floatBits x))
  | .boolean b => .ok (.boolean b)
  | .date millis => instantTerm (.bigint (dateSeconds millis)) (.bigint ((millis - dateSeconds millis * 1000) * 1000000))

/-! ## Writing -/

/-- (`writeText`) -/
def writeText (value : List UInt16) (maximum : Nat) (label : String) : Except ProtocolError Bytes := do
  let bytes ← strictUtf8 value maximum label
  .ok (toBytes 4 bytes.length ++ bytes)

/-- (`writeTermUnchecked`) -/
def writeTermUnchecked : JsTerm → Except ProtocolError Bytes
  | .string value => do
    let text ← writeText value MAX_STRING_BYTES "String atom"
    .ok (1 :: text)
  | .integer value => .ok (2 :: toBytes 8 (natOfI64 value.toInt))
  | .float64 bits => .ok (3 :: toBytes 8 (Hex.value bits))
  | .boolean value => .ok [if value then 5 else 4]
  | .keyword spelling => do
    let text ← writeText spelling MAX_STRING_BYTES "Keyword atom"
    .ok (6 :: text)
  | .triple t1 t2 t3 => do
    let b1 ← writeTermUnchecked t1
    let b2 ← writeTermUnchecked t2
    let b3 ← writeTermUnchecked t3
    .ok (7 :: (b1 ++ (b2 ++ b3)))
  | .instant seconds nanos => .ok (8 :: (toBytes 8 (natOfI64 seconds.toInt) ++ toBytes 4 (nanos.toInt % 4294967296).toNat))

/-- (`writeTerm`) The bytes of a term, and the budget after it. -/
def writeTerm (value : JsTerm) (budget : Budget) : Except ProtocolError (Bytes × Budget) := do
  let budget ← validateTerm value 0 budget
  let bytes ← writeTermUnchecked value
  .ok (bytes, budget)

/-- A page that a caller asks for. -/
structure PageOptions where
  limit : JsInteger
  cursor : Option JsValue

/-- The options of a request. -/
structure RequestOptions where
  expectedVersion : Option JsInteger
  page : Option PageOptions
  timeoutMs : Option JsInteger

/-- What (`pageRequest`) returns. -/
structure PageControls where
  limit : Nat
  cursor : Option JsTerm

/-- (`pageRequest`) -/
def pageRequest (page : PageOptions) : Except ProtocolError PageControls := do
  let limit ← integerBigInt page.limit "page.limit" 1 MAX_PAGE_LIMIT
  let cursor ← page.cursor.mapM term
  .ok ⟨limit.toNat, cursor⟩

/-- What (`requestControls`) returns. -/
structure RequestControls where
  expectedVersion : Option Int
  page : Option PageControls
  timeoutMs : Option Nat

/-- (`requestControls`) -/
def requestControls (operation : String) (options : RequestOptions) : Except ProtocolError RequestControls := do
  let expectedVersion ← options.expectedVersion.mapM fun v => integerBigInt v "expectedVersion" 0 I64_MAX
  let page ← options.page.mapM pageRequest
  let timeoutMs ← options.timeoutMs.mapM fun v => integerBigInt v "timeoutMs" 0 U32_MAX
  if page.isSome && decide (operation ∉ PAGED_OPERATIONS) then
    protocolFail (operation ++ " does not accept pagination") "client/unexpected-page"
  else if timeoutMs.isSome && decide (operation ≠ "rpc/query") then
    protocolFail (operation ++ " does not accept timeoutMs") "client/unexpected-timeout"
  else .ok ⟨expectedVersion, page, timeoutMs.map Int.toNat⟩

/-- What (`encodeRequest`) returns. -/
structure EncodedRequest where
  frame : Bytes
  bodyBytes : Nat
  termCount : Nat
  maxTermDepth : Nat
  deriving DecidableEq

/-- (`writePresence`, then the value where there is one) -/
def writeOptional {α : Type} (value : Option α) (bytes : α → Bytes) : Bytes :=
  match value with
  | none => [0]
  | some v => 1 :: bytes v

/-- The cursor of a page, where there is one. -/
def writeCursor (cursor : Option JsTerm) (budget : Budget) : Except ProtocolError (Bytes × Budget) :=
  match cursor with
  | none => .ok ([0], budget)
  | some cursor => do
    let (bytes, budget) ← writeTerm cursor budget
    .ok (1 :: bytes, budget)

/-- The page of a request, where there is one. -/
def writePage (page : Option PageControls) (budget : Budget) : Except ProtocolError (Bytes × Budget) :=
  match page with
  | none => .ok ([0], budget)
  | some page => do
    let (cursor, budget) ← writeCursor page.cursor budget
    .ok (1 :: (toBytes 4 page.limit ++ cursor), budget)

/-- The bytes of a request around its body. -/
def finishRequest (requestId : Int) (body : Bytes) : Bytes :=
  MAGIC ++ (toBytes 2 2 ++ (toBytes 2 0 ++ (1 :: 0 :: (toBytes 4 body.length ++ (toBytes 8 (natOfI64 requestId) ++ body)))))

/-- (`encodeRequest`) -/
def encodeRequest (requestId : Int) (space : List UInt16) (operation : String) (payload : JsValue) (options : RequestOptions)
    (operations : List String) : Except ProtocolError EncodedRequest :=
  if space = [] then protocolFail "space must be a nonempty string" "client/invalid-space"
  else do
    let _ ← strictUtf8 space MAX_SPACE_BYTES "SpaceId"
    if operation ∉ operations then protocolFail (operation ++ " is outside this FRAMRPC surface") "client/unsupported-operation"
    else do
      let controls ← requestControls operation options
      let spaceTerm ← stringTerm space
      let (b1, budget) ← writeTerm spaceTerm ⟨0, 0⟩
      let operationTerm ← keywordTerm (utf16 operation)
      let (b2, budget) ← writeTerm operationTerm budget
      let b3 := writeOptional controls.expectedVersion fun version => toBytes 8 (natOfI64 version)
      let (b4, budget) ← writePage controls.page budget
      let b5 := writeOptional controls.timeoutMs (toBytes 4)
      let payloadTerm ← term payload
      let (b6, budget) ← writeTerm payloadTerm budget
      let body := b1 ++ (b2 ++ (b3 ++ (b4 ++ (b5 ++ b6))))
      if MAX_BODY_BYTES < body.length then protocolFail "request body exceeds 1 MiB" "client/frame-too-large"
      else .ok ⟨finishRequest requestId body, body.length, budget.nodes, budget.maxDepth⟩

/-! ## Reading -/

/-- (`Reader`) A reader of a body; the value beside it counts nodes. -/
abbrev ClientRead := Reader.M ProtocolError UInt8 Nat

/-- (`ensure`) The next bytes; it fails where there are fewer. -/
def takeEnsured (count : Nat) (context : String) : ClientRead Bytes := fun d =>
  if count ≤ d.rest.length then .ok (d.rest.take count, ⟨d.rest.drop count, d.aux⟩)
  else protocolFail ("frame ended inside " ++ context) "client/truncated"

/-- (`u8`, `u32`, `u64`) The unsigned number of the next bytes. -/
def readUnsigned (count : Nat) (context : String) : ClientRead Nat := do
  let bytes ← takeEnsured count context
  pure (ofBytes bytes)

/-- (`i64`) -/
def readI64 (context : String) : ClientRead Int := do
  let n ← readUnsigned 8 context
  pure (i64OfNat n)

/-- A failure while reading. -/
def readFail {α : Type} (message code : String) : ClientRead α := fail ⟨message, code⟩

/-- (`presence`, `bool`) A strict byte; the two differ in the code of their failure. -/
def readFlag (context code : String) : ClientRead Bool := do
  let value ← readUnsigned 1 context
  if value ≠ 0 ∧ value ≠ 1 then readFail (context ++ " must be 0 or 1") code else pure (decide (value = 1))

/-- (`presence`) -/
def presence (context : String) : ClientRead Bool := readFlag context "client/invalid-presence"

/-- (`bool`) -/
def bool (context : String) : ClientRead Bool := readFlag context "client/invalid-boolean"

/-- (`text`) -/
def readText (maximum : Nat) (context : String) : ClientRead (List UInt16) := do
  let length ← readUnsigned 4 (context ++ " length")
  if maximum < length then readFail (context ++ " exceeds the UTF-8 byte limit") "client/string-limit"
  else do
    let bytes ← takeEnsured length context
    match textDecode bytes with
    | some text => pure (utf16 text)
    | none => readFail (context ++ " is not valid UTF-8") "client/invalid-utf8"

/-- One more node. -/
def countNode : ClientRead Unit := fun d =>
  if MAX_TERM_NODES < d.aux + 1 then protocolFail "Term exceeds the node limit" "client/term-nodes" else .ok ((), ⟨d.rest, d.aux + 1⟩)

/-- The double of some bits: a NaN that is not the canonical one is refused where its value is asked for. -/
def floatTerm (n : Nat) : ClientRead JsTerm :=
  match canonicalFloatBits (Hex.digits 16 n) with
  | .error fault => fail fault
  | .ok bits => pure (.float64 (if isNaNBits (BitVec.ofNat 64 n) then canonicalNaNText else bits))

/-- (`Reader.term`) A term below `room` more levels of nesting. -/
def readTermAt : Nat → ClientRead JsTerm
  | 0 => readFail "Term exceeds the nesting limit" "client/term-depth"
  | room + 1 => do
    countNode
    let tag ← readUnsigned 1 "Term tag"
    if tag = 1 then do
      let text ← readText MAX_STRING_BYTES "String atom"
      pure (.string text)
    else if tag = 2 then do
      let n ← readI64 "Int atom"
      pure (.integer (.text (toString n).toList))
    else if tag = 3 then do
      let bits ← readUnsigned 8 "Float atom"
      floatTerm bits
    else if tag = 4 then pure (.boolean false)
    else if tag = 5 then pure (.boolean true)
    else if tag = 6 then do
      let spelling ← readText MAX_STRING_BYTES "Keyword atom"
      if spelling = [] then readFail "Keyword atom spelling must be nonempty" "client/invalid-keyword" else pure (.keyword spelling)
    else if tag = 7 then do
      let t1 ← readTermAt room
      let t2 ← readTermAt room
      let t3 ← readTermAt room
      pure (.triple t1 t2 t3)
    else if tag = 8 then do
      let seconds ← readI64 "Instant seconds"
      let nanos ← readUnsigned 4 "Instant nanos"
      if 1000000000 ≤ nanos then readFail "Instant nanoseconds are outside the canonical range" "client/invalid-instant"
      else pure (.instant (.text (toString seconds).toList) (.text (toString (nanos : Int)).toList))
    else readFail ("unknown Term tag " ++ toString tag) "client/bad-term-tag"

/-- (`Reader.term`) -/
def readTerm : ClientRead JsTerm := readTermAt (MAX_TERM_DEPTH + 1)

/-- A value after its presence byte. -/
def readOptional {α : Type} (context : String) (read : ClientRead α) : ClientRead (Option α) := do
  if ← presence context then some <$> read else pure none

/-- (`keywordName`) -/
def keywordName (value : JsTerm) (label : String) : ClientRead (List UInt16) :=
  match value with
  | .keyword spelling => pure spelling
  | _ => readFail (label ++ " must be a Keyword Term") "client/invalid-record"

/-- (`stringValue`) -/
def stringValue (value : JsTerm) (label : String) : ClientRead (List UInt16) :=
  match value with
  | .string text => pure text
  | _ => readFail (label ++ " must be a String Term") "client/invalid-record"

/-- A page of a response. -/
structure JsPage where
  ordinal : Nat
  nextCursor : Option JsTerm
  done : Bool

/-- An error of a response. -/
structure JsError where
  code : List UInt16
  retryable : Bool
  message : List UInt16
  detail : Option JsTerm

/-- What (`decodeResponseFrame`) returns. -/
structure JsResponse where
  space : List UInt16
  operation : List UInt16
  servedVersion : Int
  page : Option JsPage
  error : Option JsError
  payload : Option JsTerm

/-- (`responsePage`) -/
def responsePage : ClientRead JsPage := do
  let ordinal ← readUnsigned 4 "page ordinal"
  let nextCursor ← readOptional "next cursor presence" readTerm
  let done ← bool "page done"
  pure ⟨ordinal, nextCursor, done⟩

/-- (`responseError`) -/
def responseError : ClientRead JsError := do
  let codeTerm ← readTerm
  let code ← keywordName codeTerm "error code"
  let retryable ← bool "error retryable"
  let messageTerm ← readTerm
  let message ← stringValue messageTerm "error message"
  let detail ← readOptional "error detail presence" readTerm
  pure ⟨code, retryable, message, detail⟩

/-- The body of a response. -/
def readResponse : ClientRead JsResponse := do
  let spaceTerm ← readTerm
  let space ← stringValue spaceTerm "response space"
  let operationTerm ← readTerm
  let operation ← keywordName operationTerm "response operation"
  let servedVersion ← readI64 "served version"
  let page ← readOptional "response page presence" responsePage
  let error ← readOptional "response error presence" responseError
  let payload ← readOptional "response payload presence" readTerm
  pure ⟨space, operation, servedVersion, page, error, payload⟩

/-- What a response is expected to answer. -/
structure Expected where
  requestId : Int
  space : List UInt16
  operation : List UInt16

/-- (`DataView`) The unsigned number in some bytes of a frame. -/
def field (frame : Bytes) (position count : Nat) : Nat := ofBytes ((frame.drop position).take count)

/-- The last checks of a response. -/
def checkResponse (expected : Expected) (response : JsResponse) (rest : Bytes) : Except ProtocolError JsResponse :=
  if rest ≠ [] then protocolFail "response body has trailing bytes" "client/trailing-bytes"
  else if response.space ≠ expected.space ∨ response.operation ≠ expected.operation then
    protocolFail "response identity does not match the request" "client/identity-mismatch"
  else .ok response

/-- (`decodeResponseFrame`) -/
def decodeResponseFrame (frame : Bytes) (expected : Expected) : Except ProtocolError JsResponse :=
  if frame.length < HEADER_BYTES then protocolFail "response ended inside its header" "client/truncated"
  else if MAX_FRAME_BYTES < frame.length then protocolFail "response exceeds the frame limit" "client/frame-too-large"
  else if frame.take 8 ≠ MAGIC then protocolFail "response magic does not match" "client/invalid-magic"
  else if field frame 8 2 ≠ 2 ∨ field frame 10 2 ≠ 0 then
    protocolFail "response protocol version is unsupported" "client/unsupported-version"
  else if field frame 12 1 ≠ 2 then protocolFail "request expected a response frame" "client/invalid-kind"
  else if field frame 13 1 ≠ 0 then protocolFail "response flags must be zero" "client/invalid-flags"
  else if MAX_BODY_BYTES < field frame 14 4 then protocolFail "response body exceeds 1 MiB" "client/frame-too-large"
  else if frame.length ≠ HEADER_BYTES + field frame 14 4 then
    protocolFail "response body length is inconsistent" "client/truncated"
  else if i64OfNat (field frame 18 8) ≠ expected.requestId then
    protocolFail "response request id does not match" "client/identity-mismatch"
  else do
    let (response, d) ← readResponse ⟨frame.drop HEADER_BYTES, 0⟩
    checkResponse expected response d.rest

end Fram.Client
