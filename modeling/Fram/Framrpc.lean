import Fram.Wire

/-!
# The wire codec of the JVM

`src/framrpc.bclj`: the terms of `TermCodecV1` as the JVM reads and writes them. A buffer is what is left of its bytes, and a failure
is an exception with its code. A string of the model has no unpaired surrogate, so the failures of those are left out.
-/

namespace Fram.Framrpc

open Reader LittleEndian

/-- (`codec-fail!`) -/
def codecFail (code message : String) : Fault := ⟨⟨code⟩, message⟩

/-- (`require-codec-limits!`) -/
def requireCodecLimits (maxStringBytes maxNodes maxDepth : Nat) : Except Fault Unit :=
  if 0 < maxStringBytes ∧ 0 < maxNodes ∧ 0 < maxDepth ∧ maxDepth ≤ 256 then .ok ()
  else .error (codecFail "term-codec-invalid-limit" "TermCodecV1 limits must be positive and depth at most 256")

/-! ## Writing -/

/-- The bytes of a scalar, by its UTF-16 units. -/
def utf8Width (c : Char) : Nat :=
  if c.val.toNat ≤ 127 then 1
  else if c.val.toNat ≤ 2047 then 2
  else if 65536 ≤ c.val.toNat then 4
  else 3

/-- The bytes of a text past those counted. -/
def utf8LengthFrom (maximum : Nat) (label : String) : List Char → Nat → Except Fault Nat
  | [], total => .ok total
  | c :: cs, total =>
    if maximum < total + utf8Width c then .error (codecFail "term-codec-string-limit" (label ++ " exceeds the UTF-8 byte limit"))
    else utf8LengthFrom maximum label cs (total + utf8Width c)

/-- (`utf8-length!`) -/
def utf8Length (value : String) (maximum : Nat) (label : String) : Except Fault Nat := utf8LengthFrom maximum label value.toList 0

/-- (`strict-utf8-bytes!`) -/
def strictUtf8Bytes (value : String) (maximum : Nat) (label : String) : Except Fault Bytes := do
  let expected ← utf8Length value maximum label
  let bytes := utf8Encode value
  if expected = bytes.length then .ok bytes
  else .error (codecFail "term-codec-invalid-utf8" (label ++ " encoded to an unexpected byte length"))

/-- (`codec-write-u32-le!`) -/
def codecWriteU32Le (value : Int) : Except Fault Bytes :=
  if 0 ≤ value ∧ value ≤ 4294967295 then .ok (toBytes 4 value.toNat)
  else .error (codecFail "term-codec-integer-range" "u32 value is out of range")

/-- (`codec-write-i64-le!`) -/
def codecWriteI64Le (value : Int) : Bytes := toBytes 8 (natOfI64 value)

/-- A measure: the bytes of what is measured, with the nodes counted beside it. -/
abbrev Measure := StateT Nat (Except Fault) Nat

/-- (`codec-node!`) One more node. -/
def codecNode (maximum : Nat) : StateT Nat (Except Fault) Unit := fun nodes =>
  if maximum < nodes + 1 then
    .error (codecFail "term-codec-node-limit" "TermCodecV1 node count exceeds the configured bound")
  else .ok ((), nodes + 1)

/-- The fault of a term that is too deep. -/
def termDepthExceeded : Fault := codecFail "term-depth-exceeded" "recursive Term exceeds the TermCodecV1 depth bound"

/-- The bytes of an atom. -/
def measureAtom (maxStringBytes : Nat) : Atom → Except Fault Nat
  | .string s => do
    let length ← utf8Length s maxStringBytes "String atom"
    .ok (5 + length)
  | .int _ => .ok 9
  | .float _ => .ok 9
  | .bool _ => .ok 1
  | .keyword k =>
    if k.spelling = "" then .error (codecFail "term-codec-invalid-keyword" "Keyword atom spelling must be nonempty")
    else do
      let length ← utf8Length k.spelling maxStringBytes "Keyword atom"
      .ok (5 + length)
  | .instant _ => .ok 13

/-- (`measure-term-core!`) -/
def measureTermCore (maxStringBytes maxNodes maxDepth : Nat) : Term → Nat → Measure
  | .atom a, depth =>
    if maxDepth < depth then fun _ => .error termDepthExceeded
    else do
      codecNode maxNodes
      fun nodes => (measureAtom maxStringBytes a).map (·, nodes)
  | .triple t1 t2 t3, depth =>
    if maxDepth < depth then fun _ => .error termDepthExceeded
    else do
      codecNode maxNodes
      let n1 ← measureTermCore maxStringBytes maxNodes maxDepth t1 (depth + 1)
      let n2 ← measureTermCore maxStringBytes maxNodes maxDepth t2 (depth + 1)
      let n3 ← measureTermCore maxStringBytes maxNodes maxDepth t3 (depth + 1)
      pure (1 + (n1 + (n2 + n3)))

/-- (`TermCodecMeasure`) -/
structure TermCodecMeasure where
  bytes : Nat
  nodes : Nat
  deriving DecidableEq

/-- (`measure-term-codec-v1!`) -/
def measureTermCodecV1 (term : Term) (maxStringBytes maxNodes maxDepth : Nat) : Except Fault TermCodecMeasure := do
  requireCodecLimits maxStringBytes maxNodes maxDepth
  let (bytes, nodes) ← measureTermCore maxStringBytes maxNodes maxDepth term 0 0
  .ok ⟨bytes, nodes⟩

/-- (`write-sized-text-core!`) -/
def writeSizedTextCore (value : String) (maxStringBytes : Nat) (label : String) : Except Fault Bytes := do
  let bytes ← strictUtf8Bytes value maxStringBytes label
  let length ← codecWriteU32Le bytes.length
  .ok (length ++ bytes)

/-- (`write-term-core!`) -/
def writeTermCore (maxStringBytes : Nat) : Term → Except Fault Bytes
  | .triple t1 t2 t3 => do
    let b1 ← writeTermCore maxStringBytes t1
    let b2 ← writeTermCore maxStringBytes t2
    let b3 ← writeTermCore maxStringBytes t3
    .ok (7 :: (b1 ++ (b2 ++ b3)))
  | .atom (.string s) => do
    let text ← writeSizedTextCore s maxStringBytes "String atom"
    .ok (1 :: text)
  | .atom (.int n) => .ok (2 :: codecWriteI64Le n)
  | .atom (.float x) => .ok (3 :: codecWriteI64Le x.toBits)
  | .atom (.bool false) => .ok [4]
  | .atom (.bool true) => .ok [5]
  | .atom (.keyword k) => do
    let text ← writeSizedTextCore k.spelling maxStringBytes "Keyword atom"
    .ok (6 :: text)
  | .atom (.instant i) => do
    let nanos ← codecWriteU32Le i.nanos
    .ok (8 :: (codecWriteI64Le i.epochSeconds ++ nanos))

/-- (`write-term-codec-v1!`) The bytes written, and the nodes of the term. -/
def writeTermCodecV1 (term : Term) (maxStringBytes maxNodes maxDepth : Nat) : Except Fault (Bytes × Nat) := do
  let measure ← measureTermCodecV1 term maxStringBytes maxNodes maxDepth
  let bytes ← writeTermCore maxStringBytes term
  .ok (bytes, measure.nodes)

/-! ## Reading -/

/-- A reader of a buffer; the value beside it counts nodes. -/
abbrev BufferRead := Reader.M Fault UInt8 Nat

/-- (`codec-ensure!`) -/
def codecEnsure (count : Nat) (context : String) : BufferRead Unit := fun d =>
  if d.rest.length < count then .error (codecFail "term-codec-truncated" ("TermCodecV1 ended inside " ++ context)) else .ok ((), d)

/-- The exception of a buffer that has fewer bytes than are taken. -/
def bufferUnderflow : Fault := ⟨⟨"BufferUnderflowException"⟩, ""⟩

/-- (`.get`) The next bytes of a buffer. -/
def getBytes (count : Nat) : BufferRead Bytes := fun d =>
  if count ≤ d.rest.length then .ok (d.rest.take count, ⟨d.rest.drop count, d.aux⟩) else .error bufferUnderflow

/-- (`.getShort`, `.getInt`) The number of the next bytes, unsigned. -/
def getUnsigned (count : Nat) : BufferRead Nat := do
  let bytes ← getBytes count
  pure (ofBytes bytes)

/-- (`.getLong`) -/
def getLong : BufferRead Int := do
  let n ← getUnsigned 8
  pure (i64OfNat n)

/-- (`codec-read-u8!`) -/
def codecReadU8 (context : String) : BufferRead Nat := do
  codecEnsure 1 context
  getUnsigned 1

/-- (`codec-read-u32-le!`) -/
def codecReadU32Le (context : String) : BufferRead Nat := do
  codecEnsure 4 context
  getUnsigned 4

/-- (`strict-utf8-string!`) The decoder reports what is malformed. -/
def strictUtf8String (bytes : Bytes) (label : String) : BufferRead String :=
  match utf8Decode bytes with
  | some s => pure s
  | none => fail (codecFail "term-codec-invalid-utf8" (label ++ " is not valid UTF-8"))

/-- (`read-sized-text-core!`) -/
def readSizedTextCore (maxStringBytes : Nat) (context : String) : BufferRead String := do
  let length ← codecReadU32Le context
  if maxStringBytes < length then fail (codecFail "term-codec-string-limit" (context ++ " exceeds the UTF-8 byte limit"))
  else do
    codecEnsure length context
    let bytes ← getBytes length
    strictUtf8String bytes context

/-- (`codec-node!`) One more node read. -/
def countCodecNode (maximum : Nat) : BufferRead Unit := fun d =>
  (codecNode maximum d.aux).map fun counted => ((), ⟨d.rest, counted.2⟩)

/-- (`decode-term-core!`) A term below `room` more levels of nesting; a term at a depth past the limit has no room. -/
def decodeTermCore (maxStringBytes maxNodes : Nat) : Nat → BufferRead Term
  | 0 => fail termDepthExceeded
  | room + 1 => do
    countCodecNode maxNodes
    let tag ← codecReadU8 "Term tag"
    if tag = 1 then do
      let s ← readSizedTextCore maxStringBytes "String atom"
      pure (.str s)
    else if tag = 2 then do
      codecEnsure 8 "Int atom"
      let n ← getLong
      pure (.int n)
    else if tag = 3 then do
      codecEnsure 8 "Float atom"
      let bits ← getLong
      pure (.atom (.float (F64.ofBits bits)))
    else if tag = 4 then pure (.bool false)
    else if tag = 5 then pure (.bool true)
    else if tag = 6 then do
      let spelling ← readSizedTextCore maxStringBytes "Keyword atom"
      if spelling = "" then fail (codecFail "term-codec-invalid-keyword" "Keyword atom spelling must be nonempty")
      else pure (.kw spelling)
    else if tag = 7 then do
      let t1 ← decodeTermCore maxStringBytes maxNodes room
      let t2 ← decodeTermCore maxStringBytes maxNodes room
      let t3 ← decodeTermCore maxStringBytes maxNodes room
      pure (.triple t1 t2 t3)
    else if tag = 8 then do
      codecEnsure 12 "Instant atom"
      let seconds ← getLong
      let nanos ← codecReadU32Le "Instant nanos"
      if h : nanos < 1000000000 then pure (.atom (.instant ⟨seconds, nanos, h⟩))
      else fail (codecFail "term-codec-invalid-instant" "Instant nanoseconds are outside the canonical range")
    else fail (codecFail "term-codec-bad-tag" "TermCodecV1 contains an unknown tag")

/-- (`decode-term-codec-v1!`) The term of the next bytes, and its nodes. -/
def decodeTermCodecV1 (maxStringBytes maxNodes maxDepth : Nat) : BufferRead (Term × Nat) := fun d => do
  requireCodecLimits maxStringBytes maxNodes maxDepth
  let (term, d') ← decodeTermCore maxStringBytes maxNodes (maxDepth + 1) ⟨d.rest, 0⟩
  .ok ((term, d'.aux), ⟨d'.rest, d.aux⟩)

end Fram.Framrpc
