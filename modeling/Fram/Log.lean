import Fram.Lib.Crc
import Fram.Store
import Fram.Wire

/-!
# The transaction log

`src/fram/log_codec.bgl`: the file of a store. It is a header that names the space, and then one frame a transaction: the length of
its payload, the payload, and the payload's check. Booting reads the frames in order and replays each; a frame that runs past the
end of the file is a torn tail and ends the read.

A replay that fails leaves terms behind in the store it was given, and every caller then throws that store away; here it is
given back as it was.
-/

namespace Fram

open Reader LittleEndian

/-! ## Constants -/

/-- (`framlog-magic`) -/
def framlogMagic : Bytes := [70, 82, 65, 77, 76, 79, 71, 0]

/-- (`framlog-version`) -/
def framlogVersion : Nat := 1

/-- (`framlog-flags`) -/
def framlogFlags : Nat := 0

/-- (`max-codec-count`) -/
def maxCodecCount : Nat := 2147483647

/-- (`max-term-depth`) -/
def maxTermDepth : Nat := 256

/-- (`framlog-stream-max-space-bytes`) -/
def framlogStreamMaxSpaceBytes : Nat := 4096

/-- (`framlog-stream-max-payload-bytes`) -/
def framlogStreamMaxPayloadBytes : Nat := 1048576

/-- (`crc32-polynomial`) -/
def crc32Polynomial : BitVec 32 := 3988292384#32

/-- (`crc32`, and its variants over a range of a source) -/
def crc32 (bytes : Bytes) : Nat := (Crc.checksum crc32Polynomial bytes).toNat

/-- (`u16-le-at`) -/
def u16LeAt (bytes : Bytes) (position : Nat) : Nat := ofBytes ((bytes.drop position).take 2)

/-- (`u32-le-at`) -/
def u32LeAt (bytes : Bytes) (position : Nat) : Nat := ofBytes ((bytes.drop position).take 4)

/-- (`magic-at-start?`) -/
def magicAtStart (bytes : Bytes) : Bool := decide (bytes.take 8 = framlogMagic)

/-- (`encode-header!`) -/
def encodeHeader (spaceId : String) : Except String Bytes :=
  if spaceId.length = 0 then .error "FRAMLOG SpaceId must be nonempty"
  else
    let spaceBytes := utf8Encode spaceId
    if maxCodecCount < spaceBytes.length then
      .error "FRAMLOG header encode failed: FRAMLOG SpaceId exceeds the UTF-8 byte limit"
    else
      match written (do
        appendBytes framlogMagic
        appendBytes (toBytes 2 framlogVersion)
        appendBytes (toBytes 2 framlogFlags)
        appendU32Le spaceBytes.length
        appendBytes spaceBytes) with
      | .ok bytes => .ok bytes
      | .error message => .error ("FRAMLOG header encode failed: " ++ message)

/-! ## Reading a payload -/

/-- (`reset!` of the decoder's nodes) -/
def resetNodes : Read Unit := fun d => .ok ((), ⟨d.rest, 0⟩)

/-- The operation of the parts read at an ordinal. -/
def checkOperation (ordinal actual action : Nat) (proposition : Term) : Read CommitOperation :=
  if actual ≠ ordinal then fail "FRAMLOG operation ordinals are not contiguous"
  else
    match proposition.asTriple with
    | none => fail "FRAMLOG operation proposition is not a Triple"
    | some triple =>
      if action = 1 then pure ⟨.assert, triple⟩
      else if action = 2 then pure ⟨.retract, triple⟩
      else fail "FRAMLOG contains an unknown operation action"

/-- One operation of a payload, at an ordinal. -/
def readOperation (ordinal : Nat) : Read CommitOperation := do
  let actual ← readU32Le "FRAMLOG operation ordinal"
  let action ← readU8 "FRAMLOG operation action"
  resetNodes
  let proposition ← readTermLimited 0 maxCodecCount maxCodecCount maxTermDepth
  checkOperation ordinal actual action proposition

/-- The operations of a payload, from an ordinal on. -/
def readOperations : Nat → Nat → Read (List CommitOperation)
  | 0, _ => pure []
  | left + 1, ordinal => do
    let operation ← readOperation ordinal
    let operations ← readOperations left (ordinal + 1)
    pure (operation :: operations)

/-- The frame of a payload. -/
def readFrame : Read TransactionFrame := do
  let sequence ← readI64Le "FRAMLOG transaction sequence"
  let operationCount ← readU32Le "FRAMLOG operation count"
  if sequence < 0 then fail "FRAMLOG transaction sequence is negative"
  else if operationCount = 0 ∨ maxCodecCount < operationCount then fail "FRAMLOG transaction operation count is invalid"
  else do
    let operations ← readOperations operationCount 0
    pure ⟨sequence, operations⟩

/-- (`decode-frame-payload!`) -/
def decodeFramePayload (payload : Bytes) : Except String TransactionFrame :=
  if payload.length < 12 then .error "FRAMLOG transaction header is truncated"
  else
    match readFrame ⟨payload, 0⟩ with
    | .error message => .error message
    | .ok (frame, d) => if d.rest ≠ [] then .error "FRAMLOG transaction has trailing payload bytes" else .ok frame

/-! ## Replaying a payload -/

/-- (`intern-wire-term!`) The handle of the term read, interned as it is read, below `room` more levels of nesting. The parts of a
triple are handles just interned, so its row is never refused. -/
def internWireTerm (Γ : Host) : Nat → TermStore → Read (TermStore × Int)
  | 0, _ => fail recursiveTermDepthError
  | room + 1, s => do
    countNode maxCodecCount
    let tag ← readU8 "Term tag"
    if tag = 1 then do
      let text ← readSizedText maxCodecCount "String atom"
      pure (internAtom Γ s (.string text))
    else if tag = 2 then do
      let value ← readI64Le "Int atom"
      pure (internAtom Γ s (.int value))
    else if tag = 3 then do
      let bits ← readI64Le "Float atom"
      pure (internAtom Γ s (.float (F64.ofBits bits)))
    else if tag = 4 then pure (internAtom Γ s (.bool false))
    else if tag = 5 then pure (internAtom Γ s (.bool true))
    else if tag = 6 then do
      let spelling ← readSizedText maxCodecCount "Keyword atom"
      if spelling = "" then fail "Keyword atom spelling must be nonempty" else pure (internAtom Γ s (.keyword ⟨spelling⟩))
    else if tag = 7 then do
      let (s, t1) ← internWireTerm Γ room s
      let (s, t2) ← internWireTerm Γ room s
      let (s, t3) ← internWireTerm Γ room s
      match internTripleHandle Γ s t1 t2 t3 with
      | .ok interned => pure interned
      | .error fault => fail fault.message
    else if tag = 8 then do
      let seconds ← readI64Le "Instant atom"
      let nanos ← readU32Le "Instant nanos"
      if h : nanos < 1000000000 then pure (internAtom Γ s (.instant ⟨seconds, nanos, h⟩))
      else fail "Instant nanoseconds are outside the canonical range"
    else fail "TermCodecV1 contains an unknown tag"

/-- The ordinal, the action and the interned proposition of one operation; its errors are those of the walk. -/
def walkOperation (Γ : Host) (s : TermStore) : Read (Nat × Nat × TermStore × Int) := fun d =>
  match (do
    let actual ← readU32Le "FRAMLOG operation ordinal"
    let action ← readU8 "FRAMLOG operation action"
    resetNodes
    let (s, handle) ← internWireTerm Γ (maxTermDepth + 1) s
    pure (actual, action, s, handle) : Read (Nat × Nat × TermStore × Int)) d with
  | .ok walked => .ok walked
  | .error message => .error ("FRAMLOG transaction decode failed: " ++ message)

/-- The actions and the handles of the operations of a payload, from an ordinal on. -/
def walkOperations (Γ : Host) : Nat → Nat → TermStore → List Action → List Int → Read (TermStore × List Action × List Int)
  | 0, _, s, actions, handles => pure (s, actions, handles)
  | left + 1, ordinal, s, actions, handles => do
    let (actual, action, s, handle) ← walkOperation Γ s
    if actual ≠ ordinal then fail "FRAMLOG operation ordinals are not contiguous"
    else if tripleHandleShape handle = false then fail "FRAMLOG operation proposition is not a Triple"
    else if action = 1 then walkOperations Γ left (ordinal + 1) s (actions ++ [.assert]) (handles ++ [handle])
    else if action = 2 then walkOperations Γ left (ordinal + 1) s (actions ++ [.retract]) (handles ++ [handle])
    else fail "FRAMLOG contains an unknown operation action"

/-- The sequence, the actions and the handles of a payload. -/
def walkFrame (Γ : Host) (s : TermStore) : Read (Int × TermStore × List Action × List Int) := do
  let sequence ← readI64Le "FRAMLOG transaction sequence"
  let operationCount ← readU32Le "FRAMLOG operation count"
  if sequence < 0 then fail "FRAMLOG transaction sequence is negative"
  else if operationCount = 0 ∨ maxCodecCount < operationCount then fail "FRAMLOG transaction operation count is invalid"
  else do
    let walked ← walkOperations Γ operationCount 0 s [] []
    pure (sequence, walked)

/-- (`replay-frame-fused!`) Every caller drops the store of a refused walk, so the terms that the walk has interned are not kept. -/
def replayFrameFused (Γ : Host) (s : TermStore) (payload : Bytes) : TermStore × TransactionReplayResult :=
  if payload.length < 12 then
    (s, transactionReplayError "invalid-transaction-frame" "FRAMLOG transaction header is truncated")
  else
    match walkFrame Γ s ⟨payload, 0⟩ with
    | .error message => (s, transactionReplayError "invalid-transaction-frame" message)
    | .ok ((sequence, walked, actions, handles), d) =>
      if d.rest ≠ [] then
        (s, transactionReplayError "invalid-transaction-frame" "FRAMLOG transaction has trailing payload bytes")
      else
        appendReplayedTransaction Γ walked sequence actions handles

/-! ## Booting -/

/-- (`BootStream`) What a boot has read; a failed stream is an error instead. -/
structure BootStream where
  configuredSpaceId : String
  store : Option TermStore
  validLogBytes : Nat
  bootAppend : Bytes

/-- (`start-framlog-stream`) -/
def startFramlogStream (configuredSpaceId : String) : BootStream := ⟨configuredSpaceId, none, 0, []⟩

/-- (`consume-framlog-frames!`) The frames of the bytes from a position on, which are `rest`. Each round takes a frame, so as many
rounds as bytes are enough. -/
def consumeFrames (Γ : Host) : Nat → BootStream → Bytes → Except String BootStream
  | 0, stream, _ => .ok stream
  | fuel + 1, stream, rest =>
    if rest.length < 4 then .ok stream
    else
      let payloadLength := u32LeAt rest 0
      let frameLength := payloadLength + 8
      if framlogStreamMaxPayloadBytes < payloadLength then .error "FRAMLOG frame exceeds the supported byte range"
      else if rest.length < frameLength then .ok stream
      else
        let payload := (rest.drop 4).take payloadLength
        if u32LeAt rest (4 + payloadLength) ≠ crc32 payload then .error "FRAMLOG frame CRC does not match"
        else
          match stream.store with
          | none => .error "FRAMLOG header was not decoded"
          | some root =>
            match replayFrameFused Γ root payload with
            | (replayed, result) =>
              if result.ok then
                consumeFrames Γ fuel
                  ⟨stream.configuredSpaceId, some replayed, stream.validLogBytes + frameLength, []⟩ (rest.drop frameLength)
              else .error (result.message.getD "FRAMLOG transaction sequence does not advance")

/-- (`consume-framlog-frames!`) -/
def consumeFramlogFrames (Γ : Host) (stream : BootStream) (bytes : Bytes) (position : Nat) : Except String BootStream :=
  consumeFrames Γ (bytes.length - position) stream (bytes.drop position)

/-- (`consume-framlog-header!`) -/
def consumeFramlogHeader (Γ : Host) (stream : BootStream) (bytes : Bytes) : Except Fault (Except String BootStream) :=
  if bytes.length = 0 then
    match encodeHeader stream.configuredSpaceId with
    | .ok header => do
      let root ← newTermStore stream.configuredSpaceId
      .ok (.ok ⟨stream.configuredSpaceId, some root, 0, header⟩)
    | .error message => .ok (.error message)
  else if bytes.length < 16 then .ok (.error "FRAMLOG header is truncated")
  else if magicAtStart bytes = false then .ok (.error "FRAMLOG magic does not match")
  else
    let version := u16LeAt bytes 8
    let flags := u16LeAt bytes 10
    let spaceLength := u32LeAt bytes 12
    let headerBytes := 16 + spaceLength
    if version ≠ framlogVersion ∨ flags ≠ framlogFlags then .ok (.error "FRAMLOG version or flags are unsupported")
    else if spaceLength = 0 ∨ framlogStreamMaxSpaceBytes < spaceLength then .ok (.error "FRAMLOG SpaceId length is invalid")
    else if bytes.length < headerBytes then .ok (.error "FRAMLOG header is truncated inside SpaceId")
    else
      match utf8Decode ((bytes.drop 16).take spaceLength) with
      | none => .ok (.error "FRAMLOG SpaceId is not valid UTF-8")
      | some spaceId =>
        if spaceId.length = 0 then .ok (.error "FRAMLOG SpaceId must be nonempty")
        else if stream.configuredSpaceId.length ≠ 0 ∧ stream.configuredSpaceId ≠ spaceId then
          .ok (.error "FRAMLOG belongs to a different SpaceId")
        else do
          let root ← newTermStoreForLog spaceId bytes.length
          .ok (consumeFramlogFrames Γ ⟨stream.configuredSpaceId, some (openFold root), headerBytes, []⟩ bytes headerBytes)

/-! ## Writing a frame -/

/-- (`reset!` of the encoder's nodes) -/
def resetEncoderNodes : Write := fun e => .ok ((), { e with nodes := 0 })

/-- The operations of a payload, from an ordinal on. -/
def appendOperationsBytes : Nat → List CommitOperation → Write
  | _, [] => pure ()
  | ordinal, operation :: operations => do
    appendU32Le ordinal
    appendBytes [match operation.action with
      | .assert => 1
      | .retract => 2]
    resetEncoderNodes
    appendTermLimited maxCodecCount maxCodecCount maxTermDepth operation.proposition.term 0
    appendOperationsBytes (ordinal + 1) operations

/-- (`append-frame-bytes!`) -/
def appendFrameBytes (frame : TransactionFrame) : Except String Bytes :=
  if frame.sequence < 0 ∨ frame.operations.length = 0 then .error "FRAMLOG transaction frame is invalid"
  else
    match written (do
      appendI64Le frame.sequence
      appendU32Le frame.operations.length
      appendOperationsBytes 0 frame.operations) with
    | .error message => .error ("FRAMLOG transaction encode failed: " ++ message)
    | .ok payload =>
      match written (do
        appendU32Le payload.length
        appendBytes payload
        appendU32Le (crc32 payload)) with
      | .error message => .error ("FRAMLOG frame encode failed: " ++ message)
      | .ok bytes => .ok bytes

/-- (`encode-store-append!`) The bytes of the one transaction of a store past a sequence. -/
def encodeStoreAppend (s : TermStore) (lowerExclusive : Int) : Except Fault (Except String Bytes) :=
  let current := currentSequence s
  if lowerExclusive < 0 ∨ current < lowerExclusive then
    .ok (.error "FRAMLOG append lower bound is outside store history")
  else if lowerExclusive = current then .ok (.ok [])
  else if current ≠ lowerExclusive + 1 then .ok (.error "FRAMLOG dispatch produced more than one transaction")
  else do
    match ← transactionFramesBetween s lowerExclusive current with
    | [frame] => .ok (appendFrameBytes frame)
    | _ => .ok (.error "FRAMLOG append did not resolve exactly one transaction")

end Fram
