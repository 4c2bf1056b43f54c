import Fram.Dump
import Fram.Lib.Records
import Fram.Log

/-!
# Reading a log whole

The readers of `src/fram/log_codec.bgl` beside the stream: `boot-framlog!` reads the file of a store at once, and
`boot-framlog-chain!` folds the members of a branch, each of them a file of the same format. The stream itself is fed here in chunks.

A store that is booted whole is checked as a dump is, so a log with a NaN in it throws.
-/

namespace Fram

open Reader LittleEndian

/-- How a boot fails: with a message, or by what is thrown below it. -/
inductive BootFailure where
  | failed (message : String)
  | thrown (fault : Fault)
  deriving DecidableEq

/-- (`BootResult`) -/
structure BootResult where
  store : TermStore
  validLogBytes : Nat
  bootAppend : Bytes

/-- A step that may throw. -/
def throwing {α : Type} : Except Fault α → Except BootFailure α
  | .ok a => .ok a
  | .error fault => .error (.thrown fault)

/-- A step that may fail with a message. -/
def failing {α : Type} : Except String α → Except BootFailure α
  | .ok a => .ok a
  | .error message => .error (.failed message)

/-- (`successful-boot!`) -/
def successfulBoot (root : TermStore) (validLogBytes : Nat) (bootAppend : Bytes) : Except BootFailure BootResult := do
  let store ← throwing (validatedStore (closeFold root))
  .ok ⟨store, validLogBytes, bootAppend⟩

/-! ## One file -/

/-- One frame of `replay-complete-frames!`, of a payload whose check matches. -/
def replayPayload (Γ : Host) (replayed : TermStore × Nat) (payload : Bytes) : Except BootFailure (TermStore × Nat) :=
  match decodeFramePayload payload with
  | .error message => .error (.failed ("FRAMLOG transaction decode failed: " ++ message))
  | .ok frame =>
    if frame.sequence < replayed.1.nextSequence then .error (.failed "FRAMLOG transaction sequence does not advance")
    else do
      let (root, _) ← throwing (replayTransactionLong Γ replayed.1 frame)
      .ok (root, replayed.2 + (payload.length + 8))

/-- (`replay-complete-frames!`) The frames of the bytes after a header. -/
def replayCompleteFrames (Γ : Host) (root : TermStore) (headerBytes : Nat) (bytes : Bytes) : Except BootFailure BootResult := do
  let ((root, validLogBytes), _) ← Records.loop crc32 maxCodecCount (.failed "FRAMLOG frame exceeds the supported byte range")
    (.failed "FRAMLOG frame CRC does not match") (replayPayload Γ) bytes.length (root, headerBytes) bytes
  successfulBoot root validLogBytes []

/-- (`boot-framlog!`) -/
def bootFramlog (Γ : Host) (configuredSpaceId : String) (bytes : Bytes) : Except BootFailure BootResult :=
  if bytes.length = 0 then do
    let header ← failing (encodeHeader configuredSpaceId)
    let root ← throwing (newTermStore configuredSpaceId)
    successfulBoot root 0 header
  else if magicAtStart bytes = false then .error (.failed "FRAMLOG magic does not match")
  else if bytes.length < 16 then .error (.failed "FRAMLOG header is truncated")
  else
    let version := u16LeAt bytes 8
    let flags := u16LeAt bytes 10
    let spaceLength := u32LeAt bytes 12
    if version ≠ framlogVersion ∨ flags ≠ framlogFlags then .error (.failed "FRAMLOG version or flags are unsupported")
    else if spaceLength = 0 ∨ maxCodecCount < spaceLength then .error (.failed "FRAMLOG SpaceId length is invalid")
    else if bytes.length < 16 + spaceLength then .error (.failed "FRAMLOG header is truncated inside SpaceId")
    else
      match utf8Decode ((bytes.drop 16).take spaceLength) with
      | none => .error (.failed "FRAMLOG SpaceId is not valid UTF-8")
      | some spaceId =>
        if spaceId.length = 0 then .error (.failed "FRAMLOG SpaceId must be nonempty")
        else if configuredSpaceId.length ≠ 0 ∧ configuredSpaceId ≠ spaceId then
          .error (.failed "FRAMLOG belongs to a different SpaceId")
        else do
          let root ← throwing (newTermStoreForLog spaceId bytes.length)
          replayCompleteFrames Γ (openFold root) (16 + spaceLength) (bytes.drop (16 + spaceLength))

/-! ## A stream in chunks -/

/-- The frames of chunks that follow the bytes so far, each from where the stream stopped. -/
def consumeChunks (Γ : Host) : BootStream → Bytes → List Bytes → Except String BootStream
  | stream, _, [] => .ok stream
  | stream, bytes, chunk :: chunks => do
    let stream ← consumeFramlogFrames Γ stream (bytes ++ chunk) stream.validLogBytes
    consumeChunks Γ stream (bytes ++ chunk) chunks

/-- A log fed to a stream in chunks, of which the first is read from its header (`consume-framlog-header!`) and the others go on
behind it (`consume-framlog-frames!`). -/
def consumeFramlogChunks (Γ : Host) (stream : BootStream) : List Bytes → Except Fault (Except String BootStream)
  | [] => consumeFramlogHeader Γ stream []
  | first :: chunks => do
    match ← consumeFramlogHeader Γ stream first with
    | .error message => .ok (.error message)
    | .ok stream => .ok (consumeChunks Γ stream first chunks)

/-! ## A branch -/

/-- (`framlog-continuation-flag`) -/
def framlogContinuationFlag : Nat := 2

/-- (`ChainPiece`) A member of a branch, with the sequences that the ref records of it. -/
structure ChainPiece where
  bytes : Bytes
  startSequence : Int
  endSequence : Int
  deriving DecidableEq

/-- (`HeaderFields`) -/
structure HeaderFields where
  spaceId : String
  flags : Nat
  headerBytes : Nat
  deriving DecidableEq

/-- (`decode-framlog-header!`) -/
def decodeFramlogHeader (bytes : Bytes) : Except String HeaderFields :=
  if bytes.length < 16 then .error "FRAMLOG header is truncated"
  else if magicAtStart bytes = false then .error "FRAMLOG magic does not match"
  else
    let version := u16LeAt bytes 8
    let flags := u16LeAt bytes 10
    let spaceLength := u32LeAt bytes 12
    let headerBytes := 16 + spaceLength
    if version ≠ framlogVersion ∨ (flags ≠ framlogFlags ∧ flags ≠ framlogContinuationFlag) then
      .error "FRAMLOG version or flags are unsupported"
    else if spaceLength = 0 ∨ framlogStreamMaxSpaceBytes < spaceLength then .error "FRAMLOG SpaceId length is invalid"
    else if bytes.length < headerBytes then .error "FRAMLOG header is truncated inside SpaceId"
    else
      match utf8Decode ((bytes.drop 16).take spaceLength) with
      | none => .error "FRAMLOG SpaceId is not valid UTF-8"
      | some spaceId =>
        if spaceId.length = 0 then .error "FRAMLOG SpaceId must be nonempty" else .ok ⟨spaceId, flags, headerBytes⟩

/-- What a fold of a member has read: the store, whether no frame is read yet, and the last sequence. -/
abbrev Folding := TermStore × Bool × Int

/-- One frame of `fold-chain-piece!`, of a payload whose check matches. -/
def foldChainFrame (Γ : Host) (startSequence : Int) (folding : Folding) (payload : Bytes) : Except String Folding :=
  let (root, firstFrame, _) := folding
  match decodeFramePayload payload with
  | .error message => .error ("FRAMLOG transaction decode failed: " ++ message)
  | .ok frame =>
    if firstFrame = true ∧ frame.sequence ≠ root.nextSequence then
      .error "FRAMLOG chain member does not continue the previous transaction sequence"
    else if firstFrame = true ∧ 0 < startSequence ∧ frame.sequence ≠ startSequence then
      .error "FRAMLOG segment does not begin at its recorded transaction sequence"
    else
      match replayTransactionResult Γ root frame with
      | (root, result) =>
        if result.ok then .ok (root, false, frame.sequence)
        else .error (result.message.getD "FRAMLOG transaction sequence does not advance")

/-- The end of a member: a segment ends behind a frame, and where the ref says it does. -/
def endOfPiece (startSequence endSequence : Int) (isSealed : Bool) (length : Nat) (folding : Folding) (rest : Bytes) :
    Except String (TermStore × Nat) :=
  let (root, firstFrame, lastSequence) := folding
  if rest.length = 0 then
    if firstFrame = true ∧ 0 < startSequence then
      .error "FRAMLOG segment does not begin at its recorded transaction sequence"
    else if isSealed = true ∧ lastSequence ≠ endSequence then
      .error "FRAMLOG segment does not end at its recorded transaction sequence"
    else .ok (root, length)
  else if isSealed then .error "FRAMLOG segment ends inside a transaction frame"
  else .ok (root, length - rest.length)

/-- (`fold-chain-piece!`) -/
def foldChainPiece (Γ : Host) (root : TermStore) (bytes : Bytes) (headerBytes : Nat) (startSequence endSequence : Int)
    (isSealed : Bool) : Except String (TermStore × Nat) := do
  let (folding, rest) ← Records.loop crc32 framlogStreamMaxPayloadBytes "FRAMLOG frame exceeds the supported byte range"
    "FRAMLOG frame CRC does not match" (foldChainFrame Γ startSequence) bytes.length (root, true, 0) (bytes.drop headerBytes)
  endOfPiece startSequence endSequence isSealed bytes.length folding rest

/-- The members of a branch from an index on, folded in order: all but the last are segments. -/
def foldChain (Γ : Host) : Nat → TermStore → List ChainPiece → ChainPiece → Except BootFailure (TermStore × Nat)
  | index, root, segments, tail => do
    let piece := segments.headD tail
    let header ← failing (decodeFramlogHeader piece.bytes)
    if header.spaceId ≠ root.spaceId then .error (.failed "FRAMLOG belongs to a different SpaceId")
    else if 0 < index ∧ header.flags ≠ framlogContinuationFlag then
      .error (.failed "FRAMLOG chain member after the base segment must carry the continuation flag")
    else do
      let (root, validBytes) ← failing (foldChainPiece Γ root piece.bytes header.headerBytes piece.startSequence piece.endSequence
        (!segments.isEmpty))
      match segments with
      | [] => .ok (root, validBytes)
      | _ :: segments => foldChain Γ (index + 1) root segments tail

/-- (`boot-framlog-chain!`) -/
def bootFramlogChain (Γ : Host) (configuredSpaceId : String) (segments : List ChainPiece) (tail : ChainPiece) :
    Except BootFailure BootResult := do
  let firstHeader ← failing (decodeFramlogHeader (segments.headD tail).bytes)
  if configuredSpaceId.length ≠ 0 ∧ configuredSpaceId ≠ firstHeader.spaceId then
    .error (.failed "FRAMLOG belongs to a different SpaceId")
  else if framlogFlags ≠ firstHeader.flags then
    .error (.failed "FRAMLOG base chain member must not carry the continuation flag")
  else do
    let chainBytes := ((segments ++ [tail]).map (·.bytes.length)).sum
    let root ← throwing (newTermStoreForLog firstHeader.spaceId chainBytes)
    let (root, tailValidBytes) ← foldChain Γ 0 (openFold root) segments tail
    successfulBoot root tailValidBytes []

end Fram
