import Fram.Dump
import Fram.Log

/-!
# Snapshots

`src/fram/snapshot_codec.bgl`: an image of a store's rows beside the log, and the plan of a boot that has one. Every record of an
image is its length, its payload and the payload's check. An image is installed only when all of it is read and its last record,
the sidecar, agrees with the log; anything else is a reason to fold the whole log.
-/

namespace Fram

open Reader LittleEndian

/-! ## Constants -/

/-- (`snapshot-magic`) "fram-snapshot/v1". -/
def snapshotMagic : Bytes := [102, 114, 97, 109, 45, 115, 110, 97, 112, 115, 104, 111, 116, 47, 118, 49]

/-- (`snapshot-codec-version`) -/
def snapshotCodecVersion : Nat := 1

/-- (`snapshot-flags`) -/
def snapshotFlags : Nat := 0

/-- (`snapshot-max-text-bytes`) -/
def snapshotMaxTextBytes : Nat := 1048576

/-- (`snapshot-max-record-bytes`) -/
def snapshotMaxRecordBytes : Nat := 1048576

/-- (`snapshot-max-log-labels`) -/
def snapshotMaxLogLabels : Nat := 64

/-- (`snapshot-header-fixed-bytes`) -/
def snapshotHeaderFixedBytes : Nat := 28

/-- (`Sidecar`) The last record of an image: the history and the log bytes it accounts for, and what it claims of itself. -/
structure Sidecar where
  sequence : Int
  watermark : Int
  logSet : List String
  imageStart : Int
  imageEnd : Int
  stamp : Int
  fingerprint : Nat
  deriving DecidableEq

/-- (`Image`) -/
structure Image where
  spaceId : String
  nextSequence : Int
  atoms : List Atom
  triples : List TripleRow
  transactions : List TransactionRow
  operations : List OperationRow
  sidecar : Option Sidecar
  deriving DecidableEq

/-! ## Writing -/

/-- How many bytes are written. -/
def bytesWritten : StateT Encoder (Except String) Nat := fun e => .ok (e.bytes.length, e)

/-- (`frame-record!`) A record whose payload is staged. -/
def frameRecord (payload : Write) : Write :=
  match written payload with
  | .error message => writeError message
  | .ok bytes => do
    appendU32Le bytes.length
    appendBytes bytes
    appendU32Le (crc32 bytes)

/-- (`finish-record!`) -/
def finishRecord (start payloadBytes : Nat) : Write := fun e =>
  if payloadBytes ≠ e.bytes.length - start then .error "snapshot record wrote a payload of an undeclared length"
  else appendU32Le (crc32 (e.bytes.drop start)) e

/-- (`start-record!`, the payload, then `finish-record!`) A record that declares its length and is written in place. -/
def appendRecord (payloadBytes : Nat) (payload : Write) : Write := do
  appendU32Le payloadBytes
  let start ← bytesWritten
  payload
  finishRecord start payloadBytes

/-- (`append-text-atom-record!`) -/
def appendTextAtomRecord (atomKind : UInt8) (text label : String) : Write :=
  let bytes := utf8Encode text
  if snapshotMaxTextBytes < bytes.length then writeError (label ++ " exceeds the UTF-8 byte limit")
  else appendRecord (6 + bytes.length) do
    appendBytes [1, atomKind]
    appendU32Le bytes.length
    appendBytes bytes

/-- (`append-atom-record!`) -/
def appendAtomRecord : Atom → Write
  | .string s => appendTextAtomRecord 1 s "snapshot string atom"
  | .int n => appendRecord 10 do
    appendBytes [1, 2]
    appendI64Le n
  | .float x => appendRecord 10 do
    appendBytes [1, 3]
    appendI64Le x.toBits
  | .bool b => appendRecord 3 (appendBytes [1, 4, if b then 1 else 0])
  | .keyword k => appendTextAtomRecord 5 k.spelling "snapshot keyword atom"
  | .instant i => appendRecord 14 do
    appendBytes [1, 6]
    appendI64Le i.epochSeconds
    appendU32Le i.nanos

/-- (`append-triple-record!`) -/
def appendTripleRecord (row : TripleRow) : Write :=
  appendRecord 25 do
    appendBytes [2]
    appendI64Le row.t1
    appendI64Le row.t2
    appendI64Le row.t3

/-- (`append-transaction-record!`) -/
def appendTransactionRecord (row : TransactionRow) : Write :=
  appendRecord 25 do
    appendBytes [3]
    appendI64Le row.sequence
    appendI64Le row.firstOperation
    appendI64Le row.operationCount

/-- (`append-operation-record!`) -/
def appendOperationRecord (row : OperationRow) : Write :=
  appendRecord 26 do
    appendBytes [4]
    appendI64Le row.txSequence
    appendI64Le row.ordinal
    appendBytes [match row.action with
      | .assert => 1
      | .retract => 2]
    appendI64Le row.tripleHandle

/-- (`append-trailer-record!`) -/
def appendTrailerRecord (sidecar : Sidecar) : Write :=
  frameRecord do
    appendBytes [5]
    appendI64Le sidecar.sequence
    appendI64Le sidecar.watermark
    appendU32Le sidecar.logSet.length
    sidecar.logSet.forM fun label => appendSizedText label snapshotMaxTextBytes "snapshot log label"
    appendI64Le sidecar.imageStart
    appendI64Le sidecar.imageEnd
    appendI64Le sidecar.stamp
    appendU32Le sidecar.fingerprint

/-- (`append-atom-records!`, `append-triple-records!`, `append-transaction-records!`, `append-operation-records!`) -/
def appendRowRecords (dump : TermStoreDump) : Write := do
  dump.atoms.forM appendAtomRecord
  dump.triples.forM appendTripleRecord
  dump.transactions.forM appendTransactionRecord
  dump.operations.forM appendOperationRecord

/-- The bytes of an image before its rows. -/
def appendSnapshotHeader (dump : TermStoreDump) : Write :=
  let spaceBytes := utf8Encode dump.spaceId
  if snapshotMaxTextBytes < spaceBytes.length then writeError "snapshot SpaceId exceeds the UTF-8 byte limit"
  else do
    appendBytes snapshotMagic
    appendBytes (toBytes 2 snapshotCodecVersion)
    appendBytes (toBytes 2 snapshotFlags)
    appendU32Le spaceBytes.length
    appendBytes spaceBytes
    appendI64Le dump.nextSequence

/-- The bytes of an image, and the check of its rows. -/
def appendSnapshot (dump : TermStoreDump) (snapshotSequence watermark stamp : Int) : StateT Encoder (Except String) Nat := do
  appendSnapshotHeader dump
  let imageStart ← bytesWritten
  appendRowRecords dump
  let imageEnd ← bytesWritten
  let written ← get
  let fingerprint := crc32 (written.bytes.drop imageStart)
  appendTrailerRecord ⟨snapshotSequence, watermark, [dump.spaceId], imageStart, imageEnd, stamp, fingerprint⟩
  pure fingerprint

/-- (`BytesResult`) An image and the check of its rows. -/
structure SnapshotBytes where
  bytes : Bytes
  fingerprint : Nat
  deriving DecidableEq

/-- (`encode-snapshot!`) The image of a store whose log has `watermark` bytes. -/
def encodeSnapshot (s : TermStore) (snapshotSequence watermark stamp : Int) : Except String SnapshotBytes :=
  let dump := dumpTermStore s
  if dump.spaceId.length = 0 then .error "snapshot SpaceId must be nonempty"
  else if snapshotSequence < 0 ∨ watermark < 0 then .error "snapshot sequence and watermark must be non-negative"
  else
    match appendSnapshot dump snapshotSequence watermark stamp ⟨[], 0⟩ with
    | .error message => .error ("snapshot encode failed: " ++ message)
    | .ok (fingerprint, e) => .ok ⟨e.bytes, fingerprint⟩

/-! ## Reading -/

/-- (`RecordResult`) The content of a record. -/
inductive Record where
  | atom (row : Atom)
  | triple (row : TripleRow)
  | transaction (row : TransactionRow)
  | operation (row : OperationRow)
  | trailer (sidecar : Sidecar)
  deriving DecidableEq

/-- A read whose failure leaves a value that a later check refuses with a message of its own. -/
def orError {α : Type} (message : String) (read : Read α) : Read α := fun d =>
  match read d with
  | .ok r => .ok r
  | .error _ => .error message

/-- (`decode-atom-record!`) -/
def decodeAtomRecord : Read Record := do
  let kind ← orError "snapshot atom record has an unknown kind" (readU8 "snapshot atom kind")
  if kind = 1 then do
    let value ← readSizedText snapshotMaxTextBytes "snapshot string atom"
    pure (.atom (.string value))
  else if kind = 2 then do
    let value ← readI64Le "snapshot int atom"
    pure (.atom (.int value))
  else if kind = 3 then do
    let bits ← readI64Le "snapshot float atom"
    pure (.atom (.float (F64.ofBits bits)))
  else if kind = 4 then do
    let value ← readU8 "snapshot bool atom"
    if 1 < value then fail "snapshot bool atom is outside its range" else pure (.atom (.bool (decide (value = 1))))
  else if kind = 5 then do
    let spelling ← orError "snapshot keyword atom spelling must be nonempty"
      (readSizedText snapshotMaxTextBytes "snapshot keyword atom")
    if spelling = "" then fail "snapshot keyword atom spelling must be nonempty"
    else pure (.atom (.keyword ⟨spelling⟩))
  else if kind = 6 then do
    let seconds ← readI64Le "snapshot instant atom"
    let nanos ← readU32Le "snapshot instant nanoseconds"
    if h : nanos < 1000000000 then pure (.atom (.instant ⟨seconds, nanos, h⟩))
    else fail "snapshot instant nanoseconds are outside the range"
  else fail "snapshot atom record has an unknown kind"

/-- (`decode-triple-record!`) -/
def decodeTripleRecord : Read Record := do
  let t1 ← readI64Le "snapshot triple handle"
  let t2 ← readI64Le "snapshot triple handle"
  let t3 ← readI64Le "snapshot triple handle"
  pure (.triple ⟨t1, t2, t3⟩)

/-- (`decode-transaction-record!`) -/
def decodeTransactionRecord : Read Record := do
  let sequence ← readI64Le "snapshot transaction sequence"
  let firstOperation ← readI64Le "snapshot transaction first operation"
  let operationCount ← readI64Le "snapshot transaction operation count"
  pure (.transaction ⟨sequence, firstOperation, operationCount⟩)

/-- The parts of an operation before its handle. -/
def readOperationParts : Read (Int × Int × Nat) := do
  let sequence ← readI64Le "snapshot operation sequence"
  let ordinal ← readI64Le "snapshot operation ordinal"
  let action ← readU8 "snapshot operation action"
  pure (sequence, ordinal, action)

/-- (`decode-operation-record!`) The action is checked after the handle is read. -/
def decodeOperationRecord : Read Record := do
  let (sequence, ordinal, action) ← orError "snapshot operation action is unknown" readOperationParts
  if action = 1 then do
    let handle ← readI64Le "snapshot operation handle"
    pure (.operation ⟨sequence, ordinal, .assert, handle⟩)
  else if action = 2 then do
    let handle ← readI64Le "snapshot operation handle"
    pure (.operation ⟨sequence, ordinal, .retract, handle⟩)
  else fail "snapshot operation action is unknown"

/-- The labels of a log set. -/
def readLabels : Nat → Read (List String)
  | 0 => pure []
  | left + 1 => do
    let label ← readSizedText snapshotMaxTextBytes "snapshot log label"
    let labels ← readLabels left
    pure (label :: labels)

/-- (`decode-trailer-record!`) -/
def decodeTrailerRecord : Read Record := do
  let sequence ← readI64Le "snapshot sidecar sequence"
  let watermark ← readI64Le "snapshot sidecar watermark"
  let labelCount ← readU32Le "snapshot log label count"
  if snapshotMaxLogLabels < labelCount then fail "snapshot log set exceeds its label bound"
  else do
    let labels ← readLabels labelCount
    let imageStart ← readI64Le "snapshot image start"
    let imageEnd ← readI64Le "snapshot image end"
    let stamp ← readI64Le "snapshot stamp"
    let fingerprint ← readU32Le "snapshot fingerprint"
    pure (.trailer ⟨sequence, watermark, labels, imageStart, imageEnd, stamp, fingerprint⟩)

/-- The reader of a record's content, by the record's kind. -/
def decodeContent (kind : UInt8) : Read Record :=
  if kind = 1 then decodeAtomRecord
  else if kind = 2 then decodeTripleRecord
  else if kind = 3 then decodeTransactionRecord
  else if kind = 4 then decodeOperationRecord
  else if kind = 5 then decodeTrailerRecord
  else fail "snapshot record has an unknown kind"

/-- (`decode-record!`) -/
def decodeRecord : Bytes → Except String Record
  | [] => .error "snapshot record has an unknown kind"
  | kind :: content =>
    match decodeContent kind ⟨content, 0⟩ with
    | .error message => .error message
    | .ok (record, d) => if d.rest ≠ [] then .error "snapshot record has trailing payload bytes" else .ok record

/-- (`read-records!`) The records from a position on, which are `rest`, after those read. Each round takes a record, so as many
rounds as bytes are enough. -/
def readRecords : Nat → Image → Bytes → Except String Image
  | 0, _, _ => .error "snapshot trailer is missing"
  | fuel + 1, image, rest =>
    if rest.length < 8 then .error "snapshot trailer is missing"
    else
      let payloadLength := u32LeAt rest 0
      if payloadLength = 0 ∨ snapshotMaxRecordBytes < payloadLength then .error "snapshot record length is outside its bound"
      else if rest.length < payloadLength + 8 then .error "snapshot record is truncated"
      else
        let payload := (rest.drop 4).take payloadLength
        let next := rest.drop (payloadLength + 8)
        if u32LeAt rest (4 + payloadLength) ≠ crc32 payload then .error "snapshot record CRC does not match"
        else
          match decodeRecord payload with
          | .error message => .error message
          | .ok (.atom row) => readRecords fuel { image with atoms := image.atoms ++ [row] } next
          | .ok (.triple row) => readRecords fuel { image with triples := image.triples ++ [row] } next
          | .ok (.transaction row) => readRecords fuel { image with transactions := image.transactions ++ [row] } next
          | .ok (.operation row) => readRecords fuel { image with operations := image.operations ++ [row] } next
          | .ok (.trailer sidecar) =>
            if next ≠ [] then .error "snapshot trailer is not the last record"
            else .ok { image with sidecar := some sidecar }

/-- The version, the flags and the length of the SpaceId of an image. -/
def readSnapshotVersion : Read (Nat × Nat × Nat) := do
  let version ← readU16Le "snapshot codec version"
  let flags ← readU16Le "snapshot flags"
  let spaceLength ← readU32Le "snapshot SpaceId length"
  pure (version, flags, spaceLength)

/-- The SpaceId and the next sequence of an image. -/
def readSnapshotSpace (spaceLength : Nat) : Read (String × Int) := do
  let spaceId ← readUtf8 spaceLength "snapshot SpaceId"
  let nextSequence ← readI64Le "snapshot next sequence"
  pure (spaceId, nextSequence)

/-- (`read-snapshot!`) -/
def readSnapshot (bytes : Bytes) (configuredSpaceId : String) : Except String Image :=
  if bytes.length < snapshotHeaderFixedBytes then .error "snapshot header is truncated"
  else if bytes.take 16 ≠ snapshotMagic then .error "snapshot magic does not match"
  else do
    let ((version, flags, spaceLength), d) ← readSnapshotVersion ⟨bytes.drop 16, 0⟩
    if version ≠ snapshotCodecVersion ∨ flags ≠ snapshotFlags then
      .error "snapshot codec version or flags are unsupported"
    else if spaceLength = 0 ∨ snapshotMaxTextBytes < spaceLength then .error "snapshot SpaceId length is invalid"
    else do
      let ((spaceId, nextSequence), d) ← readSnapshotSpace spaceLength d
      if nextSequence < 1 then .error "snapshot next sequence is invalid"
      else if configuredSpaceId.length ≠ 0 ∧ configuredSpaceId ≠ spaceId then
        .error "snapshot belongs to a different SpaceId"
      else readRecords d.rest.length ⟨spaceId, nextSequence, [], [], [], [], none⟩ d.rest

/-! ## The plan of a boot -/

/-- The decisions of a boot that may have an image. -/
inductive Route where
  | replay
  | fold
  deriving DecidableEq

/-- (`SidecarValidation`) -/
structure SidecarValidation where
  reason : Option Keyword
  label : Option String
  deriving DecidableEq

/-- (`sidecar-validation-decision`) The first check that fails names the reason. -/
def sidecarValidationDecision (sidecarMap seqValid watermarkValid watermarkAgrees logSetMatches offsetsValid stamped
    fingerprintComputable fingerprintMatches : Bool) (badIdentity pastEof : Option String) : SidecarValidation :=
  if sidecarMap = false then ⟨some ⟨"no-sidecar"⟩, none⟩
  else if seqValid = false then ⟨some ⟨"seq-malformed"⟩, none⟩
  else if watermarkValid = false then ⟨some ⟨"watermark-malformed"⟩, none⟩
  else if watermarkAgrees = false then ⟨some ⟨"watermark-disagrees"⟩, none⟩
  else if logSetMatches = false then ⟨some ⟨"log-set-mismatch"⟩, none⟩
  else if offsetsValid = false then ⟨some ⟨"offset-malformed"⟩, none⟩
  else if stamped = false then ⟨some ⟨"unstamped"⟩, none⟩
  else if fingerprintComputable = false then ⟨some ⟨"fingerprint-uncomputable"⟩, none⟩
  else if fingerprintMatches = false then ⟨some ⟨"fingerprint-mismatch"⟩, none⟩
  else if badIdentity.isSome then ⟨some ⟨"identity-mismatch"⟩, badIdentity⟩
  else if pastEof.isSome then ⟨some ⟨"past-eof"⟩, pastEof⟩
  else ⟨none, none⟩

/-- (`boot-install-decision`) Whether the image is installed. -/
def bootInstallDecision (candidatePresent verificationEnabled verificationOk : Bool) : Bool :=
  candidatePresent && (!verificationEnabled || verificationOk)

/-- (`snapshot-replay-decision`) -/
def snapshotReplayDecision (enabled : Bool) (validationReason : Option Keyword) : Route :=
  if enabled = false ∨ validationReason.isSome then .fold else .replay

/-- The length and the sequence at the start of a frame. -/
def readTailSequence : Read Int := do
  let _ ← readU32Le "snapshot tail frame length"
  readI64Le "snapshot tail frame sequence"

/-- (`tail-first-sequence!`) The sequence of the frame at the watermark, `-1` when none starts there. A watermark before the log
is no position in it. -/
def tailFirstSequence (logBytes : Bytes) (watermark : Int) : Except Fault Int :=
  if (logBytes.length : Int) ≤ watermark then .ok (-1)
  else if watermark < 0 then .error ⟨⟨"index-out-of-bounds"⟩, "index is out of bounds"⟩
  else
    match readTailSequence ⟨logBytes.drop watermark.toNat, 0⟩ with
    | .error _ => .ok (-1)
    | .ok (sequence, _) => .ok sequence

/-- (`sidecar-reason!`) -/
def sidecarReason (snapshotBytes logBytes : Bytes) (configuredSpaceId : String) (image : Image) :
    Except Fault (Option Keyword) :=
  match image.sidecar with
  | none =>
    .ok (sidecarValidationDecision false false false false false false false false false none none).reason
  | some present => do
    let pastEof : Bool := decide ((logBytes.length : Int) < present.watermark)
    let tailSequence ← tailFirstSequence logBytes present.watermark
    let offsetsValid : Bool := decide (0 ≤ present.imageStart ∧ present.imageStart ≤ present.imageEnd ∧
      present.imageEnd ≤ snapshotBytes.length)
    let unconfigured : Bool := decide (configuredSpaceId.length = 0)
    .ok (sidecarValidationDecision true
      (decide (0 ≤ present.sequence))
      (decide (0 ≤ present.watermark))
      (pastEof || (decide (tailSequence < 0) || decide (tailSequence = image.nextSequence)))
      (unconfigured || present.logSet.contains configuredSpaceId)
      offsetsValid
      (decide (0 < present.stamp))
      offsetsValid
      (offsetsValid && decide (present.fingerprint = crc32 ((snapshotBytes.drop present.imageStart.toNat).take
        (present.imageEnd - present.imageStart).toNat)))
      (if unconfigured || decide (configuredSpaceId = image.spaceId) then none else some image.spaceId)
      (if pastEof then some "snapshot watermark" else none)).reason

/-- (`reason-report`) -/
def reasonReport : Option Keyword → String
  | none => "fram: snapshot boot degraded to full fold; reason none"
  | some named => "fram: snapshot boot degraded to full fold; reason " ++ named.spelling

/-- (`BootPlan`) -/
structure BootPlan where
  route : Route
  reason : Option Keyword
  report : String
  image : Option Image
  deriving DecidableEq

/-- (`plan-snapshot-boot!`) -/
def planSnapshotBoot (enabled : Bool) (snapshotBytes logBytes : Bytes) (configuredSpaceId : String) :
    Except Fault BootPlan := do
  let candidatePresent : Bool := decide (0 < snapshotBytes.length)
  let read := if candidatePresent then readSnapshot snapshotBytes configuredSpaceId else .error "snapshot object is empty"
  let install := bootInstallDecision candidatePresent true read.isOk
  let reason ←
    if candidatePresent = false then .ok (some (⟨"no-image"⟩ : Keyword))
    else
      match read with
      | .error _ => .ok (some ⟨"image-unverified"⟩)
      | .ok image =>
        if install = false then .ok (some ⟨"install-refused"⟩)
        else sidecarReason snapshotBytes logBytes configuredSpaceId image
  match snapshotReplayDecision (enabled && install) reason with
  | .replay => .ok ⟨.replay, none, "fram: snapshot boot installed the image and replays the log tail", read.toOption⟩
  | .fold => .ok ⟨.fold, reason, reasonReport reason, none⟩

/-- (`install-image!`) -/
def installImage (Γ : Host) (image : Image) (root : TermStore) : Except Fault TermStore :=
  loadTermStoreResult Γ root ⟨termStoreDumpVersion, image.spaceId, image.nextSequence, image.atoms, image.triples,
    image.transactions, image.operations⟩

end Fram
