import Fram.Framrpc
import Fram.Lib.Records
import Fram.Log

/-!
# The JVM database

`src/database.clj`: a database of the JVM over its log. The log has the format of the native one, and one more: in a deflate generation
the payload of each frame is compressed. Opening reads the whole file, replays its frames and cuts a torn tail off; a commit appends
one frame, a cohort its frames, and an append whose outcome is not known fences the database.

A frame that is read carries the action of each operation as a number and as a keyword; here it carries the action once, so the map of
a frame read and the frame of a store (`frame->store-frame`) are one. The path of the log, its lock and its fork marker are the host's.
-/

namespace Fram.Database

open Reader LittleEndian Framrpc

/-! ## Constants -/

/-- (`triple-log-magic`) -/
def tripleLogMagic : Bytes := [70, 82, 65, 77, 76, 79, 71, 0]

/-- (`triple-log-version`) -/
def tripleLogVersion : Nat := 1

/-- (`triple-log-flags`) -/
def tripleLogFlags : Nat := 0

/-- (`deflate-flag`) -/
def deflateFlag : Nat := 1

/-- (`continuation-flag`) -/
def continuationFlag : Nat := 2

/-- (`max-term-depth`) -/
def maxTermDepth : Nat := 256

/-- (`Integer/MAX_VALUE`) -/
def integerMax : Nat := 2147483647

/-- A failure of a log that is corrupt. -/
def corruptTripleLog (message : String) : Fault := ⟨⟨"corrupt-triple-log"⟩, message⟩

/-- GZIP as the host has it: it gives back what it compressed, and may refuse anything else. -/
structure Gzip where
  deflate : Bytes → Bytes
  inflate : Bytes → Option Bytes
  inverse : ∀ bytes, inflate (deflate bytes) = some bytes

/-! ## Writing frames -/

/-- (`require-u32!`, then `write-u32-le!`) -/
def writeU32Le (n : Int) : Except Fault Bytes :=
  if 0 ≤ n ∧ n ≤ 4294967295 then .ok (toBytes 4 n.toNat)
  else .error ⟨⟨"invalid-integer"⟩, "u32 is outside unsigned 32-bit range"⟩

/-- (`require-i64!`) -/
def requireI64 (n : Int) (label : String) : Except Fault Int :=
  if -9223372036854775808 ≤ n ∧ n ≤ 9223372036854775807 then .ok n
  else .error ⟨⟨"invalid-integer"⟩, label ++ " is outside signed 64-bit range"⟩

/-- (`write-i64-le!`) -/
def writeI64Le (n : Int) : Except Fault Bytes := do
  let v ← requireI64 n "i64"
  .ok (toBytes 8 (natOfI64 v))

/-- The failure of `write-triple!` for a failure of the codec. -/
def tripleFault (fault : Fault) : Fault :=
  if fault.type = ⟨"term-codec-invalid-utf8"⟩ then ⟨⟨"invalid-utf8"⟩, "FRAMLOG Term contains invalid UTF-8"⟩
  else if fault.type = ⟨"term-codec-invalid-keyword"⟩ then ⟨⟨"invalid-keyword"⟩, "FRAMLOG Keyword atom is empty"⟩
  else if fault.type = ⟨"term-codec-integer-range"⟩ then ⟨⟨"invalid-integer"⟩, "FRAMLOG Term integer is out of range"⟩
  else if fault.type = ⟨"term-codec-unsupported-term"⟩ then ⟨⟨"unsupported-term"⟩, "FRAMLOG encountered a value outside Term"⟩
  else fault

/-- (`write-triple!`) -/
def writeTriple (value : Triple) : Except Fault Bytes :=
  match writeTermCodecV1 value.term integerMax integerMax maxTermDepth with
  | .ok (bytes, _) => .ok bytes
  | .error fault => .error (tripleFault fault)

/-- (`wire-action`) -/
def wireAction : Action → UInt8
  | .assert => 1
  | .retract => 2

/-- The operations of a payload, numbered from an ordinal on. -/
def writeOperations : Nat → List CommitOperation → Except Fault Bytes
  | _, [] => .ok []
  | ordinal, operation :: operations => do
    let number ← writeU32Le ordinal
    let triple ← writeTriple operation.proposition
    let more ← writeOperations (ordinal + 1) operations
    .ok (number ++ (wireAction operation.action :: (triple ++ more)))

/-- (`.toByteArray`) An array of the host has at most `Integer/MAX_VALUE` bytes. -/
def toByteArray (bytes : Bytes) : Except Fault Bytes :=
  if bytes.length ≤ integerMax then .ok bytes else .error ⟨⟨"OutOfMemoryError"⟩, ""⟩

/-- (`deflate-bytes`, where the generation asks for it) The bytes that a frame stores for a payload. -/
def storedBytes (J : Gzip) (deflate : Bool) (raw : Bytes) : Bytes := if deflate then J.deflate raw else raw

/-- (`write-transaction-frame!`) -/
def writeTransactionFrame (J : Gzip) (tx : TransactionFrame) (deflate : Bool) : Except Fault Bytes := do
  let sequence ← writeI64Le tx.sequence
  let count ← writeU32Le tx.operations.length
  let operations ← writeOperations 0 tx.operations
  let raw ← toByteArray (sequence ++ (count ++ operations))
  let bytes ← toByteArray (storedBytes J deflate raw)
  let length ← writeU32Le bytes.length
  let crc ← writeU32Le (crc32 bytes)
  .ok (length ++ (bytes ++ crc))

/-- (`append-frame-durable!`, `append-frame-cohort-durable!`) The bytes that reach the file, the frames in them, and the failure that
ended the append. A frame that cannot be written writes nothing, and closing the file flushes the frames before it. -/
def appendFramesDurable (J : Gzip) (deflate : Bool) : List TransactionFrame → Bytes × List TransactionFrame × Option Fault
  | [] => ([], [], none)
  | frame :: frames =>
    match writeTransactionFrame J frame deflate with
    | .error fault => ([], [], some fault)
    | .ok bytes =>
      let (more, written, fault) := appendFramesDurable J deflate frames
      (bytes ++ more, frame :: written, fault)

/-- (`write-header!`, of `create-triple-log!`) The bytes of a new log. -/
def createTripleLog (spaceId : String) (deflate continuation : Bool) : Except Fault Bytes := do
  let spaceBytes ← toByteArray (utf8Encode spaceId)
  if spaceBytes.length = 0 then .error ⟨⟨"space-id-required"⟩, "SpaceId must be nonempty"⟩
  else do
    let length ← writeU32Le spaceBytes.length
    let flags := (if deflate then deflateFlag else tripleLogFlags) ||| (if continuation then continuationFlag else tripleLogFlags)
    .ok (tripleLogMagic ++ (toBytes 2 tripleLogVersion ++ (toBytes 2 flags ++ (length ++ spaceBytes))))

/-! ## Reading a payload -/

/-- (`ensure-remaining!`) -/
def ensureRemaining (count : Nat) : BufferRead Unit := fun d =>
  if d.rest.length < count then .error (corruptTripleLog "FRAMLOG payload ended inside a value") else .ok ((), d)

/-- (`read-u32`) -/
def readU32 : BufferRead Nat := do
  ensureRemaining 4
  getUnsigned 4

/-- (`read-term`) -/
def readTerm : BufferRead Term := fun d =>
  match decodeTermCodecV1 integerMax integerMax maxTermDepth d with
  | .ok ((term, _), d') => .ok (term, d')
  | .error fault =>
    if fault.type = ⟨"term-depth-exceeded"⟩ then .error fault
    else .error (corruptTripleLog "FRAMLOG contains a malformed Term")

/-- (`store-action`) -/
def storeAction (action : Nat) : BufferRead Action :=
  if action = 1 then pure .assert
  else if action = 2 then pure .retract
  else fail (corruptTripleLog "FRAMLOG contains an unknown operation action")

/-- The operation of an action and a proposition that are read. -/
def decodedOperation (action : Nat) (proposition : Term) : BufferRead CommitOperation :=
  match proposition.asTriple with
  | none => fail (corruptTripleLog "FRAMLOG operation proposition is not a Triple")
  | some triple => do
    let stored ← storeAction action
    pure ⟨stored, triple⟩

/-- One operation of a payload, at an ordinal. -/
def decodeOperation (expected : Nat) : BufferRead CommitOperation := do
  let ordinal ← readU32
  if ordinal ≠ expected then fail ⟨⟨"noncontiguous-ordinal"⟩, "FRAMLOG operation ordinals are not contiguous"⟩
  else do
    ensureRemaining 1
    let action ← getUnsigned 1
    let proposition ← readTerm
    decodedOperation action proposition

/-- The operations of a payload, from an ordinal on. -/
def decodeOperations : Nat → Nat → BufferRead (List CommitOperation)
  | 0, _ => pure []
  | left + 1, ordinal => do
    let operation ← decodeOperation ordinal
    let operations ← decodeOperations left (ordinal + 1)
    pure (operation :: operations)

/-- The frame of a payload. -/
def decodeFrame : BufferRead TransactionFrame := do
  ensureRemaining 12
  let sequence ← getLong
  let operationCount ← readU32
  if sequence < 0 then fail (corruptTripleLog "FRAMLOG transaction sequence is negative")
  else if operationCount = 0 ∨ integerMax < operationCount then
    fail (corruptTripleLog "FRAMLOG transaction operation count is invalid")
  else do
    let operations ← decodeOperations operationCount 0
    pure ⟨sequence, operations⟩

/-- (`decode-transaction-payload`) -/
def decodeTransactionPayload (payload : Bytes) : Except Fault TransactionFrame :=
  match decodeFrame ⟨payload, 0⟩ with
  | .error fault => .error fault
  | .ok (frame, d) =>
    if d.rest ≠ [] then .error (corruptTripleLog "FRAMLOG transaction has trailing payload bytes") else .ok frame

/-! ## Reading a log -/

/-- (`:torn-tail`) -/
structure TornTail where
  offset : Nat
  bytes : Nat
  reason : Keyword
  deriving DecidableEq

/-- What a log is parsed as. A log cut inside a frame has no word of whether its generation is compressed. -/
structure TripleLog where
  spaceId : String
  deflate : Option Bool
  frames : List TransactionFrame
  continuation : Bool
  validBytes : Nat
  headerBytes : Nat
  prefixEnds : List (Int × Nat)
  tornTail : Option TornTail
  deriving DecidableEq

/-- (`assoc`) The map with a key at a value. -/
def assoc (ends : List (Int × Nat)) (key : Int) (value : Nat) : List (Int × Nat) :=
  ends.filter (·.1 ≠ key) ++ [(key, value)]

/-- (`inflate-bytes`, where the generation asks for it) The payload of the bytes that a frame stores. -/
def payloadOf (J : Gzip) (deflate : Bool) (stored : Bytes) : Except Fault Bytes :=
  if deflate then
    match J.inflate stored with
    | some raw => .ok raw
    | none => .error (corruptTripleLog "FRAMLOG deflate frame is invalid")
  else .ok stored

/-- What is read so far: the frames, where the last of them ends, and where each of them does. -/
abbrev Parsed := List TransactionFrame × Nat × List (Int × Nat)

/-- One frame more. -/
def parseFrame (J : Gzip) (deflate : Bool) (parsed : Parsed) (stored : Bytes) : Except Fault Parsed := do
  let raw ← payloadOf J deflate stored
  let frame ← decodeTransactionPayload raw
  let position := parsed.2.1 + (stored.length + 8)
  .ok (parsed.1 ++ [frame], position, assoc parsed.2.2 frame.sequence position)

/-- The frames of the bytes after a header, which has `headerBytes` bytes, and the rest where the reader stops. -/
def parseFrames (J : Gzip) (deflate : Bool) (headerBytes : Nat) (bytes : Bytes) : Except Fault (Parsed × Bytes) :=
  Records.loop crc32 integerMax (corruptTripleLog "FRAMLOG frame exceeds JVM bounds")
    (corruptTripleLog "FRAMLOG frame CRC does not match") (parseFrame J deflate) bytes.length ([], headerBytes, []) bytes

/-- The three ends of the reader: at the end of the log, inside the length of a frame, and inside a frame. The last leaves out what the
header says of compression. -/
def endOfLog (spaceId : String) (deflate continuation : Bool) (headerBytes length : Nat) (parsed : Parsed) (rest : Bytes) :
    TripleLog :=
  let (frames, validBytes, prefixEnds) := parsed
  let torn (reason : String) : TornTail := ⟨length - rest.length, rest.length, ⟨reason⟩⟩
  if rest.length = 0 then ⟨spaceId, some deflate, frames, continuation, validBytes, headerBytes, prefixEnds, none⟩
  else if rest.length < 4 then
    ⟨spaceId, some deflate, frames, continuation, validBytes, headerBytes, prefixEnds, some (torn "torn-frame-length")⟩
  else ⟨spaceId, none, frames, continuation, validBytes, headerBytes, prefixEnds, some (torn "torn-transaction-frame")⟩

/-- (`parse-triple-log-bytes`) -/
def parseTripleLogBytes (J : Gzip) (bytes : Bytes) (allowContinuation : Bool) : Except Fault TripleLog :=
  if bytes.take 8 ≠ tripleLogMagic then .error (corruptTripleLog "FRAMLOG magic does not match")
  else if bytes.length < 16 then .error (corruptTripleLog "FRAMLOG payload ended inside a value")
  else
    let version := u16LeAt bytes 8
    let flags := u16LeAt bytes 10
    let spaceLength := u32LeAt bytes 12
    let allowed := if allowContinuation then [tripleLogFlags, deflateFlag, continuationFlag, deflateFlag ||| continuationFlag]
      else [tripleLogFlags, deflateFlag]
    if version ≠ tripleLogVersion ∨ flags ∉ allowed then
      .error ⟨⟨"unsupported-log-version"⟩, "FRAMLOG version or flags are unsupported"⟩
    else if spaceLength = 0 ∨ integerMax < spaceLength then .error (corruptTripleLog "FRAMLOG SpaceId length is invalid")
    else if bytes.length < 16 + spaceLength then .error (corruptTripleLog "FRAMLOG payload ended inside a value")
    else
      match utf8Decode ((bytes.drop 16).take spaceLength) with
      | none => .error ⟨⟨"invalid-utf8"⟩, "SpaceId is not valid UTF-8"⟩
      | some spaceId =>
        let deflate := decide (0 < deflateFlag &&& flags)
        let continuation := decide (0 < continuationFlag &&& flags)
        let headerBytes := 16 + spaceLength
        match parseFrames J deflate headerBytes (bytes.drop headerBytes) with
        | .error fault => .error fault
        | .ok (parsed, rest) => .ok (endOfLog spaceId deflate continuation headerBytes bytes.length parsed rest)

/-- (`replay-frames!`) -/
def replayFrames (Γ : Host) (context : TermStore) (frames : List TransactionFrame) : Except Fault TermStore :=
  frames.foldlM (fun s frame => do
    let (s', _) ← replayTransactionLong Γ s frame
    .ok s') context

/-! ## Databases -/

/-- (`:mutation-state`) A database is ready, or fenced by a failure whose outcome was read back from the log or could not be. -/
inductive MutationState where
  | ready
  | recoveryRequired (cause : Fault) (version : Triple) (tornTail : Option TornTail) (validBytes : Nat)
  | corrupt (cause corruption : Fault)
  deriving DecidableEq

/-- A database over a log. -/
structure Db where
  termStore : TermStore
  spaceId : String
  deflate : Option Bool
  mutationState : MutationState
  tornTail : Option TornTail
  recoveredTail : Option TornTail

/-- (`open-database!`) The database of the bytes of a log, and the bytes that the log has after it. -/
def openDatabase (Γ : Host) (J : Gzip) (bytes : Bytes) (expectedSpace : Option String) (repairTorn : Bool) :
    Except Fault (Db × Bytes) := do
  let parsed ← parseTripleLogBytes J bytes false
  if expectedSpace.any (· ≠ parsed.spaceId) then
    .error ⟨⟨"space-mismatch"⟩, "FRAMLOG belongs to a different SpaceId"⟩
  else do
    let context ← newTermStore parsed.spaceId
    let context ← replayFrames Γ context parsed.frames
    let log := if parsed.tornTail.isSome ∧ repairTorn then bytes.take parsed.validBytes else bytes
    .ok (⟨context, parsed.spaceId, parsed.deflate, .ready, if repairTorn then none else parsed.tornTail,
      if repairTorn then parsed.tornTail else none⟩, log)

/-- (`require-mutation-ready!`) -/
def requireMutationReady (db : Db) : Except Fault Unit :=
  match db.mutationState with
  | .ready => .ok ()
  | .recoveryRequired _ _ _ _ => .error ⟨⟨"recovery-required"⟩, "database is fenced after a durability-ambiguous commit"⟩
  | .corrupt _ _ => .error ⟨⟨"database-corrupt"⟩, "database is permanently fenced because durable history is corrupt"⟩

/-- (`canonical-term!`) -/
def canonicalTerm : Term → Except Fault Term
  | .triple t1 t2 t3 => do
    let c1 ← canonicalTerm t1
    let c2 ← canonicalTerm t2
    let c3 ← canonicalTerm t3
    .ok (.triple c1 c2 c3)
  | .atom (.int n) => do
    let v ← requireI64 n "Int atom"
    .ok (.int v)
  | .atom (.instant i) => do
    let _ ← requireI64 i.epochSeconds "Instant epoch seconds"
    .ok (.atom (.instant i))
  | t => .ok t

/-- (`commit-operation!`) -/
def commitOperation (operation : CommitOperation) : Except Fault CommitOperation := do
  let t1 ← canonicalTerm operation.proposition.t1
  let t2 ← canonicalTerm operation.proposition.t2
  let t3 ← canonicalTerm operation.proposition.t3
  .ok ⟨operation.action, t1, t2, t3⟩

/-- (`fence-and-reconcile!`) The database after a failure, read back from its log. -/
def fenceAndReconcile (Γ : Host) (J : Gzip) (log : Bytes) (db : Db) (cause : Fault) : Db :=
  match (do
    let parsed ← parseTripleLogBytes J log false
    let context ← newTermStore parsed.spaceId
    if db.spaceId ≠ parsed.spaceId then
      .error ⟨⟨"space-mismatch"⟩, "durable history changed SpaceId during reconciliation"⟩
    else do
      let context ← replayFrames Γ context parsed.frames
      let version ← transactionCoordinate db.spaceId (currentSequence context)
      .ok (context, version, parsed) : Except Fault (TermStore × Triple × TripleLog)) with
  | .ok (context, version, parsed) =>
    { db with termStore := context, mutationState := .recoveryRequired cause version parsed.tornTail parsed.validBytes }
  | .error corruption => { db with mutationState := .corrupt cause corruption }

/-- (`propagate-ambiguous-commit!`) -/
def ambiguousCommit (db : Db) : Fault :=
  match db.mutationState with
  | .corrupt _ _ => ⟨⟨"database-corrupt"⟩, "durable history is corrupt after a commit failure"⟩
  | _ => ⟨⟨"durability-ambiguous"⟩, "commit outcome is durability-ambiguous; restart is required"⟩

/-- What a mutation does: the database after it, the bytes that it appends to the log and the frames in them, the frames that it leaves
for its cohort to append, and the frames that it acknowledges. -/
structure Mutation where
  db : Db
  appended : Bytes
  written : List TransactionFrame
  deferred : List TransactionFrame
  result : Except Fault (List TransactionFrame)

/-- A mutation that is refused before it does anything. -/
def refused (db : Db) (fault : Fault) : Mutation := ⟨db, [], [], [], .error fault⟩

/-- A mutation that fails when its frames are on their way to the log. -/
def fenced (Γ : Host) (J : Gzip) (log : Bytes) (db : Db) (appended : Bytes) (written deferred : List TransactionFrame)
    (cause : Fault) : Mutation :=
  let db := fenceAndReconcile Γ J (log ++ appended) db cause
  ⟨db, appended, written, deferred, .error (ambiguousCommit db)⟩

/-- (`commit!`, `append-and-replay!`) One transaction of operations, those of its metadata included; a request that fails a check
of its fields is refused before and changes nothing. A commit of a cohort defers its frame. -/
def commit (Γ : Host) (J : Gzip) (log : Bytes) (db : Db) (deferring : Bool) (operations : List CommitOperation) : Mutation :=
  match requireMutationReady db with
  | .error fault => refused db fault
  | .ok _ =>
    if operations = [] then
      refused db ⟨⟨"invalid-transaction-frame"⟩, "transaction requires a nonempty operation vector"⟩
    else if db.tornTail.isSome then
      refused db ⟨⟨"torn-tail-repair-required"⟩, "FRAMLOG has a torn trailing frame; writer authority must repair it"⟩
    else
      match operations.mapM commitOperation with
      | .error fault => refused db fault
      | .ok operations =>
        let frame : TransactionFrame := ⟨db.termStore.nextSequence, operations⟩
        let (appended, written, failure) :=
          if deferring then ([], [], none) else appendFramesDurable J (db.deflate.getD false) [frame]
        let deferred := if deferring then [frame] else []
        match failure with
        | some cause => fenced Γ J log db appended written deferred cause
        | none =>
          match replayTransactionLong Γ db.termStore frame with
          | .error cause => fenced Γ J log db appended written deferred cause
          | .ok (s, _) => ⟨{ db with termStore := s }, appended, written, deferred, .ok [frame]⟩

/-- The mutations of a cohort, run in order over a store of their own: the database they leave, and the frames they defer. -/
def runCohort (Γ : Host) (J : Gzip) (log : Bytes) (db : Db) (mutations : List (List CommitOperation)) :
    Db × List TransactionFrame :=
  mutations.foldl (fun (scratch, frames) operations =>
    let mutation := commit Γ J log scratch true operations
    (mutation.db, frames ++ mutation.deferred)) (db, [])

/-- (`require-readable!`) -/
def readable (db : Db) : Bool :=
  match db.mutationState with
  | .corrupt _ _ => false
  | _ => true

/-- (`commit-cohort!`) -/
def commitCohort (Γ : Host) (J : Gzip) (log : Bytes) (db : Db) (mutations : List (List CommitOperation)) : Mutation :=
  match requireMutationReady db with
  | .error fault => refused db fault
  | .ok _ =>
    let (scratch, frames) := runCohort Γ J log db mutations
    if frames = [] then ⟨db, [], [], [], .ok []⟩
    else
      let (appended, written, failure) := appendFramesDurable J (db.deflate.getD false) frames
      match failure with
      | some cause => fenced Γ J log db appended written [] cause
      | none =>
        if readable scratch then ⟨{ db with termStore := scratch.termStore }, appended, written, [], .ok frames⟩
        else fenced Γ J log db appended written [] ⟨⟨"database-corrupt"⟩, "durable history could not be reconciled"⟩

/-! ## Runs of a database over its log -/

/-- A frame whole in the log, and whether its commit was acknowledged. -/
structure JournalEntry where
  frame : TransactionFrame
  acknowledged : Bool
  deriving DecidableEq

/-- A log and the database that is open on it. Beside these: the frames acknowledged so far, the frames written whole so far, the
bytes of a frame that a crash left unfinished at the end, and whether the database that is open was opened on a log cut inside a
frame, past the length of the frame. -/
structure World where
  log : Bytes
  db : Option Db
  acknowledged : List TransactionFrame
  journal : List JournalEntry
  unfinished : Nat
  openedOnCut : Bool

/-- The frames whole in the log. -/
def World.frames (w : World) : List TransactionFrame := w.journal.map (·.frame)

/-- What happens to a log: a commit, a cohort, a crash that keeps some of the bytes that a cohort is appending (or that a commit is,
which is a cohort of one), and a reopen with repair. -/
inductive Event where
  | commit (operations : List CommitOperation)
  | cohort (mutations : List (List CommitOperation))
  | crash (mutations : List (List CommitOperation)) (kept : Nat)
  | reopen

/-- The event may append to the log. -/
def Event.appends : Event → Bool
  | .reopen => false
  | _ => true

/-- How many transactions the event may commit. -/
def Event.transactions : Event → Nat
  | .commit _ => 1
  | .cohort mutations => mutations.length
  | .crash mutations _ => mutations.length
  | .reopen => 0

/-- The frames whole in the first bytes of an append, and the bytes after them. -/
def wholeFrames (J : Gzip) (deflate : Bool) : List TransactionFrame → Nat → List TransactionFrame × Nat
  | [], _ => ([], 0)
  | frame :: frames, kept =>
    match writeTransactionFrame J frame deflate with
    | .error _ => ([], 0)
    | .ok bytes =>
      if bytes.length ≤ kept then
        let (whole, left) := wholeFrames J deflate frames (kept - bytes.length)
        (frame :: whole, left)
      else ([], kept)

/-- The log after a mutation that runs to its end. -/
def World.mutated (w : World) (mutation : Mutation) : World :=
  { w with
    log := w.log ++ mutation.appended
    db := some mutation.db
    acknowledged := w.acknowledged ++ mutation.result.toOption.getD []
    journal := w.journal ++ mutation.written.map (⟨·, mutation.result.isOk⟩) }

/-- One event. Where no database is open only a reopen does anything. -/
def World.step (Γ : Host) (J : Gzip) (w : World) : Event → World
  | .commit operations =>
    match w.db with
    | none => w
    | some db => w.mutated (Database.commit Γ J w.log db false operations)
  | .cohort mutations =>
    match w.db with
    | none => w
    | some db => w.mutated (commitCohort Γ J w.log db mutations)
  | .crash mutations kept =>
    match w.db with
    | none => w
    | some db =>
      match requireMutationReady db with
      | .error _ => { w with db := none, openedOnCut := false }
      | .ok _ =>
        let deflate := db.deflate.getD false
        let frames := (runCohort Γ J w.log db mutations).2
        let (whole, left) := wholeFrames J deflate frames kept
        { w with
          log := w.log ++ (appendFramesDurable J deflate frames).1.take kept
          db := none
          journal := w.journal ++ whole.map (⟨·, false⟩)
          unfinished := left
          openedOnCut := false }
  | .reopen =>
    match openDatabase Γ J w.log none true with
    | .error _ => { w with db := none, openedOnCut := false }
    | .ok (db, log) => { w with log := log, db := some db, unfinished := 0, openedOnCut := decide (4 ≤ w.unfinished) }

/-- The events in order. -/
def World.run (Γ : Host) (J : Gzip) (w : World) (events : List Event) : World := events.foldl (World.step Γ J) w

/-- A log just created, which no database is open on. -/
def created (log : Bytes) : World := ⟨log, none, [], [], 0, false⟩

end Fram.Database
