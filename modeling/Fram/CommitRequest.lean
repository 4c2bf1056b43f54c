import Fram.Database

/-!
# Requests to commit

`commit!` of `src/database.clj` with all it checks of a request. A request holds values of the JVM: its texts are UTF-16 and may have
an unpaired surrogate, its triples and instants may be built without the checks of their constructors, and anything else may stand in
the place of a term. A request of terms is one by `Value.ofTerm`.

A store of the model holds terms only, so a value with an unpaired surrogate reaches no store: its frame cannot be written, and a
commit that defers its frame is of terms.
-/

namespace Fram.Database

open Framrpc

/-! ## Texts -/

/-- The unit may open a pair of surrogates. -/
def isHighSurrogate (unit : UInt16) : Bool := decide (55296 ≤ unit.toNat) && decide (unit.toNat ≤ 56319)

/-- The unit may close a pair of surrogates. -/
def isLowSurrogate (unit : UInt16) : Bool := decide (56320 ≤ unit.toNat) && decide (unit.toNat ≤ 57343)

/-- The scalar of a pair of surrogates. -/
def scalarOfPair (high low : UInt16) : Char := Char.ofNat (65536 + (high.toNat - 55296) * 1024 + (low.toNat - 56320))

/-- The scalars of a text, if it has no unpaired surrogate. -/
def scalars : List UInt16 → Option (List Char)
  | [] => some []
  | unit :: units =>
    if isHighSurrogate unit then
      match units with
      | [] => none
      | low :: units => if isLowSurrogate low then (scalars units).map (scalarOfPair unit low :: ·) else none
    else if isLowSurrogate unit then none
    else (scalars units).map (Char.ofNat unit.toNat :: ·)

/-- The units of a scalar. -/
def unitsOf (c : Char) : List UInt16 :=
  if c.toNat < 65536 then [UInt16.ofNat c.toNat]
  else [UInt16.ofNat (55296 + (c.toNat - 65536) / 1024), UInt16.ofNat (56320 + (c.toNat - 65536) % 1024)]

/-- The text of a string. -/
def utf16 (s : String) : List UInt16 := s.toList.flatMap unitsOf

/-! ## Values -/

/-- A value of the JVM that a request may hold. -/
inductive Value where
  | string (units : List UInt16)
  | int (n : Int)
  | float (x : F64)
  | bool (b : Bool)
  | keyword (units : List UInt16)
  | instant (epochSeconds nanos : Int)
  | triple (t1 t2 t3 : Value)
  | other
  deriving DecidableEq

namespace Value

/-- The value of a term. -/
def ofTerm : Term → Value
  | .atom (.string s) => string (utf16 s)
  | .atom (.int n) => int n
  | .atom (.float x) => float x
  | .atom (.bool b) => bool b
  | .atom (.keyword k) => keyword (utf16 k.spelling)
  | .atom (.instant i) => instant i.epochSeconds i.nanos
  | .triple t1 t2 t3 => triple (ofTerm t1) (ofTerm t2) (ofTerm t3)

/-- The term that the value is, if its texts have no unpaired surrogate. -/
def term? : Value → Option Term
  | string units => (scalars units).map fun cs => .str (String.ofList cs)
  | int n => some (.int n)
  | float x => some (.atom (.float x))
  | bool b => some (.bool b)
  | keyword units => (scalars units).map fun cs => .kw (String.ofList cs)
  | instant epochSeconds nanos =>
    if h : nanos.toNat < 1000000000 ∧ 0 ≤ nanos then some (.atom (.instant ⟨epochSeconds, nanos.toNat, h.1⟩)) else none
  | triple t1 t2 t3 => do
    let c1 ← t1.term?
    let c2 ← t2.term?
    let c3 ← t3.term?
    some (.triple c1 c2 c3)
  | other => none

/-- (`t/triple?`) -/
def isTriple : Value → Bool
  | triple _ _ _ => true
  | _ => false

/-- (`t/instant?`) -/
def isInstant : Value → Bool
  | instant _ _ => true
  | _ => false

/-- (`t/transaction-coordinate?`) -/
def isTransactionCoordinate : Value → Bool
  | triple (string space) t2 (int n) => decide (space ≠ []) && (decide (ofTerm txSequence = t2) && decide (0 ≤ n))
  | _ => false

/-- (`t/occurrence-coordinate?`) -/
def isOccurrenceCoordinate : Value → Bool
  | triple t1 t2 (int n) => t1.isTransactionCoordinate && (decide (ofTerm opOrdinal = t2) && decide (0 ≤ n))
  | _ => false

/-- (`t/triple-t1`) The first part of a triple. -/
def t1 : Value → Value
  | triple t1 _ _ => t1
  | _ => other

end Value

/-- The value is there, and is not `false`. -/
def truthy : Option Value → Bool
  | none => false
  | some (.bool b) => b
  | some _ => true

/-! ## Measuring a value -/

/-- (`utf8-length!`) The bytes of a text past those counted. -/
def utf8LengthUnits (maximum : Nat) (label : String) : List UInt16 → Nat → Except Fault Nat
  | [], total => .ok total
  | unit :: units, total =>
    let exceeds := codecFail "term-codec-string-limit" (label ++ " exceeds the UTF-8 byte limit")
    let unpaired := codecFail "term-codec-invalid-utf8" (label ++ " contains an unpaired UTF-16 surrogate")
    if isHighSurrogate unit then
      match units with
      | [] => .error unpaired
      | low :: units =>
        if isLowSurrogate low = false then .error unpaired
        else if maximum < total + 4 then .error exceeds
        else utf8LengthUnits maximum label units (total + 4)
    else if isLowSurrogate unit then .error unpaired
    else
      let width := if unit.toNat ≤ 127 then 1 else if unit.toNat ≤ 2047 then 2 else 3
      if maximum < total + width then .error exceeds else utf8LengthUnits maximum label units (total + width)

/-- The bytes of a value that is no triple. -/
def measureLeaf (maxStringBytes : Nat) : Value → Except Fault Nat
  | .string units => do
    let length ← utf8LengthUnits maxStringBytes "String atom" units 0
    .ok (5 + length)
  | .int _ => .ok 9
  | .float _ => .ok 9
  | .bool _ => .ok 1
  | .keyword units =>
    if units = [] then .error (codecFail "term-codec-invalid-keyword" "Keyword atom spelling must be nonempty")
    else do
      let length ← utf8LengthUnits maxStringBytes "Keyword atom" units 0
      .ok (5 + length)
  | .instant _ _ => .ok 13
  | _ => .error (codecFail "term-codec-unsupported-term" "TermCodecV1 encountered a value outside Term")

/-- (`measure-term-core!`) -/
def measureValue (maxStringBytes maxNodes maxDepth : Nat) : Value → Nat → Measure
  | .triple t1 t2 t3, depth =>
    if maxDepth < depth then fun _ => .error termDepthExceeded
    else do
      codecNode maxNodes
      let n1 ← measureValue maxStringBytes maxNodes maxDepth t1 (depth + 1)
      let n2 ← measureValue maxStringBytes maxNodes maxDepth t2 (depth + 1)
      let n3 ← measureValue maxStringBytes maxNodes maxDepth t3 (depth + 1)
      pure (1 + (n1 + (n2 + n3)))
  | leaf, depth =>
    if maxDepth < depth then fun _ => .error termDepthExceeded
    else do
      codecNode maxNodes
      fun nodes => (measureLeaf maxStringBytes leaf).map (·, nodes)

/-! ## Requests -/

/-- An operation of a request, with what is recorded of it. -/
structure OperationRequest (V : Type) where
  action : Option Action
  proposition : V
  recordedAt : Option V
  assertedBy : Option V
  sourceFrame : Option V
  supersedes : Option V

/-- A request to commit operations. -/
structure CommitRequest (V : Type) where
  operations : List (OperationRequest V)
  base : Option V
  actor : Option V
  recordedAt : Option V

/-- The operation with its values mapped. -/
def OperationRequest.map {V W : Type} (f : V → W) (o : OperationRequest V) : OperationRequest W :=
  ⟨o.action, f o.proposition, o.recordedAt.map f, o.assertedBy.map f, o.sourceFrame.map f, o.supersedes.map f⟩

/-- The request with its values mapped. -/
def CommitRequest.map {V W : Type} (f : V → W) (r : CommitRequest V) : CommitRequest W :=
  ⟨r.operations.map (·.map f), r.base.map f, r.actor.map f, r.recordedAt.map f⟩

/-- (`assert!`) The request of one assertion. -/
def assertRequest {V : Type} (proposition : V) (actor supersedes : Option V) : CommitRequest V :=
  ⟨[⟨some .assert, proposition, none, none, none, supersedes⟩], none, actor, none⟩

/-- (`retract!`) The request of one retraction. -/
def retractRequest {V : Type} (proposition : V) (actor : Option V) : CommitRequest V :=
  ⟨[⟨some .retract, proposition, none, none, none, none⟩], none, actor, none⟩

/-- (`CommitOperation`) An operation of a frame, before it is known to be of a term. -/
structure ValueOperation where
  action : Action
  proposition : Value

/-- The operation of a store that the operation is, if its texts have no unpaired surrogate. -/
def ValueOperation.operation? (o : ValueOperation) : Option CommitOperation :=
  (o.proposition.term?.bind Term.asTriple).map (⟨o.action, ·⟩)

/-- (`canonical-term!`) At any value. -/
def canonicalValue : Value → Except Fault Value
  | .triple t1 t2 t3 => do
    let c1 ← canonicalValue t1
    let c2 ← canonicalValue t2
    let c3 ← canonicalValue t3
    .ok (.triple c1 c2 c3)
  | .int n => do
    let v ← requireI64 n "Int atom"
    .ok (.int v)
  | .instant epochSeconds nanos => do
    let v ← requireI64 epochSeconds "Instant epoch seconds"
    if 0 ≤ nanos ∧ nanos < 1000000000 then .ok (.instant v nanos)
    else .error ⟨⟨"invalid-instant"⟩, "fram: instant nanoseconds must be in [0, 1000000000)"⟩
  | .other => .error ⟨⟨"invalid-term"⟩, "value is outside Term"⟩
  | value => .ok value

/-- (`commit-operation!`) At an operation of a request. -/
def commitOperationOf (operation : OperationRequest Value) : Except Fault ValueOperation :=
  if operation.proposition.isTriple = false then
    .error ⟨⟨"invalid-commit-operation"⟩, "operation proposition must be a Triple"⟩
  else do
    let canonical ← canonicalValue operation.proposition
    match operation.action with
    | some action => .ok ⟨action, canonical⟩
    | none => .error ⟨⟨"invalid-commit-operation"⟩, "operation action must be :assert or :retract"⟩

/-- (`current-transaction`) -/
def currentTransaction (db : Db) : Except Fault Triple := transactionCoordinate db.spaceId (currentSequence db.termStore)

/-- (`validate-base`) -/
def validateBase (db : Db) (base : Option Value) : Except Fault Unit :=
  if truthy base = false then .ok ()
  else
    let base := base.getD .other
    if base.isTransactionCoordinate = false then
      .error ⟨⟨"invalid-base"⟩, "OCC base must be a transaction-coordinate Triple"⟩
    else if base.t1 ≠ .string (utf16 db.spaceId) then
      .error ⟨⟨"space-mismatch"⟩, "OCC base belongs to a different SpaceId"⟩
    else .ok ()

/-- (`validate-occurrence-reference!`) -/
def validateOccurrenceReference (db : Db) (coordinate : Option Value) (field : String) : Except Fault Unit :=
  if truthy coordinate = false then .ok ()
  else
    let coordinate := coordinate.getD .other
    if coordinate.isOccurrenceCoordinate = false then
      .error ⟨⟨"invalid-occurrence-coordinate"⟩, field ++ " must be an occurrence-coordinate Triple"⟩
    else if coordinate.t1.t1 ≠ .string (utf16 db.spaceId) then
      .error ⟨⟨"space-mismatch"⟩, "occurrence coordinate belongs to another SpaceId"⟩
    else do
      let known ← occurrences db.termStore
      if known.any fun o => decide (coordinate = Value.ofTerm o.coordinate.term) then .ok ()
      else .error ⟨⟨"unknown-occurrence"⟩, "occurrence coordinate does not resolve"⟩

/-- The check that a time that is given is an instant. -/
def requireInstant (recordedAt : Option Value) (message : String) : Except Fault Unit :=
  if truthy recordedAt = true ∧ recordedAt.any (·.isInstant) = false then .error ⟨⟨"invalid-instant"⟩, message⟩ else .ok ()

/-- An assertion about an occurrence or a transaction. -/
def metadataOperation (source : Triple) (predicate : String) (value : Value) : ValueOperation :=
  ⟨.assert, .triple (Value.ofTerm source.term) (Value.ofTerm (.kw predicate)) value⟩

/-- What is recorded of the operation at an ordinal, in the order of `occurrence-metadata-order`. -/
def occurrenceMetadata (db : Db) (tx : Triple) (ordinal : Nat) (operation : OperationRequest Value) :
    Except Fault (List ValueOperation) := do
  let source ← occurrenceCoordinate tx ordinal
  let recordedAt ← operation.recordedAt.mapM canonicalValue
  let assertedBy ← operation.assertedBy.mapM canonicalValue
  let sourceFrame ← operation.sourceFrame.mapM canonicalValue
  validateOccurrenceReference db operation.supersedes ":supersedes"
  requireInstant operation.recordedAt "operation recorded-at must be a typed Instant"
  .ok (((recordedAt.map (metadataOperation source "kernel/recorded-at")).toList ++
    (assertedBy.map (metadataOperation source "kernel/asserted-by")).toList) ++
      ((sourceFrame.map (metadataOperation source "kernel/source-frame")).toList ++
        (operation.supersedes.map (metadataOperation source "kernel/supersedes")).toList))

/-- What is recorded of the operations from an ordinal on. -/
def occurrencesMetadata (db : Db) (tx : Triple) : Nat → List (OperationRequest Value) → Except Fault (List ValueOperation)
  | _, [] => .ok []
  | ordinal, operation :: operations => do
    let first ← occurrenceMetadata db tx ordinal operation
    let more ← occurrencesMetadata db tx (ordinal + 1) operations
    .ok (first ++ more)

/-- A value of the request that is recorded of its transaction. -/
def transactionMetadata (tx : Triple) (predicate : String) (value : Option Value) : Except Fault (List ValueOperation) :=
  if truthy value then do
    let canonical ← canonicalValue (value.getD .other)
    .ok [metadataOperation tx predicate canonical]
  else .ok []

/-- (`metadata-operations`) The check that the actor is a term comes when it is one already, so it is left out. -/
def metadataOperations (db : Db) (tx : Triple) (request : CommitRequest Value) : Except Fault (List ValueOperation) := do
  let recordedAt ← transactionMetadata tx "kernel/recorded-at" request.recordedAt
  let actor ← transactionMetadata tx "kernel/asserted-by" request.actor
  requireInstant request.recordedAt "recorded-at must be a typed Instant"
  let perSource ← occurrencesMetadata db tx 0 request.operations
  .ok (perSource ++ (recordedAt ++ actor))

/-! ## Committing a request -/

/-- What the checks of a request find: that its base is not current, or the operations that it asks for and those recorded of them. -/
inductive Checked where
  | conflict (expected : Value) (current : Triple)
  | operations (source metadata : List ValueOperation)

/-- The base of a request, where it has one and that is not the current transaction. -/
def staleBase (base : Option Value) (current : Triple) : Option Value :=
  if truthy base ∧ base ≠ some (Value.ofTerm current.term) then base else none

/-- What `commit!` does before it appends. -/
def checkRequest (db : Db) (request : CommitRequest Value) : Except Fault Checked := do
  requireMutationReady db
  validateBase db request.base
  let current ← currentTransaction db
  match staleBase request.base current with
  | some base => .ok (.conflict base current)
  | none =>
    if request.operations.isEmpty then
      .error ⟨⟨"invalid-transaction-frame"⟩, "transaction requires a nonempty operation vector"⟩
    else if db.tornTail.isSome then
      .error ⟨⟨"torn-tail-repair-required"⟩, "FRAMLOG has a torn trailing frame; writer authority must repair it"⟩
    else do
      let tx ← transactionCoordinate db.spaceId db.termStore.nextSequence
      let source ← request.operations.mapM commitOperationOf
      let metadata ← metadataOperations db tx request
      .ok (.operations source metadata)

/-- What `commit!` answers. -/
inductive CommitAnswer where
  | conflict (expected : Value) (current : Triple)
  | committed (transaction : Triple) (occurrences : List OperationOccurrence) (withdrawals : List Withdrawal) (operationCount : Nat)

/-- What a commit does: the database after it, the bytes that it appends to the log, the frames that it leaves for its cohort to
append, and its answer or what it throws. -/
structure CommitOutcome where
  db : Db
  appended : Bytes
  deferred : List TransactionFrame
  answer : Except Fault CommitAnswer

/-- The store takes a frame, and what is answered of it: the occurrences of the first `count` operations and their withdrawals. -/
def committedAnswer (Γ : Host) (s : TermStore) (frame : TransactionFrame) (count : Nat) : Except Fault (TermStore × CommitAnswer) := do
  let (s', transaction) ← replayTransactionLong Γ s frame
  let events ← (List.range' s.operations.length count).mapM (operationOccurrenceAt s')
  let all ← withdrawals s'
  let withdrawals := all.filter fun w => events.any fun e => e.coordinate.eqv w.retraction.coordinate
  .ok (s', .committed transaction events withdrawals frame.operations.length)

/-- The failure that writing operations ends in, of which one is not a term. -/
def writeFault (operations : List ValueOperation) : Fault :=
  match operations.mapM fun o => measureValue integerMax integerMax maxTermDepth o.proposition 0 0 with
  | .error fault => tripleFault fault
  | .ok _ => ⟨⟨"invalid-utf8"⟩, "FRAMLOG Term contains invalid UTF-8"⟩

/-- What a commit does that fails when its frame is on its way to the log, or behind that. -/
def commitFenced (Γ : Host) (J : Gzip) (log : Bytes) (db : Db) (appended : Bytes) (deferred : List TransactionFrame)
    (cause : Fault) : CommitOutcome :=
  let db := fenceAndReconcile Γ J (log ++ appended) db cause
  ⟨db, appended, deferred, .error (ambiguousCommit db)⟩

/-- (`append-and-replay!`, and what `commit!` makes of it) A frame of terms, the first `count` of whose operations are asked for. -/
def appendAndReplay (Γ : Host) (J : Gzip) (log : Bytes) (db : Db) (deferring : Bool) (frame : TransactionFrame) (count : Nat) :
    CommitOutcome :=
  let (appended, _, failure) := if deferring then ([], [], none) else appendFramesDurable J (db.deflate.getD false) [frame]
  let deferred := if deferring then [frame] else []
  match failure with
  | some cause => commitFenced Γ J log db appended deferred cause
  | none =>
    match committedAnswer Γ db.termStore frame count with
    | .error cause => commitFenced Γ J log db appended deferred cause
    | .ok (s, answer) => ⟨{ db with termStore := s }, appended, deferred, .ok answer⟩

/-- (`commit!`) A request, checked. -/
def commitRequest (Γ : Host) (J : Gzip) (log : Bytes) (db : Db) (deferring : Bool) (request : CommitRequest Value) : CommitOutcome :=
  match checkRequest db request with
  | .error fault => ⟨db, [], [], .error fault⟩
  | .ok (.conflict expected current) => ⟨db, [], [], .ok (.conflict expected current)⟩
  | .ok (.operations source metadata) =>
    match (source ++ metadata).mapM ValueOperation.operation? with
    | none => commitFenced Γ J log db [] [] (writeFault (source ++ metadata))
    | some operations => appendAndReplay Γ J log db deferring ⟨db.termStore.nextSequence, operations⟩ source.length

end Fram.Database
