import Fram.Lib.BinarySearch
import Fram.Slots

/-!
# The term store

`src/fram/store.bgl`: terms are interned to handles, transactions append operation rows over handles, and liveness is kept
incrementally: each proposition handle has a bucket of the positions of its live assertions, and each operation records the
position it withdrew.

A store of the source is a bundle of mutable cells; a store here is the value in those cells, and a mutating function returns the
new value. A position that is absent (the source's `-1`) is `none`.
-/

namespace Fram

/-- The value of a store. -/
structure TermStore where
  spaceId : String
  nextSequence : Int
  atoms : List Atom
  triples : List TripleRow
  transactions : List TransactionRow
  operations : List OperationRow
  withdrawalTargets : List (Option Nat)
  activeBuckets : List ActiveBucket
  activeCells : List (List Nat)
  foldOpen : Bool
  atomSlots : TermSlots
  tripleSlots : TermSlots
  activeSlots : TermSlots
  deriving DecidableEq

/-- (`max-transaction-sequence`) The greatest sequence a replay accepts. -/
def maxTransactionSequence : Int := 9223372036854775806

/-- (`TransactionReplayResult`) What a replay answers. -/
structure TransactionReplayResult where
  ok : Bool
  code : Option Keyword
  message : Option String
  deriving DecidableEq

/-- (`transaction-replay-ok`) -/
def transactionReplayOk : TransactionReplayResult := ⟨true, none, none⟩

/-- (`transaction-replay-error`) -/
def transactionReplayError (code message : String) : TransactionReplayResult := ⟨false, some ⟨code⟩, some message⟩

/-- (`transaction-replay-unclassified-error`) -/
def transactionReplayUnclassifiedError : TransactionReplayResult := ⟨false, none, none⟩

/-- (`valid-space-id?`) -/
def validSpaceId (spaceId : String) : Bool := decide (0 < spaceId.length)

/-- (`new-term-store-sized`) An empty store, its tables sized for the numbers of rows expected. -/
def newTermStoreSized (spaceId : String) (expectedAtoms expectedTriples expectedBuckets : Nat) : Except Fault TermStore :=
  if validSpaceId spaceId then
    .ok {
      spaceId := spaceId, nextSequence := 1, atoms := [], triples := [], transactions := [], operations := []
      withdrawalTargets := [], activeBuckets := [], activeCells := [], foldOpen := false
      atomSlots := freshSlots (termSlotsWidthFor expectedAtoms)
      tripleSlots := freshSlots (termSlotsWidthFor expectedTriples)
      activeSlots := freshSlots (termSlotsWidthFor expectedBuckets) }
  else
    .error ⟨⟨"invalid-space-id"⟩, "fram: TermStore requires a non-empty SpaceId"⟩

/-- (`new-term-store`) -/
def newTermStore (spaceId : String) : Except Fault TermStore := newTermStoreSized spaceId 0 0 0

/-- (`new-term-store-for-log`) An empty store sized for a log of some bytes. -/
def newTermStoreForLog (spaceId : String) (logBytes : Nat) : Except Fault TermStore :=
  newTermStoreSized spaceId (logBytes / 64) (logBytes / 32) (logBytes / 128)

/-- (`current-sequence`) The sequence of the newest transaction, `0` before the first. -/
def currentSequence (s : TermStore) : Int := s.nextSequence - 1

/-! ## Handles -/

/-- (`atom-handle`) -/
def atomHandle (position : Nat) : Int := 2 * position

/-- (`triple-handle`) -/
def tripleHandle (position : Nat) : Int := 2 * position + 1

/-- (`atom-handle?`) -/
def isAtomHandle (handle : Int) : Bool := handle % 2 == 0

/-- (`handle-position`) -/
def handlePosition (handle : Int) : Nat := (handle / 2).toNat

/-- (`triple-handle-shape?`) -/
def tripleHandleShape (handle : Int) : Bool := decide (0 ≤ handle) && handle % 2 == 1

/-- The hash of a triple row. -/
def TripleRow.hash (Γ : Host) (row : TripleRow) : Int := Γ.hashRow row.t1 row.t2 row.t3

/-- (`find-atom-position`) -/
def findAtomPosition (Γ : Host) (atoms : List Atom) (slots : TermSlots) (value : Atom) : Option Nat :=
  findPosition atoms slots (Γ.hashAtom value) fun row => row.eqv value

/-- (`find-triple-position`) -/
def findTriplePosition (Γ : Host) (rows : List TripleRow) (slots : TermSlots) (value : TripleRow) : Option Nat :=
  findPosition rows slots (value.hash Γ) fun row => row == value

/-- (`intern-atom-handle!`, and the atoms of `intern-handle!`) The handle of an atom; the atom is added when it is not known. -/
def internAtom (Γ : Host) (s : TermStore) (value : Atom) : TermStore × Int :=
  match findAtomPosition Γ s.atoms s.atomSlots value with
  | some known => (s, atomHandle known)
  | none =>
    let atoms := s.atoms ++ [value]
    let slots := indexRow (atoms.map Γ.hashAtom) s.atomSlots (Γ.hashAtom value) s.atoms.length
    ({ s with atoms := atoms, atomSlots := slots }, atomHandle s.atoms.length)

/-- The handle of a triple row; the row is added when it is not known. -/
def internRow (Γ : Host) (s : TermStore) (value : TripleRow) : TermStore × Int :=
  match findTriplePosition Γ s.triples s.tripleSlots value with
  | some known => (s, tripleHandle known)
  | none =>
    let rows := s.triples ++ [value]
    let slots := indexRow (rows.map (·.hash Γ)) s.tripleSlots (value.hash Γ) s.triples.length
    ({ s with triples := rows, tripleSlots := slots }, tripleHandle s.triples.length)

/-- (`intern-handle!`) The handle of a term; its parts are interned first, left to right. -/
def internHandle (Γ : Host) (s : TermStore) : Term → TermStore × Int
  | .atom a => internAtom Γ s a
  | .triple t1 t2 t3 =>
    let (s1, h1) := internHandle Γ s t1
    let (s2, h2) := internHandle Γ s1 t2
    let (s3, h3) := internHandle Γ s2 t3
    internRow Γ s3 ⟨h1, h2, h3⟩

/-- (`valid-handle?`) -/
def validHandle (s : TermStore) (handle : Int) : Bool :=
  decide (0 ≤ handle) &&
    if isAtomHandle handle then
      decide (handlePosition handle < s.atoms.length)
    else
      decide (handlePosition handle < s.triples.length)

/-- The fault of a handle that names no term. -/
def invalidTermHandle : Fault := ⟨⟨"invalid-term-handle"⟩, "fram: term handle does not resolve"⟩

/-- (`intern-triple-handle!`) The handle of a triple over handles already interned. -/
def internTripleHandle (Γ : Host) (s : TermStore) (t1 t2 t3 : Int) : Except Fault (TermStore × Int) :=
  if validHandle s t1 && (validHandle s t2 && validHandle s t3) then
    .ok (internRow Γ s ⟨t1, t2, t3⟩)
  else
    .error invalidTermHandle

/-- The term of a handle, through at most `fuel` nested rows. -/
def resolveWithin (s : TermStore) : Nat → Int → Except Fault Term
  | 0, _ => .error invalidTermHandle
  | fuel + 1, handle =>
    if validHandle s handle then
      if isAtomHandle handle then
        match s.atoms[handlePosition handle]? with
        | some a => .ok (.atom a)
        | none => .error invalidTermHandle
      else
        match s.triples[handlePosition handle]? with
        | some row => do
          let t1 ← resolveWithin s fuel row.t1
          let t2 ← resolveWithin s fuel row.t2
          let t3 ← resolveWithin s fuel row.t3
          .ok (.triple t1 t2 t3)
        | none => .error invalidTermHandle
    else
      .error invalidTermHandle

/-- (`resolve-handle`) The term of a handle. A row names rows before it, so no chain of rows is longer than the rows. -/
def resolveHandle (s : TermStore) (handle : Int) : Except Fault Term := resolveWithin s (s.triples.length + 1) handle

/-- (`resolve-triple-handle`) The triple of a handle. -/
def resolveTripleHandle (s : TermStore) (handle : Int) : Except Fault Triple := do
  match (← resolveHandle s handle).asTriple with
  | some triple => .ok triple
  | none => .error ⟨⟨"invalid-operation-handle"⟩, "fram: operation handle does not resolve to Triple"⟩

/-- (`known-term-handle`) The handle of a term that is interned already. -/
def knownTermHandle (Γ : Host) (s : TermStore) : Term → Option Int
  | .atom a => (findAtomPosition Γ s.atoms s.atomSlots a).map atomHandle
  | .triple t1 t2 t3 =>
    match knownTermHandle Γ s t1, knownTermHandle Γ s t2, knownTermHandle Γ s t3 with
    | some h1, some h2, some h3 => (findTriplePosition Γ s.triples s.tripleSlots ⟨h1, h2, h3⟩).map tripleHandle
    | _, _, _ => none

/-! ## Live positions -/

/-- (`find-active-bucket-position`) -/
def findActiveBucketPosition (Γ : Host) (s : TermStore) (handle : Int) : Option Nat :=
  findPosition s.activeBuckets s.activeSlots (Γ.hashInt handle) fun bucket => handle == bucket.tripleHandle

/-- (`active-positions`) The positions of the live assertions of a handle: in a cell while a fold is open, else in the bucket. -/
def activePositions (Γ : Host) (s : TermStore) (handle : Int) : List Nat :=
  match findActiveBucketPosition Γ s handle with
  | some position =>
    if s.foldOpen then
      s.activeCells[position]?.getD []
    else
      (s.activeBuckets[position]?.map (·.positions)).getD []
  | none => []

/-- (`set-active-positions!`) -/
def setActivePositions (Γ : Host) (s : TermStore) (handle : Int) (positions : List Nat) : TermStore :=
  match findActiveBucketPosition Γ s handle with
  | some known =>
    if s.foldOpen then
      { s with activeCells := s.activeCells.set known positions }
    else
      { s with activeBuckets := s.activeBuckets.set known ⟨handle, positions⟩ }
  | none =>
    let buckets := s.activeBuckets ++ [⟨handle, if s.foldOpen then [] else positions⟩]
    { s with
      activeBuckets := buckets
      activeCells := if s.foldOpen then s.activeCells ++ [positions] else s.activeCells
      activeSlots :=
        indexRow (buckets.map fun b => Γ.hashInt b.tripleHandle) s.activeSlots (Γ.hashInt handle) s.activeBuckets.length }

/-- (`open-fold!`) Live positions move from the buckets to cells. -/
def openFold (s : TermStore) : TermStore :=
  if s.foldOpen then
    s
  else
    { s with
      activeBuckets := s.activeBuckets.map fun b => ⟨b.tripleHandle, []⟩
      activeCells := s.activeBuckets.map (·.positions)
      foldOpen := true }

/-- (`close-fold!`) Live positions move from the cells back to the buckets. -/
def closeFold (s : TermStore) : TermStore :=
  if s.foldOpen then
    { s with
      activeBuckets := List.zipWith (fun b positions => ⟨b.tripleHandle, positions⟩) s.activeBuckets s.activeCells
      activeCells := []
      foldOpen := false }
  else
    s

/-- (`apply-operation-state!`) An assertion becomes live; a retraction withdraws the newest live assertion of its handle. -/
def applyOperationState (Γ : Host) (s : TermStore) (operationPosition : Nat) (row : OperationRow) : TermStore :=
  let active := activePositions Γ s row.tripleHandle
  match row.action with
  | .assert =>
    setActivePositions Γ { s with withdrawalTargets := s.withdrawalTargets ++ [none] } row.tripleHandle
      (active ++ [operationPosition])
  | .retract =>
    match active.getLast? with
    | none => { s with withdrawalTargets := s.withdrawalTargets ++ [none] }
    | some target =>
      setActivePositions Γ { s with withdrawalTargets := s.withdrawalTargets ++ [some target] } row.tripleHandle
        active.dropLast

/-! ## Transactions -/

/-- (`operation-handles!`) The handles of the propositions, interned in order. -/
def operationHandles (Γ : Host) (s : TermStore) (operations : List CommitOperation) : TermStore × List Int :=
  operations.foldl
    (fun (s, handles) operation =>
      let (s, handle) := internHandle Γ s operation.proposition.term
      (s, handles ++ [handle]))
    (s, [])

/-- One operation row at the end of the store. -/
def appendOperation (Γ : Host) (s : TermStore) (sequence : Int) (ordinal : Nat) (action : Action) (handle : Int) : TermStore :=
  let row : OperationRow := ⟨sequence, ordinal, action, handle⟩
  applyOperationState Γ { s with operations := s.operations ++ [row] } s.operations.length row

/-- The operation rows of a transaction, from an ordinal on. -/
def appendOperations (Γ : Host) (sequence : Int) : TermStore → Nat → List (Action × Int) → TermStore
  | s, _, [] => s
  | s, ordinal, (action, handle) :: rest =>
    appendOperations Γ sequence (appendOperation Γ s sequence ordinal action handle) (ordinal + 1) rest

/-- One transaction over handles: its row, its operation rows, and the next sequence. -/
def appendRows (Γ : Host) (s : TermStore) (sequence : Int) (rows : List (Action × Int)) : TermStore :=
  let row : TransactionRow := ⟨sequence, s.operations.length, rows.length⟩
  let appended := appendOperations Γ sequence { s with transactions := s.transactions ++ [row] } 0 rows
  { appended with nextSequence := sequence + 1 }

/-- (`append-valid-transaction!`) -/
def appendValidTransaction (Γ : Host) (s : TermStore) (sequence : Int) (operations : List CommitOperation) : TermStore :=
  let (s, handles) := operationHandles Γ s operations
  appendRows Γ s sequence ((operations.map (·.action)).zip handles)

/-- The refusal of a transaction without operations. -/
def emptyTransaction : TransactionReplayResult :=
  transactionReplayError "invalid-transaction-frame" "fram: transaction requires at least one valid operation"

/-- The refusal of a sequence that does not advance. -/
def nonmonotonicSequence : TransactionReplayResult :=
  transactionReplayError "nonmonotonic-transaction-sequence" "fram: transaction sequence must advance within its space"

/-- (`append-transaction-result!`) -/
def appendTransactionResult (Γ : Host) (s : TermStore) (sequence : Int) (operations : List CommitOperation) :
    TermStore × TransactionReplayResult :=
  if operations.isEmpty then
    (s, emptyTransaction)
  else if sequence < s.nextSequence then
    (s, nonmonotonicSequence)
  else if maxTransactionSequence < sequence then
    (s, transactionReplayUnclassifiedError)
  else
    (appendValidTransaction Γ s sequence operations, transactionReplayOk)

/-- (`append-transaction!`) -/
def appendTransaction (Γ : Host) (s : TermStore) (sequence : Int) (operations : List CommitOperation) :
    Except Fault (TermStore × Triple) :=
  if operations.isEmpty then
    .error ⟨⟨"invalid-transaction-frame"⟩, "fram: transaction requires at least one valid operation"⟩
  else if sequence < s.nextSequence then
    .error ⟨⟨"nonmonotonic-transaction-sequence"⟩, "fram: transaction sequence must advance within its space"⟩
  else do
    let final := appendValidTransaction Γ s sequence operations
    let coordinate ← transactionCoordinate final.spaceId sequence
    .ok (final, coordinate)

/-- (`commit-transaction!`) -/
def commitTransaction (Γ : Host) (s : TermStore) (operations : List CommitOperation) : Except Fault (TermStore × Triple) :=
  appendTransaction Γ s s.nextSequence operations

/-- The fault of a frame with a negative sequence or no operations. -/
def invalidTransactionFrame : Fault := ⟨⟨"invalid-transaction-frame"⟩, "fram: invalid transaction frame"⟩

/-- (`replay-transaction-result!`) -/
def replayTransactionResult (Γ : Host) (s : TermStore) (frame : TransactionFrame) : TermStore × TransactionReplayResult :=
  if 0 ≤ frame.sequence ∧ frame.operations.isEmpty = false then
    appendTransactionResult Γ s frame.sequence frame.operations
  else
    (s, transactionReplayError "invalid-transaction-frame" "fram: invalid transaction frame")

/-- (`append-replayed-transaction!`) A transaction of a frame walked off the wire: its propositions are interned already. -/
def appendReplayedTransaction (Γ : Host) (s : TermStore) (sequence : Int) (actions : List Action) (handles : List Int) :
    TermStore × TransactionReplayResult :=
  if actions.isEmpty = true ∨ actions.length ≠ handles.length then
    (s, emptyTransaction)
  else if sequence < s.nextSequence then
    (s, nonmonotonicSequence)
  else if maxTransactionSequence < sequence then
    (s, transactionReplayUnclassifiedError)
  else
    (appendRows Γ s sequence (actions.zip handles), transactionReplayOk)

/-- (`replay-transaction!`) -/
def replayTransaction (Γ : Host) (s : TermStore) (frame : TransactionFrame) : Except Fault (TermStore × Triple) :=
  if 0 ≤ frame.sequence ∧ frame.operations.isEmpty = false then
    appendTransaction Γ s frame.sequence frame.operations
  else
    .error invalidTransactionFrame

/-- (`replay-transaction!`) The same where the next sequence is a number of 64 bits: `inc` throws at the last of them. -/
def replayTransactionLong (Γ : Host) (s : TermStore) (frame : TransactionFrame) : Except Fault (TermStore × Triple) := do
  let replayed ← replayTransaction Γ s frame
  if maxTransactionSequence < frame.sequence then .error ⟨⟨"ArithmeticException"⟩, "integer overflow"⟩ else .ok replayed

/-! ## Reading history -/

/-- (`nth`) An element of a vector; past its end the host throws. -/
def nth {α : Type} (values : List α) (position : Nat) : Except Fault α :=
  match values[position]? with
  | some value => .ok value
  | none => .error ⟨⟨"index-out-of-bounds"⟩, "index is out of bounds"⟩

/-- (`occurrence-at`) The coordinate of the operation at a position. -/
def occurrenceAt (s : TermStore) (operationPosition : Nat) : Except Fault Triple := do
  let row ← nth s.operations operationPosition
  let transaction ← transactionCoordinate s.spaceId row.txSequence
  occurrenceCoordinate transaction row.ordinal

/-- (`operation-occurrence-at`) The occurrence of the operation at a position. -/
def operationOccurrenceAt (s : TermStore) (operationPosition : Nat) : Except Fault OperationOccurrence := do
  let row ← nth s.operations operationPosition
  let occurrence ← occurrenceAt s operationPosition
  let proposition ← resolveTripleHandle s row.tripleHandle
  operationOccurrence occurrence row.action proposition

/-- (`first-transaction-after`) The position of the first transaction past a sequence. -/
def firstTransactionAfter (transactions : List TransactionRow) (sequence : Int) : Nat :=
  BinarySearch.prefixEnd (fun middle => transactions[middle]?.any fun row => decide (row.sequence ≤ sequence))
    transactions.length

/-- The frame of a transaction row, its propositions resolved. -/
def frameOfRow (s : TermStore) (row : TransactionRow) : Except Fault TransactionFrame := do
  let rows := (s.operations.drop row.firstOperation.toNat).take row.operationCount.toNat
  let operations ← rows.mapM fun operation => do
    let proposition ← resolveTripleHandle s operation.tripleHandle
    .ok (⟨operation.action, proposition⟩ : CommitOperation)
  .ok ⟨row.sequence, operations⟩

/-- (`transaction-frames-between`) The frames of the transactions past one sequence and up to another. -/
def transactionFramesBetween (s : TermStore) (lowerExclusive upperInclusive : Int) : Except Fault (List TransactionFrame) :=
  let first := firstTransactionAfter s.transactions lowerExclusive
  let stop := firstTransactionAfter s.transactions upperInclusive
  ((s.transactions.drop first).take (stop - first)).mapM (frameOfRow s)

/-- (`lower-bound-position`) The index of the first position that is not below the target. -/
def lowerBoundPosition (positions : List Nat) (target : Nat) : Nat :=
  BinarySearch.prefixEnd (fun middle => positions[middle]?.any fun position => decide (position < target)) positions.length

/-- (`occurrences`) All operations, in commit order. -/
def occurrences (s : TermStore) : Except Fault (List OperationOccurrence) :=
  (List.range s.operations.length).mapM (operationOccurrenceAt s)

/-- The withdrawal of the operation at a position, if it withdrew an assertion. -/
def withdrawalAt (s : TermStore) (position : Nat) : Except Fault (Option Withdrawal) := do
  match ← nth s.withdrawalTargets position with
  | none => .ok none
  | some target => do
    let retraction ← operationOccurrenceAt s position
    let assertion ← operationOccurrenceAt s target
    .ok (some (← withdrawal retraction assertion))

/-- (`withdrawals`) The retractions that withdrew an assertion, in commit order. -/
def withdrawals (s : TermStore) : Except Fault (List Withdrawal) := do
  let found ← (List.range s.operations.length).mapM (withdrawalAt s)
  .ok found.reduceOption

/-- (`operation-live?`) The operation at a position asserts, and its position is among the live ones of its handle. -/
def operationLive (Γ : Host) (s : TermStore) (position : Nat) (row : OperationRow) : Bool :=
  decide (row.action = .assert) &&
    let positions := activePositions Γ s row.tripleHandle
    decide (positions[lowerBoundPosition positions position]? = some position)

/-- The positions of the live operations, in commit order. -/
def livePositions (Γ : Host) (s : TermStore) : List Nat :=
  (List.range s.operations.length).filter fun position => s.operations[position]?.any (operationLive Γ s position)

/-- (`live-occurrences`) The live assertions, in commit order. -/
def liveOccurrences (Γ : Host) (s : TermStore) : Except Fault (List OperationOccurrence) :=
  (livePositions Γ s).mapM (operationOccurrenceAt s)

/-- (`live-propositions`) The propositions of the live assertions, in commit order. -/
def livePropositions (Γ : Host) (s : TermStore) : Except Fault (List Triple) :=
  (livePositions Γ s).mapM fun position => do
    let row ← nth s.operations position
    resolveTripleHandle s row.tripleHandle

end Fram
