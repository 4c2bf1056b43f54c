import Fram.Dump
import Fram.Store

/-!
# Checked reads of frames

`transaction-frames-between-result` of `src/fram/store.bgl`: before a range of frames is read back, all rows of the store are
checked, and a store whose rows do not pass is answered with an error in place of frames.

The section of `src/fram/store.bgl` that a query reads history through: the operations of a window of sequences, the posting list of
each proposition handle, and the rows that the `occurrence` and `withdrawal` relations are made of.
-/

namespace Fram

/-- (`TransactionFramesResult`) Frames, or the code and message of an error. -/
structure TransactionFramesResult where
  ok : Bool
  frames : List TransactionFrame
  code : Option Keyword
  message : Option String
  deriving DecidableEq

/-- (`transaction-frames-ok`) -/
def transactionFramesOk (frames : List TransactionFrame) : TransactionFramesResult := ⟨true, frames, none, none⟩

/-- (`transaction-frames-error`) -/
def transactionFramesError (code message : String) : TransactionFramesResult := ⟨false, [], some ⟨code⟩, some message⟩

/-! ## Checks -/

/-- (`operation-handle-error`) The error of the first operation whose handle names no triple. -/
def operationHandleError (s : TermStore) : Option TransactionFramesResult :=
  s.operations.findSome? fun operation =>
    let handle := operation.tripleHandle
    if handle < 0 then some (transactionFramesError "invalid-term-handle" "fram: term handle does not resolve")
    else if isAtomHandle handle then
      if handlePosition handle < s.atoms.length then
        some (transactionFramesError "invalid-operation-handle" "fram: operation handle does not resolve to Triple")
      else some (transactionFramesError "invalid-term-handle" "fram: term handle does not resolve")
    else if s.triples.length ≤ handlePosition handle then
      some (transactionFramesError "invalid-term-handle" "fram: term handle does not resolve")
    else none

/-- (`valid-atom-rows?`) -/
def validAtomRows (rows : List Atom) : Bool := rows.all validAtomRow

/-- (`history-sequence-error`, from a previous sequence on) -/
def historySequenceErrorFrom : Int → List TransactionRow → Option TransactionFramesResult
  | _, [] => none
  | previous, row :: rows =>
    if row.sequence < 0 then some (transactionFramesError "invalid-transaction-frame" "fram: invalid transaction frame")
    else if row.sequence ≤ previous then
      some (transactionFramesError "nonmonotonic-transaction-sequence" "fram: transaction sequence must advance within its space")
    else historySequenceErrorFrom row.sequence rows

/-- (`history-sequence-error`) -/
def historySequenceError (transactions : List TransactionRow) : Option TransactionFramesResult :=
  historySequenceErrorFrom 0 transactions

/-! ## Reads without checks -/

/-- (`resolve-valid-handle`, through at most `fuel` nested rows) The term of a handle that is taken to be valid. -/
def resolveValidWithin (s : TermStore) : Nat → Int → Except Fault Term
  | 0, _ => .error invalidTermHandle
  | fuel + 1, handle =>
    if isAtomHandle handle then do
      let a ← nth s.atoms (handlePosition handle)
      .ok (.atom a)
    else do
      let row ← nth s.triples (handlePosition handle)
      let t1 ← resolveValidWithin s fuel row.t1
      let t2 ← resolveValidWithin s fuel row.t2
      let t3 ← resolveValidWithin s fuel row.t3
      .ok (.triple t1 t2 t3)

/-- (`resolve-valid-handle`) -/
def resolveValidHandle (s : TermStore) (handle : Int) : Except Fault Term :=
  resolveValidWithin s (s.triples.length + 1) handle

/-- (`resolve-valid-triple-handle`) -/
def resolveValidTripleHandle (s : TermStore) (handle : Int) : Except Fault Triple := do
  let row ← nth s.triples (handlePosition handle)
  let t1 ← resolveValidHandle s row.t1
  let t2 ← resolveValidHandle s row.t2
  let t3 ← resolveValidHandle s row.t3
  .ok ⟨t1, t2, t3⟩

/-- The operation of a row that is taken to be valid, its proposition resolved. -/
def validCommitOperation (s : TermStore) (operation : OperationRow) : Except Fault CommitOperation := do
  let proposition ← resolveValidTripleHandle s operation.tripleHandle
  .ok ⟨operation.action, proposition⟩

/-- (`valid-transaction-frame-at`) The frame of the transaction at a position. -/
def validTransactionFrameAt (s : TermStore) (transactionPosition : Nat) : Except Fault TransactionFrame := do
  let row ← nth s.transactions transactionPosition
  let operations ← (List.range row.operationCount.toNat).mapM fun offset => do
    validCommitOperation s (← nth s.operations (row.firstOperation.toNat + offset))
  .ok ⟨row.sequence, operations⟩

/-- (`valid-transaction-frames-between`) -/
def validTransactionFramesBetween (s : TermStore) (lowerExclusive upperInclusive : Int) :
    Except Fault (List TransactionFrame) :=
  let first := firstTransactionAfter s.transactions lowerExclusive
  let stop := firstTransactionAfter s.transactions upperInclusive
  (List.range (stop - first)).mapM fun offset => validTransactionFrameAt s (first + offset)

/-- (`transaction-frames-between-result`) The frames of the transactions past one sequence and up to another, when all rows of the
store are valid. -/
def transactionFramesBetweenResult (s : TermStore) (lowerExclusive upperInclusive : Int) :
    Except Fault TransactionFramesResult :=
  if upperInclusive < lowerExclusive then
    .ok (transactionFramesError "invalid-transaction-frame" "fram: transaction frame range is invalid")
  else if validSpaceId s.spaceId = false then
    .ok (transactionFramesError "invalid-space-id" "fram: TermStore requires a non-empty SpaceId")
  else if s.nextSequence < 1 then
    .ok (transactionFramesError "invalid-transaction-frame" "fram: invalid transaction frame")
  else
    match operationHandleError s with
    | some error => .ok error
    | none =>
      if validAtomRows s.atoms = false then
        .ok (transactionFramesError "invalid-term" "fram: triple contains a value outside Term")
      else if validTripleRows s.atoms.length s.triples = false then
        .ok (transactionFramesError "invalid-term-handle" "fram: term handle does not resolve")
      else
        match historySequenceError s.transactions with
        | some error => .ok error
        | none =>
          if validHistoryRows s.transactions s.operations s.triples.length s.nextSequence = false then
            .ok (transactionFramesError "invalid-transaction-frame" "fram: invalid transaction frame")
          else do
            .ok (transactionFramesOk (← validTransactionFramesBetween s lowerExclusive upperInclusive))

/-! ## Operations by window and by proposition -/

/-- The first operation of the transaction at a position, or the end of the operations past the last transaction. -/
def operationBoundary (s : TermStore) (position : Nat) : Nat :=
  match s.transactions[position]? with
  | some row => row.firstOperation.toNat
  | none => s.operations.length

/-- (`operation-range-bounds`) The positions of the operations past one sequence and up to another, as a range. -/
def operationRangeBounds (s : TermStore) (lowerExclusive upperInclusive : Int) : Nat × Nat :=
  (operationBoundary s (firstTransactionAfter s.transactions lowerExclusive),
    operationBoundary s (firstTransactionAfter s.transactions upperInclusive))

/-- (`operation-postings`) The positions of the operations on each proposition handle. -/
def operationPostings (s : TermStore) (handle : Int) : List Nat :=
  (List.range s.operations.length).filter fun position => s.operations[position]?.any fun row => decide (row.tripleHandle = handle)

/-- (`exact-occurrence-position`) The position of the operation that a coordinate names, or -1. -/
def exactOccurrencePosition (s : TermStore) (coordinate : Term) : Int :=
  if isOccurrenceCoordinate coordinate then
    match occurrenceParts coordinate with
    | some (space, sequence, ordinal) =>
      match s.transactions[firstTransactionAfter s.transactions (sequence - 1)]? with
      | some row =>
        if space = s.spaceId ∧ sequence = row.sequence ∧ ordinal < row.operationCount then row.firstOperation + ordinal else -1
      | none => -1
    | none => -1
  else -1

/-- (`subvec`) The elements from one position up to another; where these do not bound a part of the vector, the host throws. -/
def subvec {α : Type} (values : List α) (start stop : Nat) : Except Fault (List α) :=
  if start ≤ stop ∧ stop ≤ values.length then .ok ((values.drop start).take (stop - start))
  else .error ⟨⟨"index-out-of-bounds"⟩, "index is out of bounds"⟩

/-- (`operation-candidate-positions`) The positions of a window that may hold a coordinate or a proposition. -/
def operationCandidatePositions (Γ : Host) (s : TermStore) (lowerExclusive upperInclusive : Int) (coordinate proposition : Option Term)
    (postings : Int → List Nat) : Except Fault (List Nat) :=
  let (start, stop) := operationRangeBounds s lowerExclusive upperInclusive
  let exact := coordinate.map (exactOccurrencePosition s)
  let handle := proposition.bind (knownTermHandle Γ s)
  let posted := (handle.map postings).getD []
  let first := lowerBoundPosition posted start
  let last := lowerBoundPosition posted stop
  match exact, proposition with
  | some exact, _ =>
    let candidates := if (start : Int) ≤ exact ∧ exact < stop then [exact.toNat] else []
    if proposition.isSome then
      candidates.filterM fun position => do
        let row ← nth s.operations position
        pure (handle == some row.tripleHandle)
    else .ok candidates
  | none, some _ => if handle.isSome then subvec posted first last else .ok []
  | none, none => .ok ((List.range stop).drop start)

/-- An action as the row of an occurrence shows it. -/
def Action.term : Action → Term
  | .assert => .kw "assert"
  | .retract => .kw "retract"

/-- The row of an occurrence. -/
def OperationOccurrence.row (o : OperationOccurrence) : List Term := [o.coordinate.term, o.action.term, o.proposition.term]

/-- (`occurrence-tuple-at`) The row of the operation at a position. -/
def occurrenceTupleAt (s : TermStore) (position : Nat) : Except Fault (List Term) := do
  let occurrence ← operationOccurrenceAt s position
  pure occurrence.row

/-- (`withdrawal-tuples-between`) The rows of the withdrawals whose retraction is in a window. -/
def withdrawalTuplesBetween (s : TermStore) (lowerExclusive upperInclusive : Int) : Except Fault (List (List Term)) := do
  let (start, stop) := operationRangeBounds s lowerExclusive upperInclusive
  let found ← ((List.range stop).drop start).mapM fun position => do
    match ← nth s.withdrawalTargets position with
    | none => pure none
    | some target => do
      let retraction ← operationOccurrenceAt s position
      let assertion ← operationOccurrenceAt s target
      pure (some [retraction.coordinate.term, assertion.coordinate.term])
  pure found.reduceOption

end Fram
