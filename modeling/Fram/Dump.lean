import Fram.Store

/-!
# Dumps of a store

The end of `src/fram/store.bgl`: a dump holds the rows of a store and none of the state kept beside them. Loading one checks the
rows, indexes them again and folds the operations again from the first.
-/

namespace Fram

/-- (`term-store-dump-version`) -/
def termStoreDumpVersion : Int := 2

/-- (`TermStoreDump`) The rows of a store. -/
structure TermStoreDump where
  version : Int
  spaceId : String
  nextSequence : Int
  atoms : List Atom
  triples : List TripleRow
  transactions : List TransactionRow
  operations : List OperationRow
  deriving DecidableEq

/-- (`dump-term-store`) -/
def dumpTermStore (s : TermStore) : TermStoreDump :=
  ⟨termStoreDumpVersion, s.spaceId, s.nextSequence, s.atoms, s.triples, s.transactions, s.operations⟩

/-! ## Checks -/

/-- (`valid-atom-row?`) A row is compared with itself, so a NaN is not valid. -/
def validAtomRow (row : Atom) : Bool := row.eqv row

/-- (`valid-prior-handle?`) The handle names an atom, or a triple row before a position. -/
def validPriorHandle (atomCount triplePosition : Nat) (handle : Int) : Bool :=
  decide (0 ≤ handle) &&
    if isAtomHandle handle then decide (handlePosition handle < atomCount)
    else decide (handlePosition handle < triplePosition)

/-- (`valid-triple-rows?`) Each row names atoms and rows before it. -/
def validTripleRows (atomCount : Nat) (rows : List TripleRow) : Bool :=
  rows.zipIdx.all fun (row, position) =>
    validPriorHandle atomCount position row.t1 &&
      (validPriorHandle atomCount position row.t2 && validPriorHandle atomCount position row.t3)

/-- (`valid-dump-operation?`) -/
def validDumpOperation (tripleCount : Nat) (sequence ordinal : Int) (row : OperationRow) : Bool :=
  decide (sequence = row.txSequence) && (decide (ordinal = row.ordinal) &&
    (decide (0 ≤ row.tripleHandle) && (!isAtomHandle row.tripleHandle && decide (handlePosition row.tripleHandle < tripleCount))))

/-- (`valid-operation-slice?`) The operations of a slice are those of a transaction, numbered in order. -/
def validOperationSlice (tripleCount : Nat) (sequence : Int) (slice : List OperationRow) : Bool :=
  slice.zipIdx.all fun (row, ordinal) => validDumpOperation tripleCount sequence ordinal row

/-- (`valid-history-rows?`, from an operation on) The transactions own the operations slice by slice, their sequences advance, and
the next sequence follows the last. -/
def validHistoryRowsFrom (operations : List OperationRow) (tripleCount : Nat) (nextSequence : Int) :
    Nat → Int → List TransactionRow → Bool
  | position, previous, [] =>
    decide (position = operations.length) &&
      if previous < 0 then decide (nextSequence = 1) else decide (0 < nextSequence) && decide (nextSequence - 1 = previous)
  | position, previous, row :: rows =>
    if previous < row.sequence ∧ row.firstOperation = position ∧ 0 < row.operationCount ∧
        row.operationCount ≤ operations.length - row.firstOperation ∧
        validOperationSlice tripleCount row.sequence ((operations.drop position).take row.operationCount.toNat) = true then
      validHistoryRowsFrom operations tripleCount nextSequence (position + row.operationCount.toNat) row.sequence rows
    else false

/-- (`valid-history-rows?`) -/
def validHistoryRows (transactions : List TransactionRow) (operations : List OperationRow) (tripleCount : Nat)
    (nextSequence : Int) : Bool :=
  validHistoryRowsFrom operations tripleCount nextSequence 0 (-1) transactions

/-! ## Loading -/

/-- The operations folded from the first, over a store that has no live position. -/
def refold (Γ : Host) (s : TermStore) (operations : List OperationRow) : TermStore :=
  operations.zipIdx.foldl (fun s (row, position) => applyOperationState Γ s position row) s

/-- (`rebuild-operation-state!`) -/
def rebuildOperationState (Γ : Host) (s : TermStore) : TermStore :=
  let base := openFold { s with
    withdrawalTargets := [], activeBuckets := [], activeCells := [], foldOpen := false
    activeSlots := freshSlots (termSlotsWidthFor s.operations.length) }
  closeFold (refold Γ base s.operations)

/-- The refusal of a dump whose rows are not those of a store. -/
def invalidTermStoreDump : Fault := ⟨⟨"invalid-term-store-dump"⟩, "fram: invalid TermStore dump"⟩

/-- (`load-term-store-result!`) The store of a dump. -/
def loadTermStoreResult (Γ : Host) (ctx : TermStore) (data : TermStoreDump) : Except Fault TermStore :=
  if termStoreDumpVersion ≠ data.version then .error invalidTermStoreDump
  else if (validSpaceId data.spaceId && (decide (1 ≤ data.nextSequence) && (data.atoms.all validAtomRow &&
      (validTripleRows data.atoms.length data.triples &&
        validHistoryRows data.transactions data.operations data.triples.length data.nextSequence)))) = false then
    .error invalidTermStoreDump
  else if ctx.spaceId ≠ data.spaceId then
    .error ⟨⟨"space-mismatch"⟩, "fram: TermStore dump belongs to a different space"⟩
  else
    .ok (rebuildOperationState Γ {
      spaceId := data.spaceId, nextSequence := data.nextSequence, atoms := data.atoms, triples := data.triples
      transactions := data.transactions, operations := data.operations
      withdrawalTargets := [], activeBuckets := [], activeCells := [], foldOpen := false
      atomSlots := buildSlots (data.atoms.map Γ.hashAtom) (termSlotsWidthFor data.atoms.length)
      tripleSlots := buildSlots (data.triples.map (·.hash Γ)) (termSlotsWidthFor data.triples.length)
      activeSlots := freshSlots initialSlots })

/-- (`validated-store!`) The checks of a load, made of a store that is already built. -/
def validatedStore (s : TermStore) : Except Fault TermStore :=
  if (validSpaceId s.spaceId && (decide (1 ≤ s.nextSequence) && (s.atoms.all validAtomRow &&
      (validTripleRows s.atoms.length s.triples &&
        validHistoryRows s.transactions s.operations s.triples.length s.nextSequence)))) = true then
    .ok s
  else .error invalidTermStoreDump

end Fram
