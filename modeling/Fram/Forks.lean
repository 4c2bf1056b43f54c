import Fram.Store

/-!
# Forks of a store

`fork-store` of `src/fram/store.bgl`. A store of the source is a record of cells. A fork owns fresh cells over the same values, and
fresh nested cells of live positions, but goes on sharing the slot tables: whoever adds a row adds its position to the table in
place. So the functions of `Store` are given again here over a heap, where the tables and the nested cells stand by reference. The
other cells of a record belong to one store and are its fields.
-/

namespace Fram

/-- The shared state: the slot tables, and the nested cells of live positions. -/
structure Heap where
  tables : List TermSlots
  cells : List (List Nat)
  deriving DecidableEq

/-- (`TermStore`) The record of a store: its own values, and references to its tables and its nested cells. -/
structure StoreRefs where
  spaceId : String
  nextSequence : Int
  atoms : List Atom
  triples : List TripleRow
  transactions : List TransactionRow
  operations : List OperationRow
  withdrawalTargets : List (Option Nat)
  activeBuckets : List ActiveBucket
  activeCells : List Nat
  foldOpen : Bool
  atomSlots : Nat
  tripleSlots : Nat
  activeSlots : Nat
  deriving DecidableEq

/-- A store and the heap that it stands in. -/
structure Held where
  heap : Heap
  refs : StoreRefs
  deriving DecidableEq

namespace Heap

/-- The table at a reference. -/
def table (heap : Heap) (ref : Nat) : TermSlots := heap.tables[ref]?.getD []

/-- The nested cell at a reference. -/
def cell (heap : Heap) (ref : Nat) : List Nat := heap.cells[ref]?.getD []

/-- (`slot-add!`) One more position in a slot of a table, in place. -/
def slotAdd (heap : Heap) (ref slot position : Nat) : Heap :=
  { heap with tables := heap.tables.modify ref fun slots => Fram.slotAdd slots slot position }

/-- A fresh table. -/
def addTable (heap : Heap) (slots : TermSlots) : Heap × Nat :=
  ({ heap with tables := heap.tables ++ [slots] }, heap.tables.length)

/-- Fresh nested cells. -/
def addCells (heap : Heap) (values : List (List Nat)) : Heap × List Nat :=
  ({ heap with cells := heap.cells ++ values }, (List.range values.length).map (heap.cells.length + ·))

/-- (`index-atom-term!`, `index-triple-term!`) The row at a position is added to a table in place; a table that is then full is left
as it is for a fresh one. -/
def indexRow (heap : Heap) (ref : Nat) (hashes : List Int) (hash : Int) (position : Nat) : Heap × Nat :=
  let width := (heap.table ref).length
  let indexed := heap.slotAdd ref (slotOf hash width) position
  if slotLoad * (indexed.table ref).length < hashes.length then indexed.addTable (buildSlots hashes (2 * width))
  else (indexed, ref)

end Heap

/-- The value of a store: what its cells hold. -/
def Held.read (h : Held) : TermStore :=
  ⟨h.refs.spaceId, h.refs.nextSequence, h.refs.atoms, h.refs.triples, h.refs.transactions, h.refs.operations,
    h.refs.withdrawalTargets, h.refs.activeBuckets, h.refs.activeCells.map h.heap.cell, h.refs.foldOpen,
    h.heap.table h.refs.atomSlots, h.heap.table h.refs.tripleSlots, h.heap.table h.refs.activeSlots⟩

/-! ## Writes in place -/

namespace Held

/-- (`new-term-store-sized`) -/
def newTermStoreSized (spaceId : String) (expectedAtoms expectedTriples expectedBuckets : Nat) : Except Fault Held :=
  if validSpaceId spaceId then
    .ok ⟨⟨[freshSlots (termSlotsWidthFor expectedAtoms), freshSlots (termSlotsWidthFor expectedTriples),
      freshSlots (termSlotsWidthFor expectedBuckets)], []⟩, ⟨spaceId, 1, [], [], [], [], [], [], [], false, 0, 1, 2⟩⟩
  else
    .error ⟨⟨"invalid-space-id"⟩, "fram: TermStore requires a non-empty SpaceId"⟩

/-- (`intern-handle!`, its atoms) -/
def internAtom (Γ : Host) (h : Held) (value : Atom) : Held × Int :=
  match findAtomPosition Γ h.refs.atoms (h.heap.table h.refs.atomSlots) value with
  | some known => (h, atomHandle known)
  | none =>
    let atoms := h.refs.atoms ++ [value]
    let (heap, slots) := h.heap.indexRow h.refs.atomSlots (atoms.map Γ.hashAtom) (Γ.hashAtom value) h.refs.atoms.length
    (⟨heap, { h.refs with atoms := atoms, atomSlots := slots }⟩, atomHandle h.refs.atoms.length)

/-- (`intern-handle!`, its rows) -/
def internRow (Γ : Host) (h : Held) (value : TripleRow) : Held × Int :=
  match findTriplePosition Γ h.refs.triples (h.heap.table h.refs.tripleSlots) value with
  | some known => (h, tripleHandle known)
  | none =>
    let rows := h.refs.triples ++ [value]
    let (heap, slots) := h.heap.indexRow h.refs.tripleSlots (rows.map (·.hash Γ)) (value.hash Γ) h.refs.triples.length
    (⟨heap, { h.refs with triples := rows, tripleSlots := slots }⟩, tripleHandle h.refs.triples.length)

/-- (`intern-handle!`) -/
def internHandle (Γ : Host) (h : Held) : Term → Held × Int
  | .atom a => internAtom Γ h a
  | .triple t1 t2 t3 =>
    let (s1, h1) := internHandle Γ h t1
    let (s2, h2) := internHandle Γ s1 t2
    let (s3, h3) := internHandle Γ s2 t3
    internRow Γ s3 ⟨h1, h2, h3⟩

/-- (`intern-triple-handle!`) -/
def internTripleHandle (Γ : Host) (h : Held) (t1 t2 t3 : Int) : Except Fault (Held × Int) :=
  if validHandle h.read t1 && (validHandle h.read t2 && validHandle h.read t3) then
    .ok (internRow Γ h ⟨t1, t2, t3⟩)
  else
    .error invalidTermHandle

/-- (`set-active-positions!`) -/
def setActivePositions (Γ : Host) (h : Held) (handle : Int) (positions : List Nat) : Held :=
  match findActiveBucketPosition Γ h.read handle with
  | some known =>
    if h.refs.foldOpen then
      { h with heap := { h.heap with cells := h.heap.cells.set (h.refs.activeCells[known]?.getD h.heap.cells.length) positions } }
    else
      { h with refs := { h.refs with activeBuckets := h.refs.activeBuckets.set known ⟨handle, positions⟩ } }
  | none =>
    let buckets := h.refs.activeBuckets ++ [⟨handle, if h.refs.foldOpen then [] else positions⟩]
    let (heap, cells) := h.heap.addCells (if h.refs.foldOpen then [positions] else [])
    let (heap, slots) :=
      heap.indexRow h.refs.activeSlots (buckets.map fun b => Γ.hashInt b.tripleHandle) (Γ.hashInt handle) h.refs.activeBuckets.length
    ⟨heap, { h.refs with activeBuckets := buckets, activeCells := h.refs.activeCells ++ cells, activeSlots := slots }⟩

/-- (`open-fold!`) -/
def openFold (h : Held) : Held :=
  if h.refs.foldOpen then
    h
  else
    let (heap, cells) := h.heap.addCells (h.refs.activeBuckets.map (·.positions))
    ⟨heap, { h.refs with
      activeBuckets := h.refs.activeBuckets.map fun b => ⟨b.tripleHandle, []⟩
      activeCells := cells
      foldOpen := true }⟩

/-- (`close-fold!`) -/
def closeFold (h : Held) : Held :=
  if h.refs.foldOpen then
    { h with refs := { h.refs with
      activeBuckets :=
        List.zipWith (fun b positions => ⟨b.tripleHandle, positions⟩) h.refs.activeBuckets (h.refs.activeCells.map h.heap.cell)
      activeCells := []
      foldOpen := false } }
  else
    h

/-- (`apply-operation-state!`) -/
def applyOperationState (Γ : Host) (h : Held) (operationPosition : Nat) (row : OperationRow) : Held :=
  let active := activePositions Γ h.read row.tripleHandle
  let withTarget (target : Option Nat) : Held :=
    { h with refs := { h.refs with withdrawalTargets := h.refs.withdrawalTargets ++ [target] } }
  match row.action with
  | .assert => setActivePositions Γ (withTarget none) row.tripleHandle (active ++ [operationPosition])
  | .retract =>
    match active.getLast? with
    | none => withTarget none
    | some target => setActivePositions Γ (withTarget (some target)) row.tripleHandle active.dropLast

/-- (`operation-handles!`) -/
def operationHandles (Γ : Host) (h : Held) (operations : List CommitOperation) : Held × List Int :=
  operations.foldl
    (fun (h, handles) operation =>
      let (h, handle) := internHandle Γ h operation.proposition.term
      (h, handles ++ [handle]))
    (h, [])

/-- One operation row at the end of the store. -/
def appendOperation (Γ : Host) (h : Held) (sequence : Int) (ordinal : Nat) (action : Action) (handle : Int) : Held :=
  let row : OperationRow := ⟨sequence, ordinal, action, handle⟩
  applyOperationState Γ { h with refs := { h.refs with operations := h.refs.operations ++ [row] } } h.refs.operations.length row

/-- The operation rows of a transaction, from an ordinal on. -/
def appendOperations (Γ : Host) (sequence : Int) : Held → Nat → List (Action × Int) → Held
  | h, _, [] => h
  | h, ordinal, (action, handle) :: rest =>
    appendOperations Γ sequence (appendOperation Γ h sequence ordinal action handle) (ordinal + 1) rest

/-- One transaction over handles. -/
def appendRows (Γ : Host) (h : Held) (sequence : Int) (rows : List (Action × Int)) : Held :=
  let row : TransactionRow := ⟨sequence, h.refs.operations.length, rows.length⟩
  let appended :=
    appendOperations Γ sequence { h with refs := { h.refs with transactions := h.refs.transactions ++ [row] } } 0 rows
  { appended with refs := { appended.refs with nextSequence := sequence + 1 } }

/-- (`append-valid-transaction!`) -/
def appendValidTransaction (Γ : Host) (h : Held) (sequence : Int) (operations : List CommitOperation) : Held :=
  let (h, handles) := operationHandles Γ h operations
  appendRows Γ h sequence ((operations.map (·.action)).zip handles)

/-- (`append-transaction-result!`) -/
def appendTransactionResult (Γ : Host) (h : Held) (sequence : Int) (operations : List CommitOperation) :
    Held × TransactionReplayResult :=
  if operations.isEmpty then (h, emptyTransaction)
  else if sequence < h.refs.nextSequence then (h, nonmonotonicSequence)
  else if maxTransactionSequence < sequence then (h, transactionReplayUnclassifiedError)
  else (appendValidTransaction Γ h sequence operations, transactionReplayOk)

/-- (`append-transaction!`) -/
def appendTransaction (Γ : Host) (h : Held) (sequence : Int) (operations : List CommitOperation) : Except Fault (Held × Triple) :=
  if operations.isEmpty then
    .error ⟨⟨"invalid-transaction-frame"⟩, "fram: transaction requires at least one valid operation"⟩
  else if sequence < h.refs.nextSequence then
    .error ⟨⟨"nonmonotonic-transaction-sequence"⟩, "fram: transaction sequence must advance within its space"⟩
  else do
    let final := appendValidTransaction Γ h sequence operations
    let coordinate ← transactionCoordinate final.refs.spaceId sequence
    .ok (final, coordinate)

/-- (`commit-transaction!`) -/
def commitTransaction (Γ : Host) (h : Held) (operations : List CommitOperation) : Except Fault (Held × Triple) :=
  appendTransaction Γ h h.refs.nextSequence operations

/-- (`replay-transaction-result!`) -/
def replayTransactionResult (Γ : Host) (h : Held) (frame : TransactionFrame) : Held × TransactionReplayResult :=
  if 0 ≤ frame.sequence ∧ frame.operations.isEmpty = false then
    appendTransactionResult Γ h frame.sequence frame.operations
  else
    (h, transactionReplayError "invalid-transaction-frame" "fram: invalid transaction frame")

/-- (`append-replayed-transaction!`) -/
def appendReplayedTransaction (Γ : Host) (h : Held) (sequence : Int) (actions : List Action) (handles : List Int) :
    Held × TransactionReplayResult :=
  if actions.isEmpty = true ∨ actions.length ≠ handles.length then (h, emptyTransaction)
  else if sequence < h.refs.nextSequence then (h, nonmonotonicSequence)
  else if maxTransactionSequence < sequence then (h, transactionReplayUnclassifiedError)
  else (appendRows Γ h sequence (actions.zip handles), transactionReplayOk)

/-- (`replay-transaction!`) -/
def replayTransaction (Γ : Host) (h : Held) (frame : TransactionFrame) : Except Fault (Held × Triple) :=
  if 0 ≤ frame.sequence ∧ frame.operations.isEmpty = false then
    appendTransaction Γ h frame.sequence frame.operations
  else
    .error invalidTransactionFrame

/-! ## Forks -/

/-- (`fork-position-cells`) Fresh nested cells with the values of others. -/
def forkPositionCells (heap : Heap) (cells : List Nat) : Heap × List Nat := heap.addCells (cells.map heap.cell)

/-- (`fork-store`) A store with the values of another; the slot tables are those of the other. -/
def forkStore (h : Held) : Held :=
  let (heap, cells) := forkPositionCells h.heap h.refs.activeCells
  ⟨heap, { h.refs with activeCells := cells }⟩

end Held

end Fram
