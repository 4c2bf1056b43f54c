import Fram.Session

/-!
# The transaction builder

`src/fram/txn.bgl`: operations gathered under the coordinate of the next transaction, the allocator of minted coordinates, and the
compiler of single-cardinality updates. A builder of the source is a cell; here a mutating function returns the new builder.
-/

namespace Fram

namespace Txn

/-- (`mint-ordinal`) The second part of a minted coordinate. -/
def mintOrdinal : Term := .kw "mint-ordinal"

/-- (`Builder`) -/
structure Builder where
  coordinate : Triple
  operations : List CommitOperation
  minted : Nat
  deriving DecidableEq

/-- (`open`) A builder pinned to the next sequence of the store. -/
def openBuilder (s : TermStore) : Except Fault Builder := do
  let coordinate ← transactionCoordinate s.spaceId s.nextSequence
  pure ⟨coordinate, [], 0⟩

/-- (`mint-coordinate`) -/
def mintCoordinate (transaction : Triple) (ordinal : Int) : Except Fault Triple :=
  if isTransactionCoordinate transaction.term = true ∧ 0 ≤ ordinal then .ok ⟨transaction.term, mintOrdinal, .int ordinal⟩
  else
    .error ⟨⟨"invalid-mint-coordinate"⟩, "fram: a mint coordinate requires a transaction coordinate and non-negative ordinal"⟩

/-- (`mint!`) -/
def mint (builder : Builder) : Except Fault (Builder × Triple) := do
  let minted ← mintCoordinate builder.coordinate builder.minted
  pure ({ builder with minted := builder.minted + 1 }, minted)

/-- (`append!`) The builder with more operations, and the occurrence coordinate that the last of them will carry. -/
def append (builder : Builder) (appended : List CommitOperation) : Except Fault (Builder × Triple) :=
  if appended.isEmpty then .error ⟨⟨"empty-operation-vector"⟩, "fram: an empty operation vector has no write identity"⟩
  else do
    let occurrence ← occurrenceCoordinate builder.coordinate (builder.operations.length + (appended.length - 1 : Int))
    pure ({ builder with operations := builder.operations ++ appended }, occurrence)

/-- (`assert!`) -/
def assert (builder : Builder) (proposition : Triple) : Except Fault (Builder × Triple) := append builder [⟨.assert, proposition⟩]

/-- (`retract!`) -/
def retract (builder : Builder) (proposition : Triple) : Except Fault (Builder × Triple) := append builder [⟨.retract, proposition⟩]

/-- (`compile-single-update`) A retraction for each live occurrence of the subject and the predicate, newest first, then the assertion. -/
def compileSingleUpdate (Γ : Host) (view : Rotation) (subject predicate value : Term) : List CommitOperation :=
  ((byT12 Γ view subject predicate).reverse.map fun event => ⟨.retract, event.proposition⟩) ++
    [⟨.assert, ⟨subject, predicate, value⟩⟩]

/-- (`update-single!`) -/
def updateSingle (Γ : Host) (builder : Builder) (view : Rotation) (subject predicate value : Term) : Except Fault (Builder × Triple) :=
  append builder (compileSingleUpdate Γ view subject predicate value)

/-- (`commit!`) -/
def commit (Γ : Host) (s : TermStore) (builder : Builder) : Except Fault (TermStore × Triple) :=
  if builder.coordinate.t1.eqv (.str s.spaceId) = false then
    .error ⟨⟨"transaction-space-mismatch"⟩, "fram: transaction belongs to a different space"⟩
  else if builder.coordinate.t3.eqv (.int s.nextSequence) = false then
    .error ⟨⟨"transaction-sequence-drift"⟩, "fram: the store advanced under this transaction"⟩
  else commitTransaction Γ s builder.operations

/-! ## Steps of a transaction -/

/-- What a caller does with a builder before it commits. -/
inductive Step where
  | mint
  | assert (proposition : Triple)
  | retract (proposition : Triple)
  | updateSingle (subject predicate value : Term)
  deriving DecidableEq

/-- A step returns the coordinate that the builder gives for it. -/
def Step.apply (Γ : Host) (view : Rotation) (builder : Builder) : Step → Except Fault (Builder × Triple)
  | .mint => Txn.mint builder
  | .assert proposition => Txn.assert builder proposition
  | .retract proposition => Txn.retract builder proposition
  | .updateSingle subject predicate value => Txn.updateSingle Γ builder view subject predicate value

/-- The builder after steps, and the coordinates they returned. -/
def steps (Γ : Host) (view : Rotation) (builder : Builder) : List Step → Except Fault (Builder × List Triple)
  | [] => .ok (builder, [])
  | step :: rest => do
    let (builder, coordinate) ← step.apply Γ view builder
    let (builder, coordinates) ← steps Γ view builder rest
    pure (builder, coordinate :: coordinates)

end Txn

end Fram
