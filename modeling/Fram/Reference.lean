import Fram.Types
import Fram.Lib.History

/-!
# The reference history

What a store is for, without handles, buckets or tables: a list of transaction frames, read as a log of operations. A retraction
withdraws the newest earlier assertion that is still live and whose proposition is equal to its own under the host's `=`; a
retraction that finds none does nothing. `src/fram/store.bgl` is compared with these definitions, none of which is translated
from it.
-/

namespace Fram

/-- One operation of a history: where it stands, what it does, and to what. -/
structure LoggedOperation where
  sequence : Int
  ordinal : Nat
  action : Action
  proposition : Triple
  deriving DecidableEq

/-- Operations under a sequence, numbered from an ordinal on. -/
def loggedFrom (sequence : Int) : Nat → List CommitOperation → List LoggedOperation
  | _, [] => []
  | ordinal, operation :: operations =>
    ⟨sequence, ordinal, operation.action, operation.proposition⟩ :: loggedFrom sequence (ordinal + 1) operations

/-- The operations of a frame, numbered in order. -/
def TransactionFrame.logged (frame : TransactionFrame) : List LoggedOperation := loggedFrom frame.sequence 0 frame.operations

/-- The operations of all frames, in commit order. -/
def logOf (frames : List TransactionFrame) : List LoggedOperation := frames.flatMap (·.logged)

/-- A logged operation as an operation on propositions. -/
def LoggedOperation.op (e : LoggedOperation) : History.Op Triple := ⟨decide (e.action = .assert), e.proposition⟩

/-- What a log amounts to: the assertions that stand, and what each operation withdrew. -/
def reading (log : List LoggedOperation) : History.Reading Triple := History.run Triple.eqv (log.map (·.op))

/-- A logged operation as an occurrence of a space. -/
def LoggedOperation.occurrence (spaceId : String) (e : LoggedOperation) : OperationOccurrence :=
  ⟨coordinateOf spaceId e.sequence e.ordinal, e.action, e.proposition⟩

namespace Reference

/-- All operations, in commit order. -/
def occurrences (spaceId : String) (log : List LoggedOperation) : List OperationOccurrence := log.map (·.occurrence spaceId)

/-- The retraction at a position with the assertion it withdrew. -/
def withdrawalAt (spaceId : String) (log : List LoggedOperation) (position : Nat) : Option Withdrawal := do
  let target ← (reading log).targets[position]?.join
  let retraction ← (occurrences spaceId log)[position]?
  let assertion ← (occurrences spaceId log)[target]?
  some ⟨retraction, assertion⟩

/-- The retractions that withdrew an assertion, in commit order. -/
def withdrawals (spaceId : String) (log : List LoggedOperation) : List Withdrawal :=
  (List.range log.length).filterMap (withdrawalAt spaceId log)

/-- The positions of the assertions that stand, in commit order. -/
def livePositions (log : List LoggedOperation) : List Nat := (reading log).live.map (·.1)

/-- The assertions that stand, in commit order. -/
def liveOccurrences (spaceId : String) (log : List LoggedOperation) : List OperationOccurrence :=
  (livePositions log).filterMap ((occurrences spaceId log)[·]?)

/-- The propositions of the assertions that stand, in commit order. -/
def livePropositions (log : List LoggedOperation) : List Triple := (reading log).live.map (·.2)

end Reference

/-- The two occurrences differ at most in the sign of float zeros of their propositions. -/
def OperationOccurrence.same (o o' : OperationOccurrence) : Prop :=
  o.coordinate = o'.coordinate ∧ o.action = o'.action ∧ o.proposition.same o'.proposition

/-- The two withdrawals differ at most in the sign of float zeros. -/
def Withdrawal.same (w w' : Withdrawal) : Prop := w.retraction.same w'.retraction ∧ w.assertion.same w'.assertion

/-- The two operations differ at most in the sign of float zeros. -/
def CommitOperation.same (o o' : CommitOperation) : Prop := o.action = o'.action ∧ o.proposition.same o'.proposition

/-- The two frames differ at most in the sign of float zeros. -/
def TransactionFrame.same (f f' : TransactionFrame) : Prop :=
  f.sequence = f'.sequence ∧ List.Forall₂ CommitOperation.same f.operations f'.operations

@[simp] theorem logOf_nil : logOf [] = [] := rfl

@[simp] theorem logOf_append (frames frames' : List TransactionFrame) : logOf (frames ++ frames') = logOf frames ++ logOf frames' := by
  simp [logOf]

@[simp] theorem logOf_singleton (frame : TransactionFrame) : logOf [frame] = frame.logged := by
  simp [logOf]

@[simp] theorem length_loggedFrom (sequence : Int) (ordinal : Nat) (operations : List CommitOperation) :
    (loggedFrom sequence ordinal operations).length = operations.length := by
  induction operations generalizing ordinal with
  | nil => rfl
  | cons o operations ih => simp [loggedFrom, ih]

@[simp] theorem loggedFrom_proposition (sequence : Int) (ordinal : Nat) (operations : List CommitOperation) :
    (loggedFrom sequence ordinal operations).map (·.proposition) = operations.map (·.proposition) := by
  induction operations generalizing ordinal with
  | nil => rfl
  | cons o operations ih => simp [loggedFrom, ih]

end Fram
