import Fram.Frames

/-!
# Snapshots of a query

`src/fram/native_query_ops.bgl`: the store that a query at an earlier version reads. A read that fails leaves its first error in
its context.
-/

namespace Fram

/-- (`ReadError`) -/
structure ReadError where
  code : Keyword
  message : String
  deriving DecidableEq

/-- (`ReadContext`) The first error of a read, when there is one. -/
abbrev ReadContext := Option ReadError

/-- (`record-read-error!`) -/
def recordReadError (context : ReadContext) (code : Keyword) (message : String) : ReadContext :=
  match context with
  | none => some ⟨code, message⟩
  | some error => some error

/-- The code of a failed step of a read, that of the step itself when it has one. -/
def readFailureCode (code : Option Keyword) : Keyword := code.getD ⟨"rpc/native-query-failed"⟩

/-- (`snapshot-root!`, its loop) The frames replayed one after another over a copy; on a failure the root is answered. -/
def replayRemaining (Γ : Host) (context : ReadContext) (root : TermStore) : TermStore → List TransactionFrame →
    ReadContext × TermStore
  | copy, [] => (context, copy)
  | copy, frame :: frames =>
    let (copy, result) := replayTransactionResult Γ copy frame
    if result.ok then replayRemaining Γ context root copy frames
    else (recordReadError context (readFailureCode result.code) "native read operation failed", root)

/-- (`snapshot-root!`) The store as it was at a version. -/
def snapshotRoot (Γ : Host) (context : ReadContext) (root : TermStore) (version : Int) : Except Fault (ReadContext × TermStore) :=
  let head := currentSequence root
  if version < 0 ∨ head < version then
    .ok (recordReadError context ⟨"query-invalid-snapshot"⟩ "query snapshot is outside available history", root)
  else if version = head then .ok (context, root)
  else do
    let framesResult ← transactionFramesBetweenResult root (-1) version
    if framesResult.ok = false then
      .ok (recordReadError context (readFailureCode framesResult.code) "native read operation failed", root)
    else do
      let copy ← newTermStore root.spaceId
      .ok (replayRemaining Γ context root copy framesResult.frames)

end Fram
