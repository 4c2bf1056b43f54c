import Fram.BranchStore

/-!
# Branch revisions

The revision of a branch in `src/fram/branch.bclj`: a committed point is named by its SpaceId, the sealed segments before its tail, the
durable prefix of the tail, and the sequence of its last transaction. Its identity is the digest of a preimage in which every text
follows its length.
-/

namespace Fram

open Lines (Text)
open LittleEndian

namespace BranchRevision

/-- (`branch-revision-format`) -/
def branchRevisionFormat : Text := "frambranch-revision/v1".toList

/-- What a revision names. -/
structure Content where
  spaceId : Text
  segments : List Text
  tailPrefixSha256 : Text
  tailPrefixByteCount : Int
  sequence : Int
  deriving DecidableEq

/-- (`BranchRevision`) -/
structure Revision where
  content : Content
  identity : Text
  deriving DecidableEq

/-- (`revision-write-u32-le!`) The low four bytes of a count. -/
def revisionWriteU32Le (value : Nat) : Bytes := toBytes 4 value

/-- (`revision-write-i64-le!`) The host shifts no integer that is not a long. -/
def revisionWriteI64Le (value : Int) : Except Fault Bytes :=
  if -2 ^ 63 ≤ value ∧ value < 2 ^ 63 then .ok (toBytes 8 (natOfI64 value))
  else .error ⟨⟨"IllegalArgumentException"⟩, "bit operation not supported for: class clojure.lang.BigInt"⟩

/-- (`revision-write-text!`) The host has no array of more bytes than an int counts. -/
def revisionWriteText (value : Text) : Except Fault Bytes :=
  let bytes := utf8Encode (String.ofList value)
  if bytes.length < 2 ^ 31 then .ok (revisionWriteU32Le bytes.length ++ bytes)
  else .error ⟨⟨"OutOfMemoryError"⟩, "Required length exceeds implementation limit"⟩

/-- (`branch-revision-preimage!`) -/
def branchRevisionPreimage (content : Content) : Except Fault Bytes := do
  let format ← revisionWriteText branchRevisionFormat
  let spaceId ← revisionWriteText content.spaceId
  let segments ← content.segments.mapM revisionWriteText
  let byteCount ← revisionWriteI64Le content.tailPrefixByteCount
  let tailPrefix ← revisionWriteText content.tailPrefixSha256
  let sequence ← revisionWriteI64Le content.sequence
  pure (format ++ (spaceId ++ (revisionWriteU32Le content.segments.length ++ (segments.flatten ++
    (byteCount ++ (tailPrefix ++ sequence))))))

/-- (`branch-revision!`) -/
def branchRevision (sha256 : Database.Digest) (content : Content) : Except Fault Revision :=
  if content.spaceId.length = 0 then branchFail "branch revision SpaceId must be nonempty".toList "invalid-branch-revision"
  else if maxChainLength < content.segments.length then
    branchFail "branch revision chain exceeds the supported segment count".toList "invalid-branch-revision"
  else if !content.segments.all validSegmentName then
    branchFail "branch revision contains an invalid sealed segment identity".toList "invalid-branch-revision"
  else if content.segments.length ≠ content.segments.dedup.length then
    branchFail "branch revision lists the same sealed segment twice".toList "invalid-branch-revision"
  else if !validSegmentName content.tailPrefixSha256 then
    branchFail "branch revision tail prefix is not a SHA-256 hex digest".toList "invalid-branch-revision"
  else if content.tailPrefixByteCount < 0 then
    branchFail "branch revision tail prefix byte count must not be negative".toList "invalid-branch-revision"
  else if content.sequence < 0 then
    branchFail "branch revision sequence must not be negative".toList "invalid-branch-revision"
  else do
    let preimage ← branchRevisionPreimage content
    pure ⟨content, "sha256:".toList ++ sha256.sha256Hex preimage⟩

end BranchRevision

end Fram
