import Fram.Lib.Decimal
import Fram.Lib.Lines
import Fram.Log

/-!
# Branch refs

`src/fram/branch.bclj`: the ref of a branch names the sealed segments that are folded before its tail. A ref is stored as lines of
text, with a checksum of the lines before the last. The chain law (`chainFault`) compares the ref with what the folded files turned
out to hold.

Texts of the host are lists of characters here; a text with a lone surrogate is not modelled, since refs are written and read as
strict UTF-8.
-/

namespace Fram

open Lines (Text splitLines unlines split)

/-- (`ref-format`) -/
def refFormat : Text := "framref/v1".toList

/-- (`max-chain-length`) -/
def maxChainLength : Nat := 64

/-- (`SegmentRecord`) Both sequences are 0 when the segment holds no transaction. -/
structure SegmentRecord where
  sha256 : Text
  startSequence : Int
  endSequence : Int
  byteCount : Int
  deriving DecidableEq

/-- (`RefDocument`) -/
structure RefDocument where
  spaceId : Text
  segments : List SegmentRecord
  deriving DecidableEq

/-- (`ChainMember`) What a folded chain member turned out to be. -/
structure ChainMember where
  startSequence : Int
  endSequence : Int
  byteCount : Int
  continuation : Bool
  spaceId : Text
  torn : Bool
  deriving DecidableEq

/-- (`ForkPlan`) -/
structure ForkPlan where
  document : RefDocument
  sealed : SegmentRecord
  forkSequence : Int
  deriving DecidableEq

/-- (`ForkMarker`) -/
structure ForkMarker where
  parent : Text
  child : Text
  segment : Text
  deriving DecidableEq

/-- (`fail` of `branch.bclj`) -/
def branchFail {α : Type} (message : Text) (code : String) : Except Fault α := .error ⟨⟨code⟩, String.ofList message⟩

/-- A digit of a digest: `[0-9a-f]`. -/
def isHexDigit (c : Char) : Bool := c.isDigit || (decide ('a' ≤ c) && decide (c ≤ 'f'))

/-- (`valid-segment-name?`) -/
def validSegmentName (value : Text) : Bool := decide (value.length = 64) && value.all isHexDigit

/-- (`crc32-of`) -/
def crc32Of (text : Text) : Nat := crc32 (utf8Encode (String.ofList text))

/-- `(format "%08x" value)` -/
def hex8 (value : Nat) : Text := List.leftpad 8 '0' (Nat.toDigits 16 value)

/-- `(str value)` of an integer. -/
def intText (value : Int) : Text := (toString value).toList

/-! ## Printing -/

/-- The fields of a segment's line. -/
def segmentFields (segment : SegmentRecord) : List Text :=
  ["segment".toList, segment.sha256, intText segment.startSequence, intText segment.endSequence, intText segment.byteCount]

/-- (`segment-line`) The line of a segment, without the line feed. -/
def segmentLine (segment : SegmentRecord) : Text := [' '].intercalate (segmentFields segment)

/-- The lines that the checksum of a ref covers. -/
def bodyLines (document : RefDocument) : List Text :=
  [refFormat, "space ".toList ++ document.spaceId] ++ document.segments.map segmentLine

/-- The last line of a ref, over the lines before it. -/
def crcLine (lines : List Text) : Text := "crc ".toList ++ hex8 (crc32Of (unlines lines))

/-- (`print-ref`) -/
def printRef (document : RefDocument) : Text := unlines (bodyLines document ++ [crcLine (bodyLines document)])

/-! ## Parsing -/

/-- The text matches `0|[1-9][0-9]{0,17}`. -/
def isCount (value : Text) : Bool :=
  match value with
  | [] => false
  | c :: rest =>
    decide (value = ['0']) ||
      (decide ('1' ≤ c) && decide (c ≤ '9') && decide (rest.length ≤ 17) && rest.all Char.isDigit)

/-- (`parse-count`) -/
def parseCount (value label : Text) : Except Fault Int :=
  if isCount value then .ok (Decimal.value value)
  else branchFail ("branch ref ".toList ++ label ++ " is not a decimal count: ".toList ++ value) "invalid-branch-ref"

/-- (`parse-segment-line`) -/
def parseSegmentLine (line : Text) (known : List Text) : Except Fault SegmentRecord :=
  match split ' ' line with
  | [_, sha256, startText, endText, byteText] =>
    if !validSegmentName sha256 then
      branchFail ("branch ref segment name is not a SHA-256 hex digest: ".toList ++ sha256) "invalid-branch-ref"
    else if sha256 ∈ known then
      branchFail ("branch ref lists the same segment twice: ".toList ++ sha256) "invalid-branch-ref"
    else do
      let startSequence ← parseCount startText "segment start sequence".toList
      let endSequence ← parseCount endText "segment end sequence".toList
      if endSequence < startSequence then
        branchFail ("branch ref segment ends before it begins: ".toList ++ sha256) "invalid-branch-ref"
      else
        let byteCount ← parseCount byteText "segment byte count".toList
        pure ⟨sha256, startSequence, endSequence, byteCount⟩
  | _ => branchFail ("branch ref segment line is malformed: ".toList ++ line) "invalid-branch-ref"

/-- The loop of `parse-ref` over the lines between the space and the checksum. -/
def parseSegmentLines (known : List Text) : List Text → Except Fault (List SegmentRecord)
  | [] => .ok []
  | line :: lines =>
    if !("segment ".toList.isPrefixOf line) then
      branchFail ("branch ref contains an unknown line: ".toList ++ line) "invalid-branch-ref"
    else do
      let segment ← parseSegmentLine line known
      let segments ← parseSegmentLines (segment.sha256 :: known) lines
      pure (segment :: segments)

/-- (`parse-ref`) -/
def parseRef (text : Text) : Except Fault RefDocument :=
  let lines := splitLines text
  let first := lines.getD 0 []
  let second := lines.getD 1 []
  let last := lines.getLastD []
  if lines.length < 3 then
    branchFail "branch ref is missing its format, space, or CRC line".toList "invalid-branch-ref"
  else if refFormat ≠ first then
    branchFail ("branch ref format is unsupported: ".toList ++ first) "unsupported-branch-ref-version"
  else if !("space ".toList.isPrefixOf second) then branchFail "branch ref does not name its SpaceId".toList "invalid-branch-ref"
  else if !("crc ".toList.isPrefixOf last) then
    branchFail "branch ref does not end with its CRC line".toList "invalid-branch-ref"
  else
    let spaceId := second.drop 6
    let body := unlines lines.dropLast
    let stored := last.drop 4
    if spaceId.length = 0 then branchFail "branch ref SpaceId must be nonempty".toList "invalid-branch-ref"
    else if stored ≠ hex8 (crc32Of body) then branchFail "branch ref CRC does not match".toList "invalid-branch-ref"
    else do
      let segments ← parseSegmentLines [] (lines.dropLast.drop 2)
      if maxChainLength < segments.length then
        branchFail "branch ref chain exceeds the supported segment count".toList "invalid-branch-ref"
      else pure ⟨spaceId, segments⟩

/-- (`empty-ref`) -/
def emptyRef (spaceId : Text) : RefDocument := ⟨spaceId, []⟩

/-- (`fork-plan`) -/
def forkPlan (parent : RefDocument) (sealed : SegmentRecord) (forkSequence : Int) : Except Fault ForkPlan :=
  if !validSegmentName sealed.sha256 then
    branchFail "sealed segment name is not a SHA-256 hex digest".toList "invalid-segment-name"
  else if parent.segments.any fun segment => segment.sha256 = sealed.sha256 then
    branchFail "sealed segment is already named by the parent chain".toList "segment-already-sealed"
  else if maxChainLength ≤ parent.segments.length then
    branchFail "branch chain exceeds the supported segment count".toList "chain-too-long"
  else if forkSequence < 0 then branchFail "fork sequence must not be negative".toList "invalid-fork-sequence"
  else .ok ⟨⟨parent.spaceId, parent.segments ++ [sealed]⟩, sealed, forkSequence⟩

/-! ## Names and paths -/

/-- (`default-branch`) -/
def defaultBranch : Text := "main".toList

/-- (`max-branch-name-length`) -/
def maxBranchNameLength : Nat := 64

/-- A character of a branch name: `[A-Za-z0-9._-]`. -/
def isNameChar (c : Char) : Bool := c.isAlphanum || decide (c ∈ ['.', '_', '-'])

/-- The value matches `[A-Za-z0-9][A-Za-z0-9._-]*`. -/
def isFileName (value : Text) : Bool :=
  match value with
  | [] => false
  | c :: rest => c.isAlphanum && rest.all isNameChar

/-- (`valid-branch-name?`) -/
def validBranchName (value : Text) : Bool :=
  decide (0 < value.length) && (decide (value.length ≤ maxBranchNameLength) && (isFileName value && !decide ("..".toList <:+: value)))

/-- (`require-branch-name!`) -/
def requireBranchName (value : Text) : Except Fault Text :=
  if validBranchName value then .ok value
  else branchFail ("branch name is not a usable ref file name: ".toList ++ value) "invalid-branch-name"

/-- (`segments-directory`) -/
def segmentsDirectory (storePath : Text) : Text := storePath ++ ".segments".toList

/-- (`refs-directory`) -/
def refsDirectory (storePath : Text) : Text := storePath ++ ".refs".toList

/-- (`branches-directory`) -/
def branchesDirectory (storePath : Text) : Text := storePath ++ ".branches".toList

/-- The path of a file in a directory. -/
def fileIn (directory name : Text) : Text := directory ++ '/' :: name

/-- (`segment-path`) -/
def segmentPath (storePath sha256 : Text) : Except Fault Text :=
  if validSegmentName sha256 then .ok (fileIn (segmentsDirectory storePath) sha256)
  else branchFail ("segment name is not a SHA-256 hex digest: ".toList ++ sha256) "invalid-segment-name"

/-- (`ref-path!`) -/
def refPath (storePath branch : Text) : Except Fault Text := do
  let branch ← requireBranchName branch
  .ok (fileIn (refsDirectory storePath) branch)

/-- The path of the tail of a branch. -/
def tailOf (storePath branch : Text) : Text :=
  if branch = defaultBranch then storePath else fileIn (branchesDirectory storePath) branch

/-- (`branch-tail-path!`) -/
def branchTailPath (storePath branch : Text) : Except Fault Text := do
  let branch ← requireBranchName branch
  .ok (tailOf storePath branch)

/-- (`snapshot-path`) -/
def snapshotPath (tailPath : Text) : Text := tailPath ++ ".snapshot".toList

/-! ## Fork markers -/

/-- (`fork-marker-format`) -/
def forkMarkerFormat : Text := "framfork/v1".toList

/-- The lines of a marker that its checksum covers. -/
def markerLines (marker : ForkMarker) : List Text :=
  [forkMarkerFormat, "parent ".toList ++ marker.parent, "child ".toList ++ marker.child, "segment ".toList ++ marker.segment]

/-- (`print-fork-marker`) -/
def printForkMarker (marker : ForkMarker) : Text := unlines (markerLines marker ++ [crcLine (markerLines marker)])

/-- (`parse-fork-marker`) -/
def parseForkMarker (text : Text) : Except Fault ForkMarker :=
  match splitLines text with
  | [format, parentLine, childLine, segmentLine, crc] =>
    let parent := parentLine.drop 7
    let child := childLine.drop 6
    let segment := segmentLine.drop 8
    if forkMarkerFormat ≠ format then
      branchFail ("fork marker format is unsupported: ".toList ++ format) "unsupported-fork-marker-version"
    else if !("parent ".toList.isPrefixOf parentLine && ("child ".toList.isPrefixOf childLine &&
        "segment ".toList.isPrefixOf segmentLine)) then
      branchFail "fork marker does not name its parent, child, and segment".toList "invalid-fork-marker"
    else if crc ≠ crcLine [format, parentLine, childLine, segmentLine] then
      branchFail "fork marker CRC does not match".toList "invalid-fork-marker"
    else if !(validBranchName parent && (validBranchName child && decide (parent ≠ child))) then
      branchFail "fork marker does not name two usable branches".toList "invalid-fork-marker"
    else if !validSegmentName segment then
      branchFail "fork marker segment is not a SHA-256 hex digest".toList "invalid-fork-marker"
    else .ok ⟨parent, child, segment⟩
  | _ => branchFail "fork marker does not carry its three fields and CRC".toList "invalid-fork-marker"

/-- (`chain-end-sequence`) The last transaction that the sealed chain names, or 0 when it names none. -/
def chainEndSequence (document : RefDocument) : Int :=
  match document.segments.reverse.find? (fun segment => decide (0 < segment.endSequence)) with
  | some segment => segment.endSequence
  | none => 0

/-! ## The chain law -/

/-- (`member-fault`) -/
def memberFault (document : RefDocument) (segment : SegmentRecord) (index : Nat) (member : ChainMember) (expectedNext : Int) :
    Option String :=
  if document.spaceId ≠ member.spaceId then some "FRAMLOG segment belongs to a different SpaceId"
  else if segment.byteCount ≠ member.byteCount then some "FRAMLOG segment size does not match its branch ref record"
  else if segment.startSequence ≠ member.startSequence then
    some "FRAMLOG segment does not begin at its recorded transaction sequence"
  else if segment.endSequence ≠ member.endSequence then
    some "FRAMLOG segment does not end at its recorded transaction sequence"
  else if member.torn then some "FRAMLOG segment ends inside a transaction frame"
  else if decide (0 < index) && !member.continuation then
    some "FRAMLOG chain segment after the base segment must carry the continuation flag"
  else if decide (index = 0) && member.continuation then
    some "FRAMLOG base chain segment must not carry the continuation flag"
  else if decide (0 < member.startSequence) && decide (expectedNext ≠ member.startSequence) then
    some "FRAMLOG chain segment does not continue the previous transaction sequence"
  else none

/-- (`next-after`) -/
def ChainMember.nextAfter (member : ChainMember) (expectedNext : Int) : Int :=
  if 0 < member.endSequence then member.endSequence + 1 else expectedNext

/-- The end of the loop of `chain-fault`: the tail after the members. -/
def tailFault (document : RefDocument) (count : Nat) (tail : ChainMember) (expectedNext : Int) : Option String :=
  if document.spaceId ≠ tail.spaceId then some "FRAMLOG tail belongs to a different SpaceId"
  else if decide (0 < count) && !tail.continuation then some "FRAMLOG branch tail must carry the continuation flag"
  else if decide (count = 0) && tail.continuation then some "FRAMLOG version or flags are unsupported"
  else if decide (0 < tail.startSequence) && decide (expectedNext ≠ tail.startSequence) then
    some "FRAMLOG branch tail does not continue the sealed chain"
  else none

/-- The loop of `chain-fault` over the members from an index on, beside the segments that the ref names for them. -/
def memberFaults (document : RefDocument) (tail : ChainMember) (index : Nat) (expectedNext : Int) :
    List (SegmentRecord × ChainMember) → Option String
  | [] => tailFault document index tail expectedNext
  | (segment, member) :: rest =>
    match memberFault document segment index member expectedNext with
    | some fault => some fault
    | none => memberFaults document tail (index + 1) (member.nextAfter expectedNext) rest

/-- (`chain-fault`) `none` means that the chain folds; any other result is the first fault, by position. -/
def chainFault (document : RefDocument) (members : List ChainMember) (tail : ChainMember) : Option String :=
  if document.segments.length ≠ members.length then some "FRAMLOG branch ref does not name the segments that were read"
  else memberFaults document tail 0 1 (document.segments.zip members)

end Fram
