import Fram.Branch
import Fram.Database

/-!
# Branch stores

`src/database.clj`: a store keeps its branches in files beside its log. A branch is opened by folding the sealed segments that its ref
names and then its tail. A fork seals the tail of a branch into the segments and gives parent and child fresh tails: it prepares every
file that it installs, writes a marker, and then installs them by renames that a later fork repeats if it was interrupted.

The files of a host are a map from paths; directories, and the temporary file that a new log is moved from, are left out. A step of a
fork is one operation on a file, and a fork may be interrupted between any two.
-/

namespace Fram.Database

open Lines (Text)

/-- The regular files of a host. -/
abbrev Files := Text → Option Bytes

/-- The files with a content at a path, or with none. -/
def Files.put (files : Files) (path : Text) (content : Option Bytes) : Files := fun p => if p = path then content else files p

/-- SHA-256 of the host, in the digits of a segment name (`sha256-hex`). -/
structure Digest where
  sha256Hex : Bytes → Text
  valid : ∀ bytes, validSegmentName (sha256Hex bytes) = true

/-- (`strict-utf8-string`) -/
def strictUtf8String (bytes : Bytes) (label : String) : Except Fault Text :=
  match utf8Decode bytes with
  | some text => .ok text.toList
  | none => .error ⟨⟨"invalid-utf8"⟩, label ++ " is not valid UTF-8"⟩

/-- (`strict-utf8-bytes`) The bytes of a text without a lone surrogate. -/
def textBytes (text : Text) : Bytes := utf8Encode (String.ofList text)

/-! ## Reading -/

/-- (`fork-marker-path`) -/
def forkMarkerPath (store : Text) : Text := store ++ ".fork".toList

/-- (`fork-pending-path`) -/
def forkPendingPath (path : Text) : Text := path ++ ".fork-new".toList

/-- (`read-fork-marker`) -/
def readForkMarker (files : Files) (store : Text) : Except Fault (Option ForkMarker) :=
  match files (forkMarkerPath store) with
  | none => .ok none
  | some bytes => do
    let text ← strictUtf8String bytes "fork marker"
    let marker ← parseForkMarker text
    .ok (some marker)

/-- (`require-no-pending-fork!`) -/
def requireNoPendingFork (files : Files) (store : Text) : Except Fault Unit :=
  if (files (forkMarkerPath store)).isSome then
    .error ⟨⟨"fork-incomplete"⟩, "a fork of this store was interrupted and has not been completed"⟩
  else .ok ()

/-- (`read-branch-ref`) -/
def readBranchRef (files : Files) (store branch : Text) : Except Fault (Option RefDocument) := do
  let path ← refPath store branch
  match files path with
  | none => .ok none
  | some bytes => do
    let text ← strictUtf8String bytes "branch ref"
    let document ← parseRef text
    .ok (some document)

/-- The bytes of a log, or the failure that there are none. -/
def requireLog (files : Files) (path : Text) : Except Fault Bytes :=
  match files path with
  | none => .error ⟨⟨"triple-log-missing"⟩, "FRAMLOG source is missing"⟩
  | some bytes => .ok bytes

/-- The sequence of a frame, or 0 where there is none. -/
def sequenceOf (frame : Option TransactionFrame) : Int := (frame.map (·.sequence)).getD 0

/-- (`chain-member`) -/
def chainMember (parsed : TripleLog) (byteCount : Nat) : ChainMember :=
  ⟨sequenceOf parsed.frames.head?, sequenceOf parsed.frames.getLast?, byteCount, parsed.continuation, parsed.spaceId.toList,
    parsed.tornTail.isSome⟩

/-- (`read-chain-member!`) -/
def readChainMember (J : Gzip) (files : Files) (path : Text) : Except Fault (TripleLog × ChainMember) := do
  let bytes ← requireLog files path
  let parsed ← parseTripleLogBytes J bytes true
  .ok (parsed, chainMember parsed bytes.length)

/-- The sealed segments of a ref, in its order. -/
def readSegments (J : Gzip) (files : Files) (store : Text) (segments : List SegmentRecord) :
    Except Fault (List (TripleLog × ChainMember)) :=
  segments.mapM fun segment => do
    let path ← segmentPath store segment.sha256
    readChainMember J files path

/-- (`open-database!`) Of the log at a path. -/
def openDatabaseFile (Γ : Host) (J : Gzip) (files : Files) (path : Text) (expectedSpace : Option String) (repairTorn : Bool) :
    Except Fault (Db × Files) := do
  requireNoPendingFork files path
  let bytes ← requireLog files path
  let (db, log) ← openDatabase Γ J bytes expectedSpace repairTorn
  .ok (db, files.put path (some log))

/-- (`truncate-log!`) -/
def truncateLog (files : Files) (path : Text) (length : Nat) : Files := files.put path ((files path).map (·.take length))

/-- What `open-branch!` does with a ref: it folds the segments, then the tail. -/
def openChain (Γ : Host) (J : Gzip) (files : Files) (store branch : Text) (document : RefDocument) (expectedSpace : Option String)
    (repairTorn : Bool) : Except Fault (Db × Files) := do
  let tailPath ← branchTailPath store branch
  let spaceId := String.ofList document.spaceId
  let sealed ← readSegments J files store document.segments
  let (tail, tailMember) ← readChainMember J files tailPath
  if expectedSpace.any (· ≠ spaceId) then
    .error ⟨⟨"space-mismatch"⟩, "FRAMLOG belongs to a different SpaceId"⟩
  else
    match chainFault document (sealed.map (·.2)) tailMember with
    | some fault => .error ⟨⟨"invalid-branch-chain"⟩, fault⟩
    | none => do
      let context ← newTermStore spaceId
      let context ← sealed.foldlM (fun context member => replayFrames Γ context member.1.frames) context
      let context ← replayFrames Γ context tail.frames
      .ok (⟨context, spaceId, tail.deflate, .ready, if repairTorn then none else tail.tornTail,
          if repairTorn then tail.tornTail else none⟩,
        if tail.tornTail.isSome ∧ repairTorn then truncateLog files tailPath tail.validBytes else files)

/-- (`open-branch!`) The database of a branch, and the files after it is opened. -/
def openBranch (Γ : Host) (J : Gzip) (files : Files) (store branch : Text) (expectedSpace : Option String) (repairTorn : Bool) :
    Except Fault (Db × Files) := do
  requireNoPendingFork files store
  let document ← readBranchRef files store branch
  match document with
  | some document => openChain Γ J files store branch document expectedSpace repairTorn
  | none =>
    if branch = defaultBranch then openDatabaseFile Γ J files store expectedSpace repairTorn
    else .error ⟨⟨"branch-missing"⟩, "branch has no ref"⟩

/-! ## Steps of a fork -/

/-- An operation on a file. -/
inductive FileStep where
  | lock (path : Text)
  | create (path : Text) (spaceId : String) (deflate continuation : Bool)
  | write (path : Text) (content : Bytes)
  | move (source target : Text)
  | sealTail (tail sealed : Text)
  | install (pending target : Text)
  | delete (path : Text)
  deriving DecidableEq

/-- (`move-atomically!`) -/
def moveAtomically (files : Files) (source target : Text) : Except Fault Files :=
  match files source with
  | none => .error ⟨⟨"NoSuchFileException"⟩, ""⟩
  | some content => .ok ((files.put source none).put target (some content))

/-- One operation. A lock creates the file that it is taken on; a log is created only where there is no file; a tail is sealed unless
the segment is there, and a prepared file is installed if it is there. -/
def FileStep.run (files : Files) : FileStep → Except Fault Files
  | .lock path => .ok (files.put path (some ((files path).getD [])))
  | .create path spaceId deflate continuation =>
    if (files path).isSome then .error ⟨⟨"triple-log-exists"⟩, "FRAMLOG target already exists"⟩
    else do
      let header ← createTripleLog spaceId deflate continuation
      .ok (files.put path (some header))
  | .write path content => .ok (files.put path (some content))
  | .move source target => moveAtomically files source target
  | .sealTail tail sealed => if (files sealed).isSome then .ok files else moveAtomically files tail sealed
  | .install pending target => if (files pending).isSome then moveAtomically files pending target else .ok files
  | .delete path => .ok (files.put path none)

/-- Operations in order: the files after them, and the failure that ended them. -/
def runSteps (files : Files) : List FileStep → Files × Except Fault Unit
  | [] => (files, .ok ())
  | step :: steps =>
    match step.run files with
    | .error fault => (files, .error fault)
    | .ok files => runSteps files steps

/-- (`write-text-durable!`) -/
def writeTextDurable (path text : Text) : List FileStep :=
  [.write (path ++ ".tmp".toList) (textBytes text), .move (path ++ ".tmp".toList) path]

/-- The files of the two branches of a fork: the tails, then the refs. -/
structure ForkPaths where
  parentTail : Text
  childTail : Text
  parentRef : Text
  childRef : Text
  deriving DecidableEq

/-- The paths of two branches. -/
def forkPaths (store parent child : Text) : Except Fault ForkPaths := do
  let parentTail ← branchTailPath store parent
  let childTail ← branchTailPath store child
  let parentRef ← refPath store parent
  let childRef ← refPath store child
  .ok ⟨parentTail, childTail, parentRef, childRef⟩

/-- (`complete-fork!`) -/
def completeFork (store : Text) (marker : ForkMarker) : Except Fault (List FileStep) := do
  let paths ← forkPaths store marker.parent marker.child
  let sealed ← segmentPath store marker.segment
  .ok [.sealTail paths.parentTail sealed, .install (forkPendingPath paths.parentTail) paths.parentTail,
    .install (forkPendingPath paths.parentRef) paths.parentRef, .install (forkPendingPath paths.childRef) paths.childRef,
    .install (forkPendingPath paths.childTail) paths.childTail, .delete (snapshotPath paths.parentTail),
    .delete (forkMarkerPath store)]

/-! ## Forking -/

/-- A branch that a fork leaves: its name, its tail and its ref. -/
structure ForkedBranch where
  branch : Text
  tail : Text
  ref : Text
  deriving DecidableEq

/-- What `fork-store!` returns. -/
structure ForkReceipt where
  spaceId : String
  forkSequence : Int
  segment : Text
  chain : List Text
  parent : ForkedBranch
  child : ForkedBranch
  deriving DecidableEq

/-- The operations of a fork, and what it returns or throws. -/
structure Fork where
  steps : List FileStep
  answer : Except Fault ForkReceipt

/-- The record of the log that a fork seals. -/
def segmentRecord (D : Digest) (parsed : TripleLog) (content : Bytes) : SegmentRecord :=
  ⟨D.sha256Hex content, sequenceOf parsed.frames.head?, sequenceOf parsed.frames.getLast?, content.length⟩

/-- The sequence that a fork forks at: that of the last frame of the tail, or the end of the sealed chain. -/
def forkSequenceOf (base : RefDocument) (parsed : TripleLog) : Int :=
  (parsed.frames.getLast?.map (·.sequence)).getD (chainEndSequence base)

/-- The checks of a fork on its parent, and what it is to install. -/
def planFork (D : Digest) (J : Gzip) (files : Files) (store parent : Text) (parentTail : Text) :
    Except Fault (TripleLog × ForkPlan) := do
  let document ← readBranchRef files store parent
  if document.isNone ∧ parent ≠ defaultBranch then .error ⟨⟨"branch-missing"⟩, "branch has no ref"⟩
  else do
    let content ← requireLog files parentTail
    let parsed ← parseTripleLogBytes J content true
    let base := document.getD (emptyRef parsed.spaceId.toList)
    let chained := decide (0 < base.segments.length)
    if parsed.tornTail.isSome then
      .error ⟨⟨"torn-tail-repair-required"⟩, "fork requires a parent tail with no torn trailing frame"⟩
    else if parsed.spaceId.toList ≠ base.spaceId then
      .error ⟨⟨"space-mismatch"⟩, "FRAMLOG belongs to a different SpaceId"⟩
    else if chained ≠ parsed.continuation then
      .error ⟨⟨"invalid-branch-chain"⟩, if chained then "FRAMLOG branch tail must carry the continuation flag"
        else "FRAMLOG base chain segment must not carry the continuation flag"⟩
    else do
      let plan ← forkPlan base (segmentRecord D parsed content) (forkSequenceOf base parsed)
      .ok (parsed, plan)

/-- The operations that prepare the files of a fork, and write its marker. -/
def prepareFork (store : Text) (paths : ForkPaths) (parsed : TripleLog) (plan : ForkPlan) (marker : ForkMarker) : List FileStep :=
  ([paths.parentTail, paths.childTail, paths.parentRef, paths.childRef].map fun path => .delete (forkPendingPath path)) ++
    (([paths.parentTail, paths.childTail].map fun tail =>
        .create (forkPendingPath tail) parsed.spaceId (parsed.deflate.getD false) true) ++
      (([paths.parentRef, paths.childRef].flatMap fun ref => writeTextDurable (forkPendingPath ref) (printRef plan.document)) ++
        writeTextDurable (forkMarkerPath store) (printForkMarker marker)))

/-- What a fork does when no other is pending. -/
def forkBranch (D : Digest) (J : Gzip) (files : Files) (store parent child : Text) (paths : ForkPaths) :
    Except Fault (List FileStep × ForkReceipt) :=
  if [paths.childTail, paths.childRef].any fun path => (files path).isSome then
    .error ⟨⟨"branch-exists"⟩, "fork child branch already exists"⟩
  else do
    let (parsed, plan) ← planFork D J files store parent paths.parentTail
    let marker : ForkMarker := ⟨parent, child, plan.sealed.sha256⟩
    let completing ← completeFork store marker
    .ok (prepareFork store paths parsed plan marker ++ completing,
      ⟨parsed.spaceId, plan.forkSequence, plan.sealed.sha256, plan.document.segments.map (·.sha256),
        ⟨parent, paths.parentTail, paths.parentRef⟩, ⟨child, paths.childTail, paths.childRef⟩⟩)

/-- (`authority-path`) -/
def authorityPath (log : Text) : Text := log ++ ".writer-authority.lock".toList

/-- (`acquire-fork-authority!`) Where no writer holds the store. -/
def acquireForkAuthority (paths : List Text) : List FileStep := paths.map fun path => .lock (authorityPath path)

/-- The operations that complete a pending fork. -/
def completePending (files : Files) (store : Text) : Except Fault (List FileStep) := do
  let pending ← readForkMarker files store
  match pending with
  | none => .ok []
  | some marker => completeFork store marker

/-- A fork of two branches whose names are usable, once its locks are taken. -/
def forkLocked (D : Digest) (J : Gzip) (files : Files) (store parent child : Text) (paths : ForkPaths) : Fork :=
  match completePending files store with
  | .error fault => ⟨[], .error fault⟩
  | .ok completing =>
    let (files, completed) := runSteps files completing
    match completed with
    | .error fault => ⟨completing, .error fault⟩
    | .ok _ =>
      match forkBranch D J files store parent child paths with
      | .error fault => ⟨completing, .error fault⟩
      | .ok (steps, receipt) => ⟨completing ++ steps, (runSteps files steps).2.map fun _ => receipt⟩

/-- (`fork-store!`) -/
def forkStore (D : Digest) (J : Gzip) (files : Files) (store parent child : Text) : Fork :=
  match forkPaths store parent child with
  | .error fault => ⟨[], .error fault⟩
  | .ok paths =>
    if parent = child then ⟨[], .error ⟨⟨"invalid-branch-name"⟩, "fork requires two different branch names"⟩⟩
    else
      let acquiring := acquireForkAuthority [store, paths.parentTail, paths.childTail].eraseDups
      let fork := forkLocked D J (runSteps files acquiring).1 store parent child paths
      ⟨acquiring ++ fork.steps, fork.answer⟩

/-- The operations of a fork that is interrupted after so many of them, or not. -/
def Fork.made (fork : Fork) (operations : Option Nat) : List FileStep :=
  match operations with
  | none => fork.steps
  | some count => fork.steps.take count

/-- The marker of the fork is among the operations: the fork is made, whether or not it is completed. -/
def Fork.begun (fork : Fork) (store : Text) (operations : Option Nat) : Bool :=
  decide (.move (forkMarkerPath store ++ ".tmp".toList) (forkMarkerPath store) ∈ fork.made operations)

/-! ## Runs of a branch store -/

/-- What happens to a branch store: a commit to a branch that is opened for it, and a fork, which may be interrupted. -/
inductive BranchEvent where
  | commit (branch : Text) (operations : List CommitOperation)
  | fork (parent child : Text) (operations : Option Nat)

/-- The files of a store. Beside these: the history of each branch, as the commits and the forks make it. -/
structure BranchWorld where
  files : Files
  histories : Text → Option (List TransactionFrame)

/-- The histories after frames are written to a branch. -/
def wrote (histories : Text → Option (List TransactionFrame)) (branch : Text) (frames : List TransactionFrame) :
    Text → Option (List TransactionFrame) := fun b => if b = branch then (histories branch).map (· ++ frames) else histories b

/-- The histories after a fork. -/
def forked (histories : Text → Option (List TransactionFrame)) (parent child : Text) : Text → Option (List TransactionFrame) :=
  fun b => if b = child then histories parent else histories b

/-- One event. -/
def BranchWorld.step (Γ : Host) (D : Digest) (J : Gzip) (store : Text) (w : BranchWorld) : BranchEvent → BranchWorld
  | .commit branch operations =>
    match openBranch Γ J w.files store branch none true with
    | .error _ => w
    | .ok (db, files) =>
      let log := (files (tailOf store branch)).getD []
      let mutation := commit Γ J log db false operations
      ⟨files.put (tailOf store branch) (some (log ++ mutation.appended)), wrote w.histories branch mutation.written⟩
  | .fork parent child operations =>
    let fork := forkStore D J w.files store parent child
    ⟨(runSteps w.files (fork.made operations)).1, if fork.begun store operations then forked w.histories parent child else w.histories⟩

/-- The events in order. -/
def BranchWorld.run (Γ : Host) (D : Digest) (J : Gzip) (store : Text) (w : BranchWorld) (events : List BranchEvent) : BranchWorld :=
  events.foldl (BranchWorld.step Γ D J store) w

/-- A store of a log just created. -/
def newStore (store : Text) (header : Bytes) : BranchWorld :=
  ⟨fun p => if p = store then some header else none, fun b => if b = defaultBranch then some [] else none⟩

end Fram.Database
