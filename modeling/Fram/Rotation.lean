import Fram.Lib.Chained
import Fram.Lib.ExtractLast
import Fram.Store

/-!
# Rotations

`src/fram/rotation.bgl`: indexes over the live assertions of a store, for the leading slots that a read may bind. A rotation is a
base of events with closed buckets, and a tail of pending operations that every read folds over its base answer; a tail that has
grown long is folded into a new base.

A bucket names a key by the position of the event that first carried it and by the key's shape, which the source packs into one
number. Its heads and chain are those of `Chained`.
-/

namespace Fram

/-! ## Keys -/

/-- The slots that a key binds. -/
inductive Shape where
  | t1
  | t12
  | t2
  | t3
  deriving DecidableEq

/-- (`key-code`) A key, by the position of its first event and its shape. -/
structure KeyCode where
  position : Nat
  shape : Shape
  deriving DecidableEq

/-- (`Bucket`) Leaves of events by key. -/
abbrev Bucket := Chained.Table KeyCode OperationOccurrence

/-- (`OccurrenceIndex`) Positions of events by coordinate. -/
structure OccurrenceIndex where
  width : Nat
  heads : List (Option Nat)
  chain : List (Option Nat)
  deriving DecidableEq

/-- (`Rotation`) -/
structure Rotation where
  spaceId : String
  version : Int
  events : List OperationOccurrence
  byOccurrence : OccurrenceIndex
  spo : Bucket
  pos : Bucket
  osp : Bucket
  pending : List OperationOccurrence

/-- (`bucket-initial-slots`) -/
def bucketInitialSlots : Nat := 64

/-- (`bucket-slot-load`) -/
def bucketSlotLoad : Nat := 4

/-- (`pending-fold-cap`) -/
def pendingFoldCap : Nat := 512

/-- (`shape-hash`) -/
def shapeHash (Γ : Host) (shape : Shape) (event : OperationOccurrence) : Int :=
  match shape with
  | .t1 => Γ.hashOne event.proposition.t1
  | .t12 => Γ.hashTwo event.proposition.t1 event.proposition.t2
  | .t2 => Γ.hashOne event.proposition.t2
  | .t3 => Γ.hashOne event.proposition.t3

/-- (`same-shape-key?`) -/
def sameShapeKey (shape : Shape) (left right : OperationOccurrence) : Bool :=
  match shape with
  | .t1 => left.proposition.t1.eqv right.proposition.t1
  | .t12 => left.proposition.t1.eqv right.proposition.t1 && left.proposition.t2.eqv right.proposition.t2
  | .t2 => left.proposition.t2.eqv right.proposition.t2
  | .t3 => left.proposition.t3.eqv right.proposition.t3

/-- (`shape-term`) The one term that a shape binds. -/
def shapeTerm (shape : Shape) (event : OperationOccurrence) : Term :=
  match shape with
  | .t1 => event.proposition.t1
  | .t2 => event.proposition.t2
  | _ => event.proposition.t3

/-- The hash of a key, read off the event that named it. -/
def KeyCode.hash (Γ : Host) (source : List OperationOccurrence) (code : KeyCode) : Int :=
  match source[code.position]? with
  | some event => shapeHash Γ code.shape event
  | none => 0

/-- Two keys of one shape are equal, read off the events that named them. -/
def KeyCode.same (source : List OperationOccurrence) (left right : KeyCode) : Bool :=
  decide (left.shape = right.shape) &&
    match source[left.position]?, source[right.position]? with
    | some l, some r => sameShapeKey left.shape l r
    | _, _ => false

/-! ## Probes -/

/-- (`bucket-leaf-one`) -/
def bucketLeafOne (Γ : Host) (bucket : Bucket) (source : List OperationOccurrence) (shape : Shape) (a : Term) :
    List OperationOccurrence :=
  bucket.leaf (Γ.hashOne a) fun code =>
    decide (shape = code.shape) && source[code.position]?.any fun event => a.eqv (shapeTerm shape event)

/-- (`bucket-leaf-two`) -/
def bucketLeafTwo (Γ : Host) (bucket : Bucket) (source : List OperationOccurrence) (a b : Term) : List OperationOccurrence :=
  bucket.leaf (Γ.hashTwo a b) fun code =>
    decide (Shape.t12 = code.shape) &&
      source[code.position]?.any fun event => a.eqv event.proposition.t1 && b.eqv event.proposition.t2

/-- (`occurrence-event`) The newest event of a coordinate. -/
def occurrenceEvent (Γ : Host) (index : OccurrenceIndex) (source : List OperationOccurrence) (occurrence : Triple) :
    Option OperationOccurrence :=
  match Chained.walk (fun position => source[position]?.any fun event => occurrence.eqv event.coordinate) index.chain
    source.length (index.heads[Chained.slot index.width (Γ.hashOne occurrence.term)]?.join) with
  | some position => source[position]?
  | none => none

/-- (`slot-matches?`) -/
def slotMatches (pattern : Option Term) (term : Term) : Bool :=
  match pattern with
  | none => true
  | some t => t.eqv term

/-- (`pattern-match?`) -/
def patternMatch (proposition : Triple) (t1 t2 t3 : Option Term) : Bool :=
  slotMatches t1 proposition.t1 && (slotMatches t2 proposition.t2 && slotMatches t3 proposition.t3)

/-- (`narrowed`) -/
def narrowed (base : List OperationOccurrence) (t1 t2 t3 : Option Term) : List OperationOccurrence :=
  base.filter fun event => patternMatch event.proposition t1 t2 t3

/-- (`without-newest-of`) -/
def withoutNewestOf (events : List OperationOccurrence) (proposition : Triple) : List OperationOccurrence :=
  match events.extractLast fun event => proposition.eqv event.proposition with
  | some (_, rest) => rest
  | none => events

/-- (`merged-matching`) A base answer with the pending operations folded over it. -/
def mergedMatching (base pending : List OperationOccurrence) (t1 t2 t3 : Option Term) : List OperationOccurrence :=
  pending.foldl
    (fun events op =>
      match op.action with
      | .assert => if patternMatch op.proposition t1 t2 t3 then events ++ [op] else events
      | .retract => withoutNewestOf events op.proposition)
    base

/-! ## Reads -/

/-- (`all-occurrences`) -/
def allOccurrences (r : Rotation) : List OperationOccurrence := mergedMatching r.events r.pending none none none

/-- (`by-t1`) -/
def byT1 (Γ : Host) (r : Rotation) (t1 : Term) : List OperationOccurrence :=
  mergedMatching (bucketLeafOne Γ r.spo r.events .t1 t1) r.pending (some t1) none none

/-- (`by-t12`) -/
def byT12 (Γ : Host) (r : Rotation) (t1 t2 : Term) : List OperationOccurrence :=
  mergedMatching (bucketLeafTwo Γ r.spo r.events t1 t2) r.pending (some t1) (some t2) none

/-- (`by-t2`) -/
def byT2 (Γ : Host) (r : Rotation) (t2 : Term) : List OperationOccurrence :=
  mergedMatching (bucketLeafOne Γ r.pos r.events .t2 t2) r.pending none (some t2) none

/-- (`by-t23`) -/
def byT23 (Γ : Host) (r : Rotation) (t2 t3 : Term) : List OperationOccurrence :=
  mergedMatching (narrowed (bucketLeafOne Γ r.osp r.events .t3 t3) none (some t2) none) r.pending none (some t2) (some t3)

/-- (`by-t3`) -/
def byT3 (Γ : Host) (r : Rotation) (t3 : Term) : List OperationOccurrence :=
  mergedMatching (bucketLeafOne Γ r.osp r.events .t3 t3) r.pending none none (some t3)

/-- (`by-t13`) -/
def byT13 (Γ : Host) (r : Rotation) (t1 t3 : Term) : List OperationOccurrence :=
  mergedMatching (narrowed (bucketLeafOne Γ r.osp r.events .t3 t3) (some t1) none none) r.pending (some t1) none (some t3)

/-- (`by-proposition`) -/
def byProposition (Γ : Host) (r : Rotation) (proposition : Triple) : List OperationOccurrence :=
  mergedMatching
    (narrowed (bucketLeafTwo Γ r.spo r.events proposition.t1 proposition.t2) none none (some proposition.t3)) r.pending
    (some proposition.t1) (some proposition.t2) (some proposition.t3)

/-- (`matching`) The live assertions that match the bound slots. -/
def matching (Γ : Host) (r : Rotation) (t1 t2 t3 : Option Term) : List OperationOccurrence :=
  match t1, t2, t3 with
  | some a, some b, some c => byProposition Γ r ⟨a, b, c⟩
  | some a, some b, none => byT12 Γ r a b
  | none, some b, some c => byT23 Γ r b c
  | some a, none, some c => byT13 Γ r a c
  | some a, none, none => byT1 Γ r a
  | none, some b, none => byT2 Γ r b
  | none, none, some c => byT3 Γ r c
  | none, none, none => allOccurrences r

/-- (`event-at`) The newest surviving event of a coordinate, judged through the answer for its own proposition. -/
def eventAt (Γ : Host) (r : Rotation) (occurrence : Triple) : Option OperationOccurrence :=
  let base := occurrenceEvent Γ r.byOccurrence r.events occurrence
  let candidate := r.pending.foldl
    (fun found op => if op.action = .assert ∧ occurrence.eqv op.coordinate = true then some op else found) base
  match candidate with
  | none => none
  | some present =>
    if (byProposition Γ r present.proposition).any fun event => occurrence.eqv event.coordinate then some present else none

/-- (`live-occurrence?`) -/
def liveOccurrence (Γ : Host) (r : Rotation) (occurrence : Triple) : Bool := (eventAt Γ r occurrence).isSome

/-! ## Projection -/

/-- (`checked-assertion`) -/
def checkedAssertion (event : OperationOccurrence) : Except Fault OperationOccurrence :=
  if isAssertionOccurrence event then .ok event
  else .error ⟨⟨"invalid-rotation-occurrence"⟩, "fram: rotations cover assertion occurrences only"⟩

/-- The width reached by doubling until the load is enough for the entries. -/
def widenedFor (eventCount : Nat) : Nat → Nat → Nat
  | 0, width => width
  | fuel + 1, width => if eventCount ≤ bucketSlotLoad * width then width else widenedFor eventCount fuel (2 * width)

/-- (`initial-bucket-width`) -/
def initialBucketWidth (eventCount : Nat) : Nat := widenedFor eventCount eventCount bucketInitialSlots

/-- The keys of the events, each event under its shapes in turn. -/
def bucketItems (events : List OperationOccurrence) (shapes : List Shape) : List (KeyCode × OperationOccurrence) :=
  events.zipIdx.flatMap fun (event, position) => shapes.map fun shape => (⟨position, shape⟩, event)

/-- (`projected-bucket!`) -/
def projectedBucket (Γ : Host) (events : List OperationOccurrence) (shapes : List Shape) (initialWidth : Nat) :
    Except Fault Bucket := do
  let events ← events.mapM checkedAssertion
  .ok (Chained.build (KeyCode.hash Γ events) (KeyCode.same events) bucketSlotLoad initialWidth (bucketItems events shapes))

/-- (`projected-occurrences!`) -/
def projectedOccurrences (Γ : Host) (events : List OperationOccurrence) (width : Nat) : Except Fault OccurrenceIndex := do
  let events ← events.mapM checkedAssertion
  let (heads, chain) := Chained.linkAll width (events.map fun event => Γ.hashOne event.coordinate.term)
  .ok ⟨width, heads, chain⟩

/-- (`projected!`) -/
def projected (Γ : Host) (spaceId : String) (version : Int) (events : List OperationOccurrence) : Except Fault Rotation := do
  let total := events.length
  let byOccurrence ← projectedOccurrences Γ events (initialBucketWidth total)
  let spo ← projectedBucket Γ events [.t1, .t12] (initialBucketWidth (2 * total))
  let pos ← projectedBucket Γ events [.t2] (initialBucketWidth total)
  let osp ← projectedBucket Γ events [.t3] (initialBucketWidth total)
  .ok ⟨spaceId, version, events, byOccurrence, spo, pos, osp, []⟩

/-- (`project!`) -/
def project (Γ : Host) (s : TermStore) : Except Fault Rotation := do
  projected Γ s.spaceId (currentSequence s) (← liveOccurrences Γ s)

/-! ## The pending tail -/

/-- The pending operations of a frame, from an ordinal on. -/
def pendingFrom (coordinate : Triple) : Nat → List CommitOperation → Except Fault (List OperationOccurrence)
  | _, [] => .ok []
  | ordinal, operation :: operations => do
    let occurrence ← occurrenceCoordinate coordinate ordinal
    let op ← operationOccurrence occurrence operation.action operation.proposition
    let ops ← pendingFrom coordinate (ordinal + 1) operations
    .ok (op :: ops)

/-- (`pending-with-frame`) -/
def pendingWithFrame (pending : List OperationOccurrence) (spaceId : String) (frame : TransactionFrame) :
    Except Fault (List OperationOccurrence) := do
  let coordinate ← transactionCoordinate spaceId frame.sequence
  let ops ← pendingFrom coordinate 0 frame.operations
  .ok (pending ++ ops)

/-- (`staged`) The rotation with operations that are not committed yet pending. -/
def staged (r : Rotation) (spaceId : String) (sequence : Int) (operations : List CommitOperation) : Except Fault Rotation := do
  let pending ← pendingWithFrame r.pending spaceId ⟨sequence, operations⟩
  .ok { r with pending := pending }

/-- (`refresh!`) The rotation with the store's later transactions pending, or a new base. -/
def refresh (Γ : Host) (r : Rotation) (s : TermStore) : Except Fault Rotation :=
  let target := currentSequence s
  if s.spaceId ≠ r.spaceId then .error ⟨⟨"rotation-space-mismatch"⟩, "fram: rotation belongs to a different space"⟩
  else if target < r.version then
    .error ⟨⟨"rotation-ahead-of-store"⟩, "fram: rotation is ahead of the store it projects"⟩
  else if r.version = target then .ok r
  else do
    let frames ← transactionFramesBetween s r.version target
    let pending ← frames.foldlM (fun built frame => pendingWithFrame built s.spaceId frame) r.pending
    let advanced := { r with version := target, pending := pending }
    if pendingFoldCap < pending.length then projected Γ s.spaceId target (allOccurrences advanced)
    else .ok advanced

end Fram
