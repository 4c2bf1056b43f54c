import Fram.Lib.Chunks
import Fram.Lib.KeyValue
import Fram.Lib.Lines
import Fram.Utf8

/-!
# Chunked storage of the Durable Object

`clients/cloudflare-do/src/adapter.mjs`: the log and the snapshot image of a database, each a range of chunks in a key-value storage
behind a manifest with its length, and the two in host memory, where the engine appends and truncates. A commit writes the chunks from
the earliest byte that changed, in one transaction that lands whole or not at all.

Counters are left out. `+∞` as a low water is `none`.
-/

namespace Fram.Worker

open Lines (Text)

/-- The two storage objects. -/
inductive Which
  | log
  | image
  deriving DecidableEq

/-- A value of the storage: a chunk, or the manifest of a range. -/
inductive StorageValue
  | chunk (bytes : Bytes)
  | manifest (length chunkBytes : Nat)

/-- `value.length` -/
def StorageValue.length : StorageValue → Nat
  | .chunk bytes => bytes.length
  | .manifest length _ => length

/-- `value.chunkBytes`, 0 where there is none. -/
def StorageValue.chunkBytes : StorageValue → Nat
  | .chunk _ => 0
  | .manifest _ chunkBytes => chunkBytes

/-- `new Uint8Array(value)` -/
def StorageValue.bytes : StorageValue → Bytes
  | .chunk bytes => bytes
  | .manifest length _ => List.replicate length 0

/-- (`DurableObjectStorage`) -/
abbrev Storage := KeyValue Text StorageValue

/-- `text.padStart(width, "0")` -/
def padStart (width : Nat) (text : Text) : Text := List.replicate (width - text.length) '0' ++ text

/-! ## One object in chunks -/

/-- (`ChunkedRange`) The chunk count is unknown until the range was loaded. -/
structure ChunkedRange where
  keyPrefix : Text
  chunkBytes : ℕ+
  batchKeys : ℕ+
  chunkCount : Option Nat

/-- (`metaKey`) -/
def ChunkedRange.metaKey (range : ChunkedRange) : Text := range.keyPrefix ++ "meta".toList

/-- (`#chunkKey`) -/
def ChunkedRange.chunkKey (range : ChunkedRange) (index : Nat) : Text := range.keyPrefix ++ padStart 8 (Nat.toDigits 10 index)

/-- One chunk read into the image. -/
def ChunkedRange.readChunk (range : ChunkedRange) (storage : Storage) (length : Nat) (image : Bytes) (index : Nat) :
    Except Text Bytes :=
  match storage (range.chunkKey index) with
  | none => .error (range.keyPrefix ++ " chunk ".toList ++ Nat.toDigits 10 index ++ " is missing; the object is torn".toList)
  | some value =>
    .ok (Chunks.overwrite image (index * range.chunkBytes) (value.bytes.take (min value.bytes.length (length - index * range.chunkBytes))))

/-- The chunk size of the manifest wins over that of the options. -/
def ChunkedRange.adopt (range : ChunkedRange) (chunkBytes : Nat) : ChunkedRange :=
  if h : 0 < chunkBytes then { range with chunkBytes := ⟨chunkBytes, h⟩ } else range

/-- (`load`) The range as it was written, and its bytes. -/
def ChunkedRange.load (range : ChunkedRange) (storage : Storage) : Except Text (ChunkedRange × Bytes) :=
  match storage range.metaKey with
  | none => .ok ({ range with chunkCount := some 0 }, [])
  | some manifest =>
    let range := range.adopt manifest.chunkBytes
    let length := manifest.length
    let chunks := Chunks.count range.chunkBytes length
    let range := { range with chunkCount := some chunks }
    do
      let image ← (Chunks.batches range.batchKeys (List.range chunks)).foldlM
        (fun image keys => keys.foldlM (range.readChunk storage length) image) (List.replicate length 0)
      .ok (range, image)

/-- The writes that publish the bytes of a range. -/
structure Plan where
  writes : List (Text × StorageValue)
  stale : List Text
  chunks : Nat
  length : Nat
  publishMeta : Bool

/-- (`plan`) Only the chunks at or after the low water are written, and the chunks past the last one are deleted. -/
def ChunkedRange.plan (range : ChunkedRange) (bytes : Bytes) (length lowWater : Nat) : Except Text Plan :=
  match range.chunkCount with
  | none => .error (range.keyPrefix ++ " was never loaded; stale chunks unknown".toList)
  | some chunkCount =>
    let first := lowWater / range.chunkBytes
    let chunks := Chunks.count range.chunkBytes length
    .ok
      { writes := (List.range' first (chunks - first)).map fun i =>
          let start : Nat := i * range.chunkBytes
          let stop := min (start + range.chunkBytes) length
          (range.chunkKey i, .chunk ((bytes.drop start).take (stop - start)))
        stale := (List.range' chunks (chunkCount - chunks)).map range.chunkKey
        chunks, length, publishMeta := true }

/-- (`applyTo`) -/
def ChunkedRange.applyTo (range : ChunkedRange) (storage : Storage) (plan : Plan) : Storage :=
  let written := (Chunks.batches range.batchKeys plan.writes).foldl KeyValue.putAll storage
  let cleared := (Chunks.batches range.batchKeys plan.stale).foldl KeyValue.deleteAll written
  if plan.publishMeta then cleared.put range.metaKey (.manifest plan.length range.chunkBytes) else cleared

/-- (`settle`) -/
def ChunkedRange.settle (range : ChunkedRange) (plan : Plan) : ChunkedRange := { range with chunkCount := some plan.chunks }

/-! ## Both objects -/

/-- The options of a store. -/
structure StoreOptions where
  chunkBytes : Option ℕ+
  batchKeys : Option ℕ+

/-- The prefixes of the keys of the two ranges. -/
def Which.keyPrefix : Which → Text
  | .log => "framlog/".toList
  | .image => "framimage/".toList

/-- (`new DurableFramStore`) -/
def newRange (options : StoreOptions) (which : Which) : ChunkedRange :=
  ⟨which.keyPrefix, options.chunkBytes.getD 65536, min (options.batchKeys.getD 100) 128, none⟩

/-- One object of a commit. -/
structure Part where
  which : Which
  bytes : Bytes
  length : Nat
  lowWater : Nat

/-- The plans of a commit. -/
def stage (ranges : Which → ChunkedRange) (parts : List Part) : Except Text (List (Which × Plan)) :=
  parts.mapM fun part => do
    let plan ← (ranges part.which).plan part.bytes part.length part.lowWater
    .ok (part.which, plan)

/-- The transaction of a commit. -/
def transaction (ranges : Which → ChunkedRange) (storage : Storage) (staged : List (Which × Plan)) : Storage :=
  staged.foldl (fun s e => (ranges e.1).applyTo s e.2) storage

/-- The ranges after a commit landed. -/
def settleAll (ranges : Which → ChunkedRange) (staged : List (Which × Plan)) : Which → ChunkedRange :=
  staged.foldl (fun r e => Function.update r e.1 ((r e.1).settle e.2)) ranges

/-! ## Host memory -/

/-- (`HostImage`) The buffer, which may be longer than the object, and the earliest byte that a commit must rewrite. -/
structure HostImage where
  bytes : Bytes
  length : Nat
  lowWater : Option Nat
  dirty : Bool
  fits : length ≤ bytes.length

/-- (`new HostImage`) -/
def HostImage.fresh (bytes : Bytes) : HostImage := ⟨bytes, bytes.length, none, false, Nat.le_refl _⟩

/-- The object: what stands below the length. -/
def HostImage.content (object : HostImage) : Bytes := object.bytes.take object.length

/-- The capacity doubled until it holds what is wanted. -/
def doubleCapacity (wanted : Nat) : Nat → Nat → Nat
  | 0, capacity => capacity
  | fuel + 1, capacity => if capacity < wanted then doubleCapacity wanted fuel (capacity * 2) else capacity

/-- (`#reserve`) The buffer with room for more bytes. -/
def HostImage.reserve (object : HostImage) (extra : Nat) : Bytes :=
  if object.length + extra ≤ object.bytes.length then object.bytes
  else
    let wanted := object.length + extra
    let capacity := doubleCapacity wanted wanted (max (object.bytes.length * 2) 65536)
    object.content ++ List.replicate (capacity - object.length) 0

/-- `Math.min` of a low water and a place. -/
def lower (lowWater : Option Nat) (place : Nat) : Nat := (lowWater.map (min place)).getD place

theorem HostImage.length_le_reserve (object : HostImage) (extra : Nat) : object.length ≤ (object.reserve extra).length := by
  have h := object.fits
  simp only [reserve, content]
  split
  · exact h
  · rw [List.length_append, List.length_take]
    omega

theorem HostImage.length_add_le_overwrite (object : HostImage) (chunk : Bytes) :
    object.length + chunk.length ≤ (Chunks.overwrite (object.reserve chunk.length) object.length chunk).length := by
  have := object.length_le_reserve chunk.length
  simp only [Chunks.overwrite, List.length_append, List.length_take]
  omega

/-- (`append`) -/
def HostImage.append (object : HostImage) (chunk : Bytes) : HostImage where
  bytes := Chunks.overwrite (object.reserve chunk.length) object.length chunk
  length := object.length + chunk.length
  lowWater := some (lower object.lowWater object.length)
  dirty := true
  fits := object.length_add_le_overwrite chunk

/-- (`truncate`) Refused past the end. -/
def HostImage.truncate (object : HostImage) (length : Nat) : HostImage :=
  if h : object.length < length then object
  else
    { object with
      length := length
      lowWater := some (lower object.lowWater length)
      dirty := true
      fits := (Nat.le_of_not_lt h).trans object.fits }

/-- (`takeCommit`) The low water that the commit starts from, 0 where there is none. -/
def HostImage.takeCommit (object : HostImage) : Nat × HostImage :=
  (object.lowWater.getD 0, { object with lowWater := none, dirty := false })

/-- (`restoreCommit`) -/
def HostImage.restoreCommit (object : HostImage) (low : Nat) : HostImage :=
  { object with lowWater := some (lower object.lowWater low), dirty := true }

/-! ## The adapter -/

/-- A commit that is under way: its parts and its plans. -/
structure Flight where
  parts : List Part
  staged : List (Which × Plan)

/-- The storage, the store over it, both objects in host memory, and the commit under way. -/
structure StorageWorld where
  storage : Storage
  ranges : Which → ChunkedRange
  images : Which → HostImage
  flight : Option Flight

/-- What happens: the engine appends and truncates, a commit begins, lands or is rejected, and the objects are loaded by a new store. -/
inductive StorageEvent
  | append (which : Which) (chunk : Bytes)
  | truncate (which : Which) (length : Nat)
  | commit
  | land
  | reject
  | reload (options : StoreOptions)

/-- The dirty objects, as parts of a commit. -/
def partsOf (images : Which → HostImage) : List Part :=
  ([.log, .image].filter fun which => (images which).dirty).map fun which =>
    ⟨which, (images which).bytes, (images which).length, (images which).takeCommit.1⟩

/-- The objects after a commit was taken from the dirty ones. -/
def takeAll (images : Which → HostImage) : Which → HostImage := fun which =>
  if (images which).dirty then (images which).takeCommit.2 else images which

/-- The objects after a commit of the parts was rejected. -/
def restoreAll (images : Which → HostImage) (parts : List Part) : Which → HostImage :=
  parts.foldl (fun images part => Function.update images part.which ((images part.which).restoreCommit part.lowWater)) images

/-- (`#commit`) Up to the transaction. One commit is under way at a time, and none begins when nothing is dirty. -/
def StorageWorld.commit (w : StorageWorld) : StorageWorld :=
  if w.flight.isSome || (partsOf w.images).isEmpty then w
  else
    match stage w.ranges (partsOf w.images) with
    | .error _ => { w with images := restoreAll (takeAll w.images) (partsOf w.images) }
    | .ok staged =>
      { w with
        images := takeAll w.images
        flight := some ⟨partsOf w.images, staged⟩ }

/-- The transaction lands. -/
def StorageWorld.land (w : StorageWorld) : StorageWorld :=
  match w.flight with
  | none => w
  | some flight =>
    { w with
      storage := transaction w.ranges w.storage flight.staged
      ranges := settleAll w.ranges flight.staged
      flight := none }

/-- The transaction is rejected. -/
def StorageWorld.reject (w : StorageWorld) : StorageWorld :=
  match w.flight with
  | none => w
  | some flight => { w with images := restoreAll w.images flight.parts, flight := none }

/-- One value for each object. -/
def byWhich {α : Type} (log image : α) : Which → α
  | .log => log
  | .image => image

/-- Both objects loaded by a new store. -/
def openObjects (options : StoreOptions) (storage : Storage) : Except Text ((Which → ChunkedRange) × (Which → HostImage)) := do
  let (log, logBytes) ← (newRange options .log).load storage
  let (image, imageBytes) ← (newRange options .image).load storage
  .ok (byWhich log image, byWhich (.fresh logBytes) (.fresh imageBytes))

/-- A new store loads the objects, once no commit is under way. -/
def StorageWorld.reload (w : StorageWorld) (options : StoreOptions) : StorageWorld :=
  if w.flight.isSome then w
  else
    match openObjects options w.storage with
    | .error _ => w
    | .ok (ranges, images) => { w with ranges, images }

/-- One event. -/
def StorageWorld.step (w : StorageWorld) : StorageEvent → StorageWorld
  | .append which chunk => { w with images := Function.update w.images which ((w.images which).append chunk) }
  | .truncate which length => { w with images := Function.update w.images which ((w.images which).truncate length) }
  | .commit => w.commit
  | .land => w.land
  | .reject => w.reject
  | .reload options => w.reload options

/-- A store over an empty storage. -/
def StorageWorld.boot (options : StoreOptions) : Except Text StorageWorld := do
  let (ranges, images) ← openObjects options fun _ => none
  .ok ⟨fun _ => none, ranges, images, none⟩

/-! ## What the storage is for -/

/-- Two files as the engine is to see them: what each holds, whether anything was written since a commit was last taken, what the
commit under way took of them, and what they held at the last commit that landed. -/
structure TwoFiles where
  held : Which → Bytes
  written : Bool
  taken : Option (Which → Bytes)
  landed : Which → Bytes

/-- Two empty files. -/
def TwoFiles.empty : TwoFiles := ⟨fun _ => [], false, none, fun _ => []⟩

/-- What an event is to do with the files. A file is cut only at a place that it has, one commit is under way at a time, it takes both
files at once and only when something was written, and a commit that is rejected leaves its writes to the next one. -/
def TwoFiles.step (files : TwoFiles) : StorageEvent → TwoFiles
  | .append which chunk => { files with held := Function.update files.held which (files.held which ++ chunk), written := true }
  | .truncate which length =>
    if (files.held which).length < length then files
    else { files with held := Function.update files.held which ((files.held which).take length), written := true }
  | .commit => if files.taken.isNone ∧ files.written then { files with taken := some files.held, written := false } else files
  | .land => { files with landed := files.taken.getD files.landed, taken := none }
  | .reject => { files with written := files.written || files.taken.isSome, taken := none }
  | .reload _ => if files.taken.isNone then { files with held := files.landed, written := false } else files

end Fram.Worker
