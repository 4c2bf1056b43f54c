import Fram.Rotation
import Fram.Wire

/-!
# Sessions

The session of `src/fram/schema.bgl`: a store, its rotation, the cache of ordered results, and a count of the changes to that cache.
A session of the source is four cells; a session here is the values in them, and a mutating function returns the new ones.
-/

namespace Fram

/-- (`OrderedResultSnapshot`) -/
structure OrderedResultSnapshot where
  space : String
  version : Int
  lowerExclusive : Int
  deriving DecidableEq

/-- (`OrderedResultKey`) -/
structure OrderedResultKey where
  snapshot : OrderedResultSnapshot
  operation : Keyword
  digest : String
  deriving DecidableEq

/-- (`OrderedResultEntry`) -/
structure OrderedResultEntry where
  key : OrderedResultKey
  queryRows : List (List Term)
  tripleRows : List Triple
  bytes : Nat
  deriving DecidableEq

/-- (`OrderedResultCache`) -/
structure OrderedResultCache where
  entries : List OrderedResultEntry
  snapshots : List OrderedResultSnapshot
  bytes : Int
  hits : Int
  misses : Int
  evictions : Int
  deriving DecidableEq

/-- (`empty-ordered-result-cache`) -/
def emptyOrderedResultCache : OrderedResultCache := ⟨[], [], 0, 0, 0, 0⟩

/-- (`Session`) -/
structure Session where
  store : TermStore
  view : Rotation
  orderedResults : OrderedResultCache
  derivedGeneration : Int

/-- (`session!`) -/
def newSession (Γ : Host) (s : TermStore) : Except Fault Session := do
  let view ← project Γ s
  .ok ⟨s, view, emptyOrderedResultCache, 0⟩

/-- (`mark-derived-change!`) -/
def markDerivedChange (session : Session) : Session := { session with derivedGeneration := session.derivedGeneration + 1 }

/-- (`refresh!`) -/
def refreshSession (Γ : Host) (session : Session) : Except Fault Session := do
  let view ← refresh Γ session.view session.store
  .ok { session with view := view }

end Fram

/-!
## The cache of ordered results

The cache of `src/fram/native_query_ops.bgl`: results by snapshot, operation and digest, the least recently used evicted first,
bounded in snapshots, in entries of one snapshot, and in bytes.
-/

namespace Fram

/-- (`result-cache-snapshot-limit`) -/
def resultCacheSnapshotLimit : Nat := 4

/-- (`result-cache-per-snapshot-limit`) -/
def resultCachePerSnapshotLimit : Nat := 8

/-- (`result-cache-byte-limit`) -/
def resultCacheByteLimit : Int := 67108864

/-- (`remove-result-snapshot`) -/
def removeResultSnapshot (values : List OrderedResultSnapshot) (target : OrderedResultSnapshot) : List OrderedResultSnapshot :=
  values.filter fun value => decide (value ≠ target)

/-- (`result-snapshot-present?`) -/
def resultSnapshotPresent (entries : List OrderedResultEntry) (snapshot : OrderedResultSnapshot) : Bool :=
  entries.any fun entry => decide (snapshot = entry.key.snapshot)

/-- (`result-entry-index`) -/
def resultEntryIndex (entries : List OrderedResultEntry) (key : OrderedResultKey) : Option Nat :=
  entries.findIdx? fun entry => decide (key = entry.key)

/-- (`snapshot-entry-count`) -/
def snapshotEntryCount (entries : List OrderedResultEntry) (snapshot : OrderedResultSnapshot) : Nat :=
  entries.countP fun entry => decide (snapshot = entry.key.snapshot)

/-- (`first-snapshot-entry-index`) -/
def firstSnapshotEntryIndex (entries : List OrderedResultEntry) (snapshot : OrderedResultSnapshot) : Option Nat :=
  entries.findIdx? fun entry => decide (snapshot = entry.key.snapshot)

/-- (`remove-result-entry`) -/
def removeResultEntry (state : OrderedResultCache) (index : Nat) : OrderedResultCache :=
  match state.entries[index]? with
  | none => state
  | some entry =>
    let remaining := state.entries.eraseIdx index
    { state with
      entries := remaining
      snapshots :=
        if resultSnapshotPresent remaining entry.key.snapshot then state.snapshots
        else removeResultSnapshot state.snapshots entry.key.snapshot
      bytes := state.bytes - entry.bytes
      evictions := state.evictions + 1 }

/-- (`touch-result-entry`) -/
def touchResultEntry (state : OrderedResultCache) (index : Nat) (entry : OrderedResultEntry) : OrderedResultCache :=
  { state with
    entries := state.entries.eraseIdx index ++ [entry]
    snapshots := removeResultSnapshot state.snapshots entry.key.snapshot ++ [entry.key.snapshot] }

/-- (`append-result-entry`) -/
def appendResultEntry (state : OrderedResultCache) (entry : OrderedResultEntry) : OrderedResultCache :=
  { state with
    entries := state.entries ++ [entry]
    snapshots := removeResultSnapshot state.snapshots entry.key.snapshot ++ [entry.key.snapshot]
    bytes := state.bytes + entry.bytes }

/-- (`enforce-result-entry-limit`) Each round removes an entry, so as many rounds as entries are enough. -/
def enforceResultEntryLimit (snapshot : OrderedResultSnapshot) : Nat → OrderedResultCache → OrderedResultCache
  | 0, bounded => bounded
  | fuel + 1, bounded =>
    if resultCachePerSnapshotLimit < snapshotEntryCount bounded.entries snapshot then
      match firstSnapshotEntryIndex bounded.entries snapshot with
      | some index => enforceResultEntryLimit snapshot fuel (removeResultEntry bounded index)
      | none => bounded
    else bounded

/-- (`enforce-result-snapshot-limit`) Each round removes an entry or a snapshot. -/
def enforceResultSnapshotLimit : Nat → OrderedResultCache → OrderedResultCache
  | 0, bounded => bounded
  | fuel + 1, bounded =>
    match bounded.snapshots with
    | [] => bounded
    | snapshot :: _ =>
      if resultCacheSnapshotLimit < bounded.snapshots.length then
        enforceResultSnapshotLimit fuel
          (match firstSnapshotEntryIndex bounded.entries snapshot with
          | some index => removeResultEntry bounded index
          | none => { bounded with snapshots := removeResultSnapshot bounded.snapshots snapshot })
      else bounded

/-- (`enforce-result-byte-limit`) Each round removes an entry. -/
def enforceResultByteLimit : Nat → OrderedResultCache → OrderedResultCache
  | 0, bounded => bounded
  | fuel + 1, bounded =>
    if resultCacheByteLimit < bounded.bytes ∧ bounded.entries ≠ [] then
      enforceResultByteLimit fuel (removeResultEntry bounded 0)
    else bounded

/-- (`result-cache-key`) -/
def resultCacheKey (session : Session) (version lowerExclusive : Int) (operation : Keyword) (digest : String) :
    OrderedResultKey :=
  ⟨⟨session.store.spaceId, version, lowerExclusive⟩, operation, digest⟩

/-- (`result-cache-lookup!`) -/
def resultCacheLookup (session : Session) (key : OrderedResultKey) : Session × Option OrderedResultEntry :=
  let state := session.orderedResults
  let missed := markDerivedChange { session with orderedResults := { state with misses := state.misses + 1 } }
  match resultEntryIndex state.entries key with
  | none => (missed, none)
  | some index =>
    match state.entries[index]? with
    | none => (missed, none)
    | some entry =>
      let touched := touchResultEntry state index entry
      (markDerivedChange { session with orderedResults := { touched with hits := touched.hits + 1 } }, some entry)

/-- (`retain-result-entry!`) -/
def retainResultEntry (session : Session) (entry : OrderedResultEntry) : Session :=
  let appended := appendResultEntry session.orderedResults entry
  let rounds := appended.entries.length + appended.snapshots.length
  markDerivedChange { session with
    orderedResults :=
      enforceResultByteLimit rounds
        (enforceResultSnapshotLimit rounds (enforceResultEntryLimit entry.key.snapshot rounds appended)) }

/-- (`result-cache-stats`) -/
def resultCacheStats (session : Session) : List Int :=
  let state := session.orderedResults
  [state.hits, state.misses, state.bytes, state.evictions]

/-- (`canonical-term-byte-count!`) -/
def canonicalTermByteCount (term : Term) : Nat :=
  match written (appendTerm term 0) with
  | .ok bytes => bytes.length
  | .error _ => 0

/-- (`triple-result-weight!`) -/
def tripleResultWeight (rows : List Triple) : Nat :=
  32 + 8 * rows.length + (rows.map fun row => canonicalTermByteCount row.term).sum

/-- (`retain-triple-result!`) -/
def retainTripleResult (session : Session) (key : OrderedResultKey) (rows : List Triple) : Session :=
  retainResultEntry session ⟨key, [], rows, tripleResultWeight rows⟩

end Fram
