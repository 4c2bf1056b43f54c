import Fram.Frames
import Fram.Datalog

/-!
# Datalog: candidate sources

The section of `src/fram/datalog.bgl` that builds the indexes of candidate rows and chooses handles from them. A source holds its rows
by handle and finds the handles of the rows that may match the bound arguments of a literal; the join unifies each of these again. An
occurrence source reads a window of a store in place of rows, and a rotation source the live assertions of a rotation.
-/

namespace Fram

namespace Datalog

open Closing

/-! ## Building the sources -/

/-- (`empty-candidate-source`) -/
def emptyCandidateSource : CandidateSource :=
  ⟨[], fun _ => Trie.empty 1, Trie.empty 3, Trie.empty 3, Trie.empty 3, none, none⟩

/-- (`occurrence-candidate-source`) -/
def occurrenceCandidateSource (root : TermStore) (lowerExclusive upperInclusive : Int) : CandidateSource :=
  { emptyCandidateSource with occurrence := some ⟨root, lowerExclusive, upperInclusive, operationPostings root⟩ }

/-- (`rotation-candidate-source`) -/
def rotationCandidateSource (rotation : Rotation) (lowerExclusive : Int) : CandidateSource :=
  { emptyCandidateSource with rotation := some ⟨rotation, lowerExclusive⟩ }

/-- (`event-after-sequence?`) The event's transaction is past an exclusive lower bound. -/
def eventAfterSequence (event : OperationOccurrence) (lowerExclusive : Int) : Bool :=
  if lowerExclusive < 0 then true
  else if isOccurrenceCoordinate event.coordinate.term then
    match occurrenceParts event.coordinate.term with
    | some (_, sequence, _) => decide (lowerExclusive < sequence)
    | none => false
  else false

/-- (`events-after-sequence`) -/
def eventsAfterSequence (events : List OperationOccurrence) (lowerExclusive : Int) : List OperationOccurrence :=
  if lowerExclusive < 0 then events else events.filter fun event => eventAfterSequence event lowerExclusive

/-- (`append-handle`) The bucket with a handle added under a value. -/
def appendHandle (bucket : HandleBucket) (key : Term) (handle : Nat) : HandleBucket := Trie.add Term.eqv 1 bucket [key] handle

/-- (`add-position-handles`) The buckets of the positions with a row's values added under its handle, from a position on. -/
def addPositionHandles (handle : Nat) : Tuple → Nat → (Nat → HandleBucket) → Nat → HandleBucket
  | [], _, index => index
  | value :: values, position, index =>
    addPositionHandles handle values (position + 1)
      (Function.update index position (appendHandle (index position) value handle))

/-- (`trie-add`) The trie with a row's three values added in an order. -/
def trieAdd (trie : HandleTrie) (t1 t2 t3 : Term) (handle : Nat) : HandleTrie := Trie.add Term.eqv 3 trie [t1, t2, t3] handle

/-- (`trie-probe`) The handles under a prefix of at most three values. -/
def trieProbe (trie : HandleTrie) (wanted : List Term) : List Nat := Trie.probe Term.eqv 3 trie wanted

/-- (`candidate-source-add`) The source with one more row, under the next handle. -/
def candidateSourceAdd (relation : String) (source : CandidateSource) (row : Tuple) : CandidateSource :=
  let handle := source.rows.length
  let withRow := { source with rows := source.rows ++ [row] }
  match row with
  | [t1, t2, t3] =>
    if relation = tripleRelation then
      { withRow with
        spo := trieAdd source.spo t1 t2 t3 handle
        pos := trieAdd source.pos t2 t3 t1 handle
        osp := trieAdd source.osp t3 t1 t2 handle }
    else { withRow with positions := addPositionHandles handle row 0 source.positions }
  | _ => { withRow with positions := addPositionHandles handle row 0 source.positions }

/-- (`candidate-source-add-rows`) -/
def candidateSourceAddRows (relation : String) (source : CandidateSource) (rows : List Tuple) : CandidateSource :=
  rows.foldl (candidateSourceAdd relation) source

/-- (`withdrawal-candidate-source`) -/
def withdrawalCandidateSource (root : TermStore) (lowerExclusive upperInclusive : Int) : Except Fault CandidateSource := do
  let rows ← withdrawalTuplesBetween root lowerExclusive upperInclusive
  pure (candidateSourceAddRows withdrawalRelation emptyCandidateSource (orderedRows (intoRows [] rows)))

/-- (`build-candidate-sources`) A source for each relation that has none yet, from the rows of the database. -/
def buildCandidateSources (db : Db) (relations : List String) (seed : CandidateSources) : CandidateSources :=
  relations.foldl (fun sources relation =>
    if (sources relation).isSome then sources
    else Function.update sources relation
      (some (.candidates (candidateSourceAddRows relation emptyCandidateSource (orderedRows (db relation)))))) seed

/-- The source that new rows of a relation are added to. -/
def sourceToExtend : Option CandidateSourceValue → CandidateSource
  | some (.candidates source) => source
  | _ => emptyCandidateSource

/-- (`add-delta-sources`) The sources with the new rows of the relations added. -/
def addDeltaSources (sources : CandidateSources) (delta : Db) (relations : List String) : CandidateSources :=
  relations.foldl (fun current relation =>
    if (delta relation).isEmpty then current
    else Function.update current relation
      (some (.candidates (candidateSourceAddRows relation (sourceToExtend (current relation)) (orderedRows (delta relation))))))
    sources

/-! ## Candidate handles -/

/-- (`bound-prefix`) The values of the arguments at these positions, up to the first that is unbound. -/
def boundPrefix (arguments : List QueryTerm) (θ : Substitution) : List Nat → Except Fault (List Term)
  | [] => .ok []
  | position :: rest => do
    let term ← nth arguments position
    match termValue term θ with
    | none => pure []
    | some value => do
      let values ← boundPrefix arguments θ rest
      pure (value :: values)

/-- (`triple-prefix-handles`) The handles under the longest bound prefix of three orders, or `none` when nothing is bound. -/
def triplePrefixHandles (source : CandidateSource) (arguments : List QueryTerm) (θ : Substitution) :
    Except Fault (Option (List Nat)) := do
  let spoKey ← boundPrefix arguments θ [0, 1, 2]
  let posKey ← boundPrefix arguments θ [1, 2, 0]
  let ospKey ← boundPrefix arguments θ [2, 0, 1]
  if spoKey.length = 0 ∧ posKey.length = 0 ∧ ospKey.length = 0 then pure none
  else if posKey.length ≤ spoKey.length ∧ ospKey.length ≤ spoKey.length then pure (some (trieProbe source.spo spoKey))
  else if ospKey.length ≤ posKey.length then pure (some (trieProbe source.pos posKey))
  else pure (some (trieProbe source.osp ospKey))

/-- (`positional-handles`) The shortest of the buckets that the bound arguments select, from a position on. -/
def positionalHandles (source : CandidateSource) (θ : Substitution) : List QueryTerm → Nat → Option (List Nat) → Option (List Nat)
  | [], _, best => best
  | term :: terms, position, best =>
    match termValue term θ with
    | none => positionalHandles source θ terms (position + 1) best
    | some value =>
      let candidate := Trie.probe Term.eqv 1 (source.positions position) [value]
      positionalHandles source θ terms (position + 1)
        (match best with
        | none => some candidate
        | some shortest => if candidate.length < shortest.length then some candidate else some shortest)

/-- (`source-handles`) The handles of the rows that may match, or `none` when nothing is bound. -/
def sourceHandles (Γ : Host) (source : CandidateSource) (relation : String) (arguments : List QueryTerm) (θ : Substitution) :
    Except Fault (Option (List Nat)) :=
  match source.occurrence with
  | some occurrence => do
    let first ← nth arguments 0
    let third ← nth arguments 2
    let positions ← operationCandidatePositions Γ occurrence.root occurrence.lowerExclusive occurrence.upperInclusive
      (termValue first θ) (termValue third θ) occurrence.postings
    pure (some positions)
  | none =>
    if relation = tripleRelation ∧ arguments.length = 3 then triplePrefixHandles source arguments θ
    else .ok (positionalHandles source θ arguments 0 none)

/-- (`source-row`) The row of a handle. -/
def sourceRow (source : CandidateSource) (handle : Nat) : Except Fault Tuple :=
  match source.occurrence with
  | some occurrence => occurrenceTupleAt occurrence.root handle
  | none => nth source.rows handle

end Datalog

end Fram
