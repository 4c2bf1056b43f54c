import Fram.Candidates

/-!
# Datalog: the indexed join and the semi-naive fixpoint

The rest of `src/fram/datalog.bgl`: the join that reads a relation through its candidate source, and the evaluation of rules by rounds.
A round derives only from the rows that the round before found new: for each literal that reads a relation derived here, one pass in
which that literal reads the new rows and the other literals read all rows. Strata run one after the other.

The loop of the source ends when a round finds nothing new. Here it takes the number of rounds that it may run, and gives `none` when
they are not enough.
-/

namespace Fram

namespace Datalog

open Closing

/-! ## The indexed join -/

/-- (`source-contains?`) The source has the row that the arguments are. -/
def sourceContains (Γ : Host) (source : CandidateSource) (relation : String) (arguments : List QueryTerm) (θ : Substitution) :
    Except Fault Bool := do
  let wanted ← ground arguments θ
  match source.rotation with
  | some rotation => do
    let t1 ← nth wanted 0
    let t2 ← nth wanted 1
    let t3 ← nth wanted 2
    let events := eventsAfterSequence (matching Γ rotation.rotation (some t1) (some t2) (some t3)) rotation.lowerExclusive
    pure (!events.isEmpty)
  | none => do
    let handles ← sourceHandles Γ source relation arguments θ
    (handles.getD []).anyM fun handle => do
      let row ← sourceRow source handle
      pure (rowEqv wanted row)

/-- (`triple-row`) The row of a proposition. -/
def tripleRow (p : Triple) : Tuple := [p.t1, p.t2, p.t3]

/-- The substitutions under which the arguments are the proposition of one of the events, each proposition taken once. -/
def propositionResults (arguments : List QueryTerm) (θ : Substitution) : List OperationOccurrence → List Triple →
    List Substitution → Eval (List Substitution)
  | [], _, results => pure results
  | event :: rest, seen, results =>
    whenOpen contextOpen results (
      if seen.any (·.eqv event.proposition) then propositionResults arguments θ rest seen results
      else unifyArgumentsControlled arguments (tripleRow event.proposition) θ >>= fun matched =>
        whenOpen contextOpen results ( propositionResults arguments θ rest (seen ++ [event.proposition]) (results ++ matched.toList)))

/-- (`rotation-results-indexed!`) -/
def rotationResultsIndexed (Γ : Host) (rotation : RotationCandidateSource) (arguments : List QueryTerm) (θ : Substitution) :
    Eval (List Substitution) := do
  let first ← lift (nth arguments 0)
  let second ← lift (nth arguments 1)
  let third ← lift (nth arguments 2)
  let events := eventsAfterSequence
    (matching Γ rotation.rotation (termValue first θ) (termValue second θ) (termValue third θ)) rotation.lowerExclusive
  propositionResults arguments θ events [] []

/-- The substitutions under which the arguments are the row of one of the handles. -/
def handleResults (source : CandidateSource) (arguments : List QueryTerm) (θ : Substitution) (handles : List Nat) :
    Eval (List Substitution) :=
  collect contextOpen id (fun results (found : Option Substitution) => results ++ found.toList)
    (fun handle => do
      let row ← lift (sourceRow source handle)
      unifyArgumentsControlled arguments row θ) handles []

/-- The substitutions under which the arguments are a row of an indexed source. -/
def candidateResults (Γ : Host) (source : CandidateSource) (relation : String) (arguments : List QueryTerm) (θ : Substitution) :
    Eval (List Substitution) :=
  match source.rotation with
  | some rotation => rotationResultsIndexed Γ rotation arguments θ
  | none => do
    let handles ← lift (sourceHandles Γ source relation arguments θ)
    match handles with
    | none => unifyTuples arguments source.rows θ
    | some handles => handleResults source arguments θ handles

/-- The negation of a relation with an indexed source: the substitution itself when the row is absent. -/
def absentFromSource (Γ : Host) (source : CandidateSource) (relation : String) (arguments : List QueryTerm) (θ : Substitution) :
    Eval (List Substitution) := do
  let found ← lift (sourceContains Γ source relation arguments θ)
  pure (if found then [] else [θ])

/-- (`relation-results-indexed!`) The substitutions under which a relation literal holds, read through the relation's source. -/
def relationResultsIndexed (Γ : Host) (db : Db) (sources : CandidateSources) (literal : Literal) (θ : Substitution) :
    Eval (List Substitution) :=
  if literal.negated then
    match sources literal.relation with
    | some (.candidates source) => absentFromSource Γ source literal.relation literal.arguments θ
    | _ => absentFrom (db literal.relation) literal.arguments θ
  else
    match sources literal.relation with
    | some (.virtual relation source) => do
      let rows ← virtualSourceRows relation source true literal.arguments θ
      unifyTuples literal.arguments rows θ
    | some (.candidates source) => candidateResults Γ source literal.relation literal.arguments θ
    | none =>
      if literal.relation ∈ textRelations then missingSourceResults literal.relation
      else unifyTuples literal.arguments (db literal.relation) θ

/-- (`literal-substitutions-indexed!`) -/
def literalSubstitutionsIndexed (Γ : Host) (db : Db) (sources : CandidateSources) :
    Literal → List Substitution → Eval (List Substitution) :=
  literalSubstitutionsBy (relationResultsIndexed Γ db sources)

/-- (`derive-rule-indexed!`) -/
def deriveRuleIndexed (Γ : Host) (db : Db) (sources : CandidateSources) (rule : Rule) : Eval (List Tuple) :=
  deriveRuleBy (relationResultsIndexed Γ db sources) rule

/-! ## One round -/

/-- The literal reads a relation and does not negate it. -/
def isPositive (literal : Literal) : Bool := decide (literal.kind = relationKind) && !literal.negated

/-- (`delta-relation-positions`) The positions of the body whose literal reads one of the relations. -/
def deltaRelationPositions (body : List Literal) (deltaRelations : List String) : List Nat :=
  (List.range body.length).filter fun position =>
    body[position]?.any fun literal => isPositive literal && decide (literal.relation ∈ deltaRelations)

/-- (`positive-relation-names`) The relations that the rules read, in order. -/
def positiveRelationNames (rules : List Rule) : List String :=
  (rules.foldl (fun names rule => rule.body.foldl
    (fun names literal => if isPositive literal then conjName names literal.relation else names) names) []).mergeSort textLe

/-- (`body-results-pinned!`) The substitutions under which a body holds when the literal at the pinned position reads the new rows and
the others read all rows. -/
def bodyResultsPinned (Γ : Host) (db : Db) (sources : CandidateSources) (delta : Db) (deltaSources : CandidateSources) (pin : Nat) :
    List Literal → Nat → List Substitution → Eval (List Substitution)
  | [], _, substitutions => whenOpen contextOpen [] (pure substitutions)
  | literal :: rest, position, substitutions =>
    whenOpen contextOpen [] (
      (if decide (position = pin) && isPositive literal then literalSubstitutionsIndexed Γ delta deltaSources literal substitutions
        else literalSubstitutionsIndexed Γ db sources literal substitutions) >>=
      bodyResultsPinned Γ db sources delta deltaSources pin rest (position + 1))

/-- The head rows that one pinned pass over a rule's body gives. -/
def pinnedRows (Γ : Host) (db : Db) (sources : CandidateSources) (delta : Db) (deltaSources : CandidateSources) (rule : Rule)
    (pin : Nat) : Eval (List Tuple) :=
  bodyResultsPinned Γ db sources delta deltaSources pin rule.body 0 [Substitution.empty] >>= fun substitutions =>
    whenOpen contextOpen [] (lift (substitutions.mapM (ground rule.headArguments)))

/-- (`derive-rule-delta!`) The rows that a rule derives from the new rows. -/
def deriveRuleDelta (Γ : Host) (db : Db) (sources : CandidateSources) (delta : Db) (deltaSources : CandidateSources)
    (deltaRelations : List String) (rule : Rule) : Eval (List Tuple) :=
  collect contextOpen (fun _ => []) intoRows (pinnedRows Γ db sources delta deltaSources rule)
    (deltaRelationPositions rule.body deltaRelations) []

/-- (`db-new-only`) The rows of the candidate that the database has not. -/
def dbNewOnly (candidate db : Db) (relations : List String) : Db := fun relation =>
  if relation ∈ relations then
    (candidate relation).foldl (fun rows row => if containsRow (db relation) row then rows else conjRow rows row) []
  else []

/-- (`db-merge-delta`) The database with the new rows of the relations added. -/
def dbMergeDelta (db delta : Db) (relations : List String) : Db :=
  relations.foldl (fun current relation =>
    if (delta relation).isEmpty then current else current.add relation (delta relation)) db

/-- (`delta-empty?`) No relation of these has a new row. -/
def deltaEmpty (delta : Db) (relations : List String) : Bool := relations.all fun relation => (delta relation).isEmpty

/-- The database with the rows of each rule added, as long as the context is open. -/
def deriveEach (derive : Rule → Eval (List Tuple)) (rules : List Rule) (db : Db) : Eval Db :=
  rules.foldr (fun rule next current =>
    whenOpen contextOpen current (derive rule >>= fun rows =>
      whenOpen contextOpen current (next (current.add rule.headRelation rows)))) pure db

/-- (`derive-delta!`) The rows that the rules derive from the new rows and that the database has not. -/
def deriveDelta (Γ : Host) (db : Db) (sources : CandidateSources) (delta : Db) (rules : List Rule)
    (relations deltaRelations : List String) : Eval Db :=
  let deltaSources := buildCandidateSources delta deltaRelations fun _ => none
  deriveEach (deriveRuleDelta Γ db sources delta deltaSources deltaRelations) rules (fun _ => []) >>= fun candidate =>
    whenOpen contextOpen (fun _ => []) (pure (dbNewOnly candidate db relations))

/-! ## Rounds and strata -/

/-- The rounds of a stratum, at most as many as given. -/
def fixpointRounds (Γ : Host) (rules : List Rule) (relations readRelations deltaRelations : List String) :
    Nat → Db → CandidateSources → Db → Eval (Option Db)
  | 0, db, _, delta =>
    whenOpen contextOpen (some db) (if deltaEmpty delta deltaRelations then pure (some db) else pure none)
  | rounds + 1, db, sources, delta =>
    whenOpen contextOpen (some db) (
      if deltaEmpty delta deltaRelations then pure (some db)
      else deriveDelta Γ db sources delta rules relations deltaRelations >>= fun nextDelta =>
        whenOpen contextOpen (some db) (
          fixpointRounds Γ rules relations readRelations deltaRelations rounds (dbMergeDelta db nextDelta relations)
            (addDeltaSources sources nextDelta readRelations) nextDelta))

/-- The relations that a stratum both derives and reads. -/
def deltaRelationNames (rules : List Rule) : List String :=
  (positiveRelationNames rules).filter fun relation => decide (relation ∈ ruleHeadRelations rules)

/-- (`fixpoint-with-candidates-context!`) One stratum: every rule once over the given rows, then rounds. -/
def fixpointWithCandidatesContext (Γ : Host) (rounds : Nat) (db : Db) (rules : List Rule) (candidates : CandidateSources) :
    Eval (Option Db) :=
  let relations := ruleHeadRelations rules
  let readRelations := positiveRelationNames rules
  let initialSources := buildCandidateSources db readRelations candidates
  deriveEach (deriveRuleIndexed Γ db initialSources) rules db >>= fun seeded =>
    whenOpen contextOpen (some seeded) (
      let delta := dbNewOnly seeded db relations
      fixpointRounds Γ rules relations readRelations (deltaRelationNames rules) rounds seeded
        (addDeltaSources initialSources delta readRelations) delta)

/-- The strata, one after the other, each with at most as many rounds as given. -/
def runStrataRounds (Γ : Host) (rounds : Nat) (candidates : CandidateSources) : List (List Rule) → Db → Eval (Option Db)
  | [], db => pure (some db)
  | stratum :: rest, db =>
    whenOpen contextOpen (some db) (
      fixpointWithCandidatesContext Γ rounds db stratum candidates >>= fun result =>
        match result with
        | some db => runStrataRounds Γ rounds candidates rest db
        | none => pure none)

/-- What an evaluation returns: the database, `none` when the rounds were not enough, and the first error. -/
structure QueryEvaluationResult where
  db : Option Db
  error : Option QueryEvaluationError

/-- (`run-strata-db-with-candidates-result!`) -/
def runStrataDbWithCandidatesResult (Γ : Host) (rounds : Nat) (db : Db) (strata : List (List Rule)) (candidates : CandidateSources)
    (control : Option QueryControl) : Except Fault QueryEvaluationResult := do
  let (result, context) ← runStrataRounds Γ rounds candidates strata db (newQueryEvaluationContext control)
  pure ⟨result, context.error⟩

end Datalog

end Fram
