import Fram.Lib.Fueled
import Fram.Schema

/-!
# Pulls

`src/pull.bclj`: nested shapes of a store, by patterns. A pull reads what is live now or was at a version, and resolves names and
predicates through a session of the store as it is. A node's expansion counts, and its depth is passed down; a subject that is being
expanded already is a cycle.

The steps that an evaluation keeps are not the source's: they say what it did, for the statements about it. The maps of a result are told
apart by how they were made.
-/

namespace Fram

namespace Pull

/-- (`default-max-depth`) -/
def defaultMaxDepth : Nat := 5

/-- (`default-max-nodes`) -/
def defaultMaxNodes : Nat := 1000

/-- (`reserved-preds`) -/
def reservedPreds : List String :=
  ["withdrawn_reason", "value_kind", "withdrawn_by", "store-supersedes", "name", "withdrawn_at", "cardinality"]

/-- (`ref-kind`) -/
def refKind : String := "ref"

/-! ## Patterns -/

mutual

/-- An element of a pattern: `:*`, a predicate's name, or a map of such names to what is pulled of their values. -/
inductive Element where
  | star
  | attr (name : String)
  | map (entries : List (String × Subpattern))

/-- What is pulled of the values of a predicate: a pattern, the pattern itself so many levels down, or itself at every level. -/
inductive Subpattern where
  | pattern (elements : List Element)
  | levels (n : Int)
  | ellipsis

end

/-- A root: a subject's name, or several. -/
inductive Root where
  | one (name : String)
  | several (names : List String)

/-- The options of a pull. -/
structure Options where
  asOf : Option Int
  provenance : Bool
  maxDepth : Option Int
  maxNodes : Option Int

section Validate

variable (blank : String → Bool)

mutual

/-- (`valid-elem?`) -/
def Element.valid : Element → Bool
  | .star => true
  | .attr name => !blank name
  | .map entries => !entries.isEmpty && validEntries entries

/-- All names of a map are not blank, and what is pulled of them is valid. -/
def validEntries : List (String × Subpattern) → Bool
  | [] => true
  | (key, sub) :: entries => !blank key && sub.valid && validEntries entries

/-- (`valid-subpat?`) -/
def Subpattern.valid : Subpattern → Bool
  | .pattern elements => validElements elements
  | .levels n => decide (0 < n)
  | .ellipsis => true

/-- All elements of a pattern are valid. -/
def validElements : List Element → Bool
  | [] => true
  | element :: elements => element.valid && validElements elements

end

/-- The messages of an option that is to be positive. -/
def capErrors (key : String) : Option Int → List String
  | some v => if 0 < v then [] else [key ++ " must be a positive integer"]
  | none => []

/-- (`validate`) The messages of what is malformed. What is blank, and how an element is printed, are the host's. -/
def validate (printElement : Element → String) (root : Root) (pattern : List Element) (opts : Options) : List String :=
  (match root with
    | .one name => if blank name then ["root must be a subject-name string or a non-empty vector of name strings"] else []
    | .several names =>
      if names.isEmpty || names.any blank then ["root must be a subject-name string or a non-empty vector of name strings"] else []) ++
  (pattern.filter fun element => !element.valid blank).map (fun element => "malformed pattern element: " ++ printElement element) ++
  capErrors ":max-depth" opts.maxDepth ++ capErrors ":max-nodes" opts.maxNodes ++
  match opts.asOf with
  | some v => if 0 ≤ v then [] else [":as-of must be a non-negative integer"]
  | none => []

end Validate

/-- (`clamp`) -/
def clamp (v : Option Int) (default : Nat) : Nat :=
  match v with
  | some v => if 0 < v then min v.toNat default else default
  | none => default

/-! ## What a pull reads -/

/-- What the functions of one pull have at hand. -/
structure Reader where
  Γ : Host
  print : Term → String
  session : Session
  occurrences : List OperationOccurrence
  liveNow : List OperationOccurrence
  withdrawals : List Withdrawal
  asOf : Option Int
  provenance : Bool
  maxDepth : Nat
  maxNodes : Nat

/-- (`event-sequence`) -/
def eventSequence (event : OperationOccurrence) : Int :=
  match occurrenceParts event.coordinate.term with
  | some (_, sequence, _) => sequence
  | none => 0

/-- The events without the newest assertion of a proposition. -/
def withdrawn (active : List OperationOccurrence) (proposition : Triple) : List OperationOccurrence :=
  match (active.filter fun candidate => proposition.eqv candidate.proposition).getLast? with
  | none => active
  | some target => active.filter fun candidate => !target.coordinate.eqv candidate.coordinate

/-- (`events-at`) The assertions that are live after the transactions up to a sequence. -/
def eventsAt (occurrences : List OperationOccurrence) (cutoff : Int) : List OperationOccurrence :=
  occurrences.foldl (fun active event =>
    if cutoff < eventSequence event then active
    else if isAssertionOccurrence event then active ++ [event]
    else withdrawn active event.proposition) []

/-- What is neither nil nor false. -/
def truthy : Option Term → Option Term
  | some (.atom (.bool false)) => none
  | value => value

section Reader

variable (r : Reader)

/-- (`snapshot-events`) -/
def Reader.snapshotEvents : List OperationOccurrence :=
  match r.asOf with
  | some cutoff => eventsAt r.occurrences cutoff
  | none => r.liveNow

/-- (`live-event?`) -/
def Reader.liveEvent (event : OperationOccurrence) : Bool := r.liveNow.any fun candidate => event.coordinate.eqv candidate.coordinate

/-- (`withdrawal-for`) -/
def Reader.withdrawalFor (occurrence : Triple) : Option Withdrawal :=
  r.withdrawals.find? fun candidate => occurrence.eqv candidate.assertion.coordinate

/-- (`metadata-value`) -/
def Reader.metadataValue (owner : Term) (predicate : Keyword) : Option Term :=
  ((r.snapshotEvents.filter fun candidate =>
    isAssertionOccurrence candidate && owner.eqv candidate.proposition.t1 &&
      (Term.atom (.keyword predicate)).eqv candidate.proposition.t2 &&
      r.asOf.all fun cutoff => decide (eventSequence candidate ≤ cutoff)).getLast?).map (·.proposition.t3)

/-- The value of a metadata predicate of an occurrence, else of its transaction. -/
def Reader.metadataOf (occurrence : Triple) (predicate : Keyword) : Option Term :=
  match truthy (r.metadataValue occurrence.term predicate) with
  | some value => some value
  | none => r.metadataValue occurrence.t1 predicate

/-- (`agent-of`) -/
def Reader.agentOf (occurrence : Triple) : Option Term := r.metadataOf occurrence ⟨"kernel/asserted-by"⟩

/-- (`recorded-at-of`) -/
def Reader.recordedAtOf (occurrence : Triple) : Option Term := r.metadataOf occurrence ⟨"kernel/recorded-at"⟩

/-- (`pid-of`) -/
def Reader.pidOf (p : String) : Except Fault (Option Term) := Schema.resolvePredicate r.Γ r.session p

/-- (`lookup`, of `fram.schema`) -/
def Reader.lookup (subject : Term) (pname : String) : Except Fault (Option Term) := do
  match ← r.pidOf pname with
  | none => .ok none
  | some pid => .ok ((byT12 r.Γ r.session.view subject pid).head?.map (·.proposition.t3))

/-- (`name-of`, of `fram.schema`) -/
def Reader.nameOf (subject : Term) : Except Fault (Option Term) := r.lookup subject Schema.namePredicate

/-- (`nm-of`) -/
def Reader.nmOf (term : Term) : Except Fault Term := do
  let name ← r.nameOf term
  .ok ((truthy name).getD term)

/-- (`resolve-name`, of `fram.schema`) -/
def Reader.resolveName (name : String) : Except Fault (Option Term) := do
  match ← r.pidOf Schema.namePredicate with
  | none => .ok none
  | some pid => .ok ((byT23 r.Γ r.session.view pid (.str name)).head?.map (·.proposition.t1))

/-- (`fwd-events`) -/
def Reader.fwdEvents (left predicate : Term) : List OperationOccurrence :=
  let candidates :=
    if r.asOf.isSome then r.snapshotEvents
    else if r.provenance then
      r.occurrences.filter fun event => isAssertionOccurrence event && (r.liveEvent event || (r.withdrawalFor event.coordinate).isSome)
    else r.liveNow
  candidates.filter fun event => isAssertionOccurrence event && left.eqv event.proposition.t1 && predicate.eqv event.proposition.t2

/-- (`rev-events`) -/
def Reader.revEvents (predicate right : Term) : List OperationOccurrence :=
  r.snapshotEvents.filter fun event => isAssertionOccurrence event && predicate.eqv event.proposition.t2 && right.eqv event.proposition.t3

/-- (`subject-events`) -/
def Reader.subjectEvents (left : Term) : List OperationOccurrence :=
  r.snapshotEvents.filter fun event => isAssertionOccurrence event && left.eqv event.proposition.t1

end Reader

/-! ## Results -/

/-- A value with where it comes from. -/
structure Sourced where
  val : Term
  cid : Triple
  agent : Option Term
  seq : Int
  withdrawn : Bool
  ts : Option Term
  withdrawal : Option (Option Term × Triple)
  deriving DecidableEq

/-- A part of a result. The last four are maps with `:fram/id`: a subject that is being expanded, one that a bound cut off, a root that
names nothing, and an expanded one. -/
inductive Pulled where
  | value (term : Term)
  | sourced (value : Sourced)
  | many (items : List Pulled)
  | cycle (name : Term)
  | truncated (name : Term)
  | absent (name : String)
  | node (name : Term) (entries : List (String × Pulled))

/-- (`assoc`) -/
def assoc (entries : List (String × Pulled)) (key : String) (value : Pulled) : List (String × Pulled) :=
  if entries.any (·.1 = key) then entries.map fun entry => if entry.1 = key then (key, value) else entry else entries ++ [(key, value)]

/-- What an evaluation did: it expanded a node at a depth, or came to the flat list of the subjects that refer to one. -/
inductive Step where
  | expanded (depth : Nat)
  | listed (depth : Nat) (subjects visited : List Term) (count : Nat)
  deriving DecidableEq

/-- The count of expanded nodes, and the steps up to now. -/
structure Evaluation where
  count : Nat
  steps : List Step

/-- A part of an evaluation. It may throw, and has no result when its fuel runs out. -/
abbrev PullM := Fueled.Comp Evaluation Fault

/-- A read as a part of an evaluation. -/
abbrev read {α : Type} (result : Except Fault α) : PullM α := Fueled.lift result

section Evaluate

variable (r : Reader)

/-- (`leaf`) -/
def leaf (predicate : Term) (event : OperationOccurrence) : Except Fault Pulled := do
  let right := event.proposition.t3
  let kind ← r.lookup predicate Schema.valueKindPredicate
  let value ← if kind.any ((Term.str refKind).eqv ·) then r.nmOf right else .ok right
  if r.provenance then
    let withdrawal := if r.asOf.isSome then none else r.withdrawalFor event.coordinate
    .ok (.sourced ⟨value, event.coordinate, r.agentOf event.coordinate, eventSequence event, withdrawal.isSome,
      r.recordedAtOf event.coordinate, withdrawal.map fun w => (r.agentOf w.retraction.coordinate, w.retraction.coordinate)⟩)
  else .ok (.value value)

/-- (`values`) -/
def values (pname : String) (predicate left : Term) : Except Fault (Option Pulled) := do
  let rendered ← (r.fwdEvents left predicate).mapM (leaf r predicate)
  if rendered.isEmpty then .ok none
  else
    let card ← Schema.cardinality r.Γ r.session pname
    .ok (if card = Schema.single then rendered.getLast? else some (.many rendered))

/-- (`subpat->pattern`) -/
def subpatPattern (key : String) : Subpattern → List Element
  | .pattern elements => elements
  | .levels n => if 1 < n then [.map [(key, .levels (n - 1))]] else []
  | .ellipsis => [.map [(key, .ellipsis)]]

/-- The entries with a value when there is one. -/
def assocSome (entries : List (String × Pulled)) (key : String) : Option Pulled → List (String × Pulled)
  | some value => assoc entries key value
  | none => entries

/-- What `:*` adds: the values of each predicate of the subject that is not reserved. -/
def starEntry (left : Term) (entries : List (String × Pulled)) (predicate : Term) : Except Fault (List (String × Pulled)) := do
  let pname := Schema.predicateName r.Γ r.print r.session predicate
  if pname ∈ reservedPreds then .ok entries
  else do
    let value ← values r pname predicate left
    .ok (assocSome entries pname value)

/-- How a subject is expanded with a pattern, at a depth and below the subjects that are being expanded. -/
abbrev Expand := Term → Term → List Element → Nat → List Term → PullM Pulled

variable (expand : Expand)

/-- (`recur-target`) -/
def recurTarget (target : Term) (pattern : List Element) (depth : Nat) (visited : List Term) : PullM Pulled := do
  let name ← read (r.nmOf target)
  if r.maxDepth < depth + 1 then pure (.truncated name)
  else expand target name pattern (depth + 1) visited

/-- A flat element of subjects that refer to one. Its depth is not compared with the bound. -/
def flatReverse (subjects : List Term) (depth : Nat) (visited : List Term) : PullM Pulled := do
  modify fun s => { s with steps := s.steps ++ [.listed depth subjects visited s.count] }
  let items ← subjects.mapM fun subject => do
    let name ← read (r.nmOf subject)
    expand subject name [] (depth + 1) visited
  pure (.many items)

/-- A value below a map element: one that has a name is expanded. -/
def nested (pattern : List Element) (depth : Nat) (visited : List Term) (right : Term) : PullM Pulled := do
  match ← read (r.nameOf right) with
  | none => pure (.value right)
  | some _ => recurTarget r expand right pattern depth visited

/-- What the values below a map element make of its entry. -/
def withRendered (key : String) (entries : List (String × Pulled)) : List Pulled → Except Fault (List (String × Pulled))
  | [] => .ok entries
  | first :: rest => do
    let card ← Schema.cardinality r.Γ r.session key
    .ok (assoc entries key (if card = Schema.single then first else .many (first :: rest)))

/-- One name of a map element. -/
def mapEntry (left : Term) (depth : Nat) (visited : List Term) (entries : List (String × Pulled)) (entry : String × Subpattern) :
    PullM (List (String × Pulled)) :=
  if entry.1.toList.head? = some '_' then do
    match ← read (r.pidOf (String.ofList entry.1.toList.tail)) with
    | none => pure entries
    | some predicate => do
      let items ← ((r.revEvents predicate left).map (·.proposition.t1)).mapM fun subject =>
        recurTarget r expand subject (subpatPattern entry.1 entry.2) depth visited
      pure (assoc entries entry.1 (.many items))
  else do
    match ← read (r.pidOf entry.1) with
    | none => pure entries
    | some predicate => do
      let rendered ← ((r.fwdEvents left predicate).map (·.proposition.t3)).mapM
        (nested r expand (subpatPattern entry.1 entry.2) depth visited)
      read (withRendered r entry.1 entries rendered)

/-- (`elem`) -/
def elem (left : Term) (depth : Nat) (visited : List Term) (entries : List (String × Pulled)) : Element → PullM (List (String × Pulled))
  | .star =>
    read ((Schema.distinct ((r.subjectEvents left).map (·.proposition.t2))).foldlM (starEntry r left) entries)
  | .attr name =>
    if name.toList.head? = some '_' then do
      match ← read (r.pidOf (String.ofList name.toList.tail)) with
      | none => pure entries
      | some predicate => do
        let items ← flatReverse r expand ((r.revEvents predicate left).map (·.proposition.t1)) depth visited
        pure (assoc entries name items)
    else do
      match ← read (r.pidOf name) with
      | none => pure entries
      | some predicate => do
        let value ← read (values r name predicate left)
        pure (assocSome entries name value)
  | .map fields => fields.foldlM (mapEntry r expand left depth visited) entries

end Evaluate

/-- (`node`) The fuel bounds how deep nodes may be expanded in one another. -/
def node (r : Reader) : Nat → Expand
  | 0, _, _, _, _, _ => Fueled.spent
  | fuel + 1, subject, name, requested, depth, visited => do
    if visited.any fun v => subject.eqv v then pure (.cycle name)
    else if r.maxNodes ≤ (← get).count then pure (.truncated name)
    else do
      modify fun s => ⟨s.count + 1, s.steps ++ [.expanded depth]⟩
      let entries ← requested.foldlM (elem r (node r fuel) subject depth (subject :: visited)) []
      pure (.node name entries)

/-- One root. -/
def one (r : Reader) (fuel : Nat) (pattern : List Element) (name : String) : PullM Pulled := do
  match ← read (r.resolveName name) with
  | none => pure (.absent name)
  | some subject => node r fuel subject (.str name) pattern 0 []

/-- The roots. -/
def roots (r : Reader) (fuel : Nat) (pattern : List Element) : Root → PullM Pulled
  | .one name => one r fuel pattern name
  | .several names => do
    let items ← names.mapM (one r fuel pattern)
    pure (.many items)

/-- What a pull answers: the messages of a malformed request, or a result with the evaluation it took. -/
inductive Answer where
  | invalid (errors : List String)
  | pulled (result : Pulled) (evaluation : Evaluation)

/-- The reader of a pull of a store. -/
def reader (Γ : Host) (print : Term → String) (s : TermStore) (opts : Options) : Except Fault Reader := do
  let session ← newSession Γ s
  let occurrences ← Fram.occurrences s
  let liveNow ← liveOccurrences Γ s
  let withdrawals ← Fram.withdrawals s
  .ok ⟨Γ, print, session, occurrences, liveNow, withdrawals, opts.asOf, opts.provenance, clamp opts.maxDepth defaultMaxDepth,
    clamp opts.maxNodes defaultMaxNodes⟩

/-- (`run!`) -/
def run (Γ : Host) (print : Term → String) (blank : String → Bool) (printElement : Element → String) (fuel : Nat) (s : TermStore) (root : Root)
    (pattern : List Element) (opts : Options) : Option (Except Fault Answer) :=
  let errors := validate blank printElement root pattern opts
  if !errors.isEmpty then some (.ok (.invalid errors))
  else
    match reader Γ print s opts with
    | .error fault => some (.error fault)
    | .ok r => ((roots r fuel pattern root).run ⟨0, []⟩).run.map fun result => result.map fun (value, evaluation) => .pulled value evaluation

end Pull

end Fram
