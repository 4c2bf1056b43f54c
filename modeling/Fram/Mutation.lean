import Fram.CommitRequest
import Fram.Lease
import Fram.Lib.Script

/-!
# Mutation functions

`commit-cohort!` of `src/database.clj` takes functions of a database. A function looks at the store, commits requests and goes on as
these are answered, or throws; it may catch what a commit throws. The functions of a cohort run in order over a private store and leave
their frames to one append; run one after another, each commit appends its own.
-/

namespace Fram.Database

/-- What a mutation function asks of its database: its store, or a commit. -/
inductive Question where
  | look
  | commit (request : CommitRequest Term)

/-- How a question is answered, or what it throws. -/
def Reply : Question → Type
  | .look => Except Fault TermStore
  | .commit _ => Except Fault CommitAnswer

/-- A mutation function: it returns a value or throws. -/
abbrev Mutating (α : Type) := Script Reply (Except Fault α)

/-- A database in use: its log, and the frames that wait for an append. -/
structure Running where
  log : Bytes
  db : Db
  deferred : List TransactionFrame

/-- (`database-store`) The store, unless the history could not be reconciled. -/
def databaseStore (db : Db) : Except Fault TermStore :=
  if readable db then .ok db.termStore
  else .error ⟨⟨"database-corrupt"⟩, "durable history could not be reconciled"⟩

/-- How a database answers, deferring the frames of commits or not. -/
def answerQuestion (Γ : Host) (J : Gzip) (deferring : Bool) : (q : Question) → Running → Reply q × Running
  | .look, r => (databaseStore r.db, r)
  | .commit request, r =>
    let outcome := commitRequest Γ J r.log r.db deferring (request.map Value.ofTerm)
    (outcome.answer, ⟨r.log ++ outcome.appended, outcome.db, r.deferred ++ outcome.deferred⟩)

/-- What is told of a mutation function: its value or what it threw, and the version after it. -/
structure Told (α : Type) where
  result : Except Fault α
  version : Int

/-- One mutation function. A version that cannot be read ends the run. -/
def runMutation {α : Type} (Γ : Host) (J : Gzip) (deferring : Bool) (mutation : Mutating α) (r : Running) :
    Except Fault (Told α × Running) := do
  let (result, r') := mutation.run (answerQuestion Γ J deferring) r
  let store ← databaseStore r'.db
  .ok (⟨result, currentSequence store⟩, r')

/-- Mutation functions, one after another. -/
def runMutations {α : Type} (Γ : Host) (J : Gzip) (deferring : Bool) : List (Mutating α) → Running →
    Except Fault (List (Told α) × Running)
  | [], r => .ok ([], r)
  | mutation :: mutations, r => do
    let (told, r) ← runMutation Γ J deferring mutation r
    let (more, r) ← runMutations Γ J deferring mutations r
    .ok (told :: more, r)

/-- What a cohort answers. -/
structure CohortAnswer (α : Type) where
  results : List (Told α)
  frameCount : Nat
  version : Int

/-- What a cohort does: the database after it, the bytes that it appends to the log and the frames in them, and its answer or what it
throws. -/
structure CohortOutcome (α : Type) where
  db : Db
  appended : Bytes
  written : List TransactionFrame
  answer : Except Fault (CohortAnswer α)

/-- What a cohort does whose append fails. -/
def cohortFenced {α : Type} (Γ : Host) (J : Gzip) (log : Bytes) (db : Db) (appended : Bytes) (written : List TransactionFrame)
    (cause : Fault) : CohortOutcome α :=
  let db := fenceAndReconcile Γ J (log ++ appended) db cause
  ⟨db, appended, written, .error (ambiguousCommit db)⟩

/-- (`commit-cohort!`) At mutation functions. -/
def commitMutations {α : Type} (Γ : Host) (J : Gzip) (log : Bytes) (db : Db) (mutations : List (Mutating α)) : CohortOutcome α :=
  match requireMutationReady db with
  | .error fault => ⟨db, [], [], .error fault⟩
  | .ok _ =>
    match runMutations Γ J true mutations ⟨log, db, []⟩ with
    | .error fault => ⟨db, [], [], .error fault⟩
    | .ok (results, scratch) =>
      if scratch.deferred = [] then ⟨db, [], [], .ok ⟨results, 0, currentSequence db.termStore⟩⟩
      else
        let (appended, written, failure) := appendFramesDurable J (db.deflate.getD false) scratch.deferred
        match failure with
        | some cause => cohortFenced Γ J log db appended written cause
        | none =>
          match databaseStore scratch.db with
          | .error cause => cohortFenced Γ J log db appended written cause
          | .ok root =>
            ⟨{ db with termStore := root }, appended, written, .ok ⟨results, scratch.deferred.length, currentSequence root⟩⟩

/-! ## Functions of one commit -/

/-- A commit of a request, and its answer. -/
def commitOnly (request : CommitRequest Term) : Mutating CommitAnswer := .ask (.commit request) .done

/-- (`assert!`) -/
def assertOnly (proposition : Triple) (actor supersedes : Option Term) : Mutating CommitAnswer :=
  commitOnly (assertRequest proposition.term actor supersedes)

/-- (`retract!`) -/
def retractOnly (proposition : Triple) (actor : Option Term) : Mutating CommitAnswer :=
  commitOnly (retractRequest proposition.term actor)

end Fram.Database

/-!
## Leases of the JVM

The leases of `src/database.clj`, as mutation functions. The JVM sees an occurrence as live unless a live proposition supersedes it. A
lease is granted and renewed by an assertion that supersedes the occurrence of the prior one, and released by a withdrawal of its
occurrence; its epoch is the coordinate of that occurrence.
-/

namespace Fram.Database

/-! ## The live state -/

/-- (`relation-proposition?`) -/
def relationProposition (predicate : String) (value : Triple) : Bool :=
  isOccurrenceCoordinate value.t1 && ((Term.kw predicate).eqv value.t2 && isOccurrenceCoordinate value.t3)

/-- (`supersession-triples`) -/
def supersessionTriples (Γ : Host) (s : TermStore) : Except Fault (List Triple) := do
  let live ← Fram.livePropositions Γ s
  .ok (live.filter (relationProposition "kernel/supersedes"))

/-- (`suppressed-occurrences`) -/
def suppressedOccurrences (Γ : Host) (s : TermStore) : Except Fault (List Term) := do
  let triples ← supersessionTriples Γ s
  .ok (triples.map (·.t3))

/-- (`live-occurrences`) The live assertions that no live proposition supersedes. -/
def liveOccurrences (Γ : Host) (s : TermStore) : Except Fault (List OperationOccurrence) := do
  let suppressed ← suppressedOccurrences Γ s
  let live ← Fram.liveOccurrences Γ s
  .ok (live.filter fun o => !suppressed.any fun coordinate => coordinate.eqv o.coordinate.term)

/-- (`occurrence`) -/
def occurrence (s : TermStore) (coordinate : Term) : Except Fault (Option OperationOccurrence) := do
  let all ← occurrences s
  .ok (all.find? fun o => coordinate.eqv o.coordinate.term)

/-! ## Leases -/

/-- (`lease-value`) -/
def leaseValue (holder : Term) (expiresMs : Int) : Term := .triple holder (.kw "kernel/expires-at") (.int expiresMs)

/-- A lease, as a database has it. -/
structure LeaseRecord where
  resource : Term
  holder : Term
  expiresMs : Int
  occurrence : Triple
  proposition : Triple
  deriving DecidableEq

/-- (`lease-record`) The lease that an occurrence is, if it is one. -/
def leaseRecord (event : OperationOccurrence) : Option LeaseRecord :=
  match event.proposition.t3 with
  | .triple holder marker (.atom (.int expiresMs)) =>
    if event.proposition.t2 = .kw "kernel/lease" ∧ marker = .kw "kernel/expires-at" then
      some ⟨event.proposition.t1, holder, expiresMs, event.coordinate, event.proposition⟩
    else none
  | _ => none

/-- (`current-lease`) -/
def currentLease (Γ : Host) (s : TermStore) (resource : Term) : Except Fault (Option LeaseRecord) := do
  let live ← liveOccurrences Γ s
  .ok ((live.filterMap leaseRecord).filter fun lease => resource.eqv lease.resource).getLast?

/-- (`+`) The sum of two longs. -/
def addLong (a b : Int) : Except Fault Int :=
  if -9223372036854775808 ≤ a + b ∧ a + b ≤ 9223372036854775807 then .ok (a + b)
  else .error ⟨⟨"ArithmeticException"⟩, "integer overflow"⟩

/-- What a lease operation answers; a rejection has its reason. -/
inductive LeaseReply where
  | held (holder : Term) (epoch : Triple) (expiresMs : Int)
  | fenceMismatch (current : Option LeaseRecord)
  | granted (epoch : Option Triple) (expiresMs : Int) (transaction : Option Triple)
  | notWithdrawn (reason : Keyword)
  | released (transaction : Option Triple) (withdrawals : List Withdrawal)

/-- A step of a mutation function that may throw. -/
def orThrow {α β : Type} (step : Except Fault β) (next : β → Mutating α) : Mutating α :=
  match step with
  | .error fault => .done (.error fault)
  | .ok value => next value

/-- A mutation function that looks at the store. -/
def looking {α : Type} (next : TermStore → Mutating α) : Mutating α := .ask .look fun store => orThrow store next

/-- The assertion of a lease, and what is answered of it. -/
def grantLease (resource holder : Term) (supersedes : Option Term) (ttlMs nowMs : Int) : Mutating LeaseReply :=
  orThrow (addLong nowMs ttlMs) fun expiresMs =>
    (assertOnly ⟨resource, .kw "kernel/lease", leaseValue holder expiresMs⟩ (some holder) supersedes).bind fun answer =>
      orThrow answer fun
        | .committed transaction events _ _ => .done (.ok (.granted (events.head?.map (·.coordinate)) expiresMs (some transaction)))
        | .conflict _ _ => .done (.ok (.granted none expiresMs none))

/-- (`acquire-lease!`) -/
def acquireLease (Γ : Host) (resource holder : Term) (ttlMs nowMs : Int) : Mutating LeaseReply :=
  if ttlMs ≤ 0 then
    .done (.error ⟨⟨"invalid-lease-request"⟩, "lease requires Term resource/holder and positive ttl"⟩)
  else
    looking fun s => orThrow (currentLease Γ s resource) fun
      | none => grantLease resource holder none ttlMs nowMs
      | some prior =>
        if nowMs < prior.expiresMs then .done (.ok (.held prior.holder prior.occurrence prior.expiresMs))
        else grantLease resource holder (some prior.occurrence.term) ttlMs nowMs

/-- The prior lease has the holder and the epoch. -/
def matchesLease (prior : Option LeaseRecord) (holder epoch : Term) : Bool :=
  prior.any fun lease => holder.eqv lease.holder && epoch.eqv lease.occurrence.term

/-- (`renew-lease!`) -/
def renewLease (Γ : Host) (resource holder epoch : Term) (ttlMs nowMs : Int) : Mutating LeaseReply :=
  looking fun s => orThrow (currentLease Γ s resource) fun prior =>
    if matchesLease prior holder epoch && prior.any fun lease => decide (nowMs < lease.expiresMs) then
      grantLease resource holder (some epoch) ttlMs nowMs
    else .done (.ok (.fenceMismatch prior))

/-- What `withdraw-occurrence!` does to an occurrence of the store: it is rejected for a reason, or its proposition is retracted. -/
def withdrawable (Γ : Host) (s : TermStore) (target : Term) : Except Fault (Except Keyword Triple) := do
  let event ← occurrence s target
  let effective ← liveOccurrences Γ s
  match event with
  | none => .ok (.error ⟨"unknown-occurrence"⟩)
  | some event =>
    if isAssertionOccurrence event = false then .ok (.error ⟨"not-assertion-occurrence"⟩)
    else if (effective.any fun o => target.eqv o.coordinate.term) = false then .ok (.error ⟨"occurrence-not-live"⟩)
    else do
      let live ← Fram.liveOccurrences Γ s
      let current := (live.filter fun o => event.proposition.eqv o.proposition).getLast?
      if (current.any fun o => target.eqv o.coordinate.term) = false then .ok (.error ⟨"withdrawal-target-not-current"⟩)
      else .ok (.ok event.proposition)

/-- (`withdraw-occurrence!`) The answer of the commit, or the reason of a rejection. -/
def withdrawOccurrence (Γ : Host) (target : Term) (actor : Option Term) : Mutating (Except Keyword CommitAnswer) :=
  looking fun s => orThrow (withdrawable Γ s target) fun
    | .error reason => .done (.ok (.error reason))
    | .ok proposition => (retractOnly proposition actor).bind fun answer => orThrow answer fun answer => .done (.ok (.ok answer))

/-- (`release-lease!`) -/
def releaseLease (Γ : Host) (resource holder epoch : Term) : Mutating LeaseReply :=
  looking fun s => orThrow (currentLease Γ s resource) fun prior =>
    if matchesLease prior holder epoch then
      (withdrawOccurrence Γ epoch (some holder)).bind fun answer => orThrow answer fun
        | .error reason => .done (.ok (.notWithdrawn reason))
        | .ok (.committed transaction _ found _) => .done (.ok (.released (some transaction) found))
        | .ok (.conflict _ _) => .done (.ok (.released none []))
    else .done (.ok (.fenceMismatch prior))

end Fram.Database
