import Fram.Lemmas.Committed
import Fram.Lemmas.Mutation

/-!
# A group commit is serial

The functions of a cohort run in order over a private store, and their frames are appended together at the end. As long as every frame
can be encoded, this comes to what they do one after another, each commit with an append of its own. A function that fails leaves no
frame if its commit is the last thing it does, as in the operations of the database; one that throws behind a commit has committed.
-/

namespace Fram.Database

section Runs

variable {Γ : Host} {J : Gzip} {frames : List TransactionFrame} {db : Db} {log : Bytes} {scratch serial : Running} {α β : Type}

/-! ## The operations of the database -/

theorem CommitsLast.orThrow {step : Except Fault β} {next : β → Mutating α} (h : ∀ value, CommitsLast (next value)) :
    CommitsLast (orThrow step next) := by
  cases step with
  | error fault => exact .done _
  | ok value => exact h value

theorem CommitsLast.looking {next : TermStore → Mutating α} (h : ∀ s, CommitsLast (next s)) : CommitsLast (looking next) :=
  .look fun _ => .orThrow h

/-- What returns as soon as a value is there goes on from a function that does. -/
theorem CommitsLast.bind {mutation : Mutating β} {next : Except Fault β → Mutating α} (h : CommitsLast mutation)
    (hnext : ∀ result, CommitsLast (next result)) (hvalue : ∀ value, ∃ value', next (.ok value) = .done (.ok value')) :
    CommitsLast (mutation.bind next) := by
  induction h with
  | done result => exact hnext result
  | look _ ih => exact .look ih
  | commit _ hcommitted ih =>
    refine .commit ih fun transaction events found n => ?_
    obtain ⟨value, hv⟩ := hcommitted transaction events found n
    rw [hv]
    exact hvalue value

theorem commitsLast_commitOnly (request : CommitRequest Term) : CommitsLast (commitOnly request) :=
  .commit (fun answer _ => .done answer) fun transaction events found n => ⟨.committed transaction events found n, rfl⟩

theorem commitsLast_grantLease (resource holder : Term) (supersedes : Option Term) (ttlMs nowMs : Int) :
    CommitsLast (grantLease resource holder supersedes ttlMs nowMs) := by
  refine .orThrow fun expiresMs => (commitsLast_commitOnly _).bind (fun answer => .orThrow fun value => ?_) fun value => ?_
  · cases value <;> exact .done _
  · cases value <;> exact ⟨_, rfl⟩

theorem commitsLast_acquireLease (resource holder : Term) (ttlMs nowMs : Int) :
    CommitsLast (acquireLease Γ resource holder ttlMs nowMs) := by
  unfold acquireLease
  split
  · exact .done _
  · refine .looking fun s => .orThrow fun prior => ?_
    cases prior with
    | none => exact commitsLast_grantLease ..
    | some prior =>
      dsimp only
      split
      · exact .done _
      · exact commitsLast_grantLease ..

theorem commitsLast_renewLease (resource holder epoch : Term) (ttlMs nowMs : Int) :
    CommitsLast (renewLease Γ resource holder epoch ttlMs nowMs) := by
  refine .looking fun s => .orThrow fun prior => ?_
  split
  · exact commitsLast_grantLease ..
  · exact .done _

theorem commitsLast_withdrawOccurrence (target : Term) (actor : Option Term) : CommitsLast (withdrawOccurrence Γ target actor) := by
  refine .looking fun s => .orThrow fun found => ?_
  cases found with
  | error reason => exact .done _
  | ok proposition =>
    exact (commitsLast_commitOnly _).bind (fun answer => .orThrow fun value => .done _) fun value => ⟨_, rfl⟩

theorem commitsLast_releaseLease (resource holder epoch : Term) : CommitsLast (releaseLease Γ resource holder epoch) := by
  refine .looking fun s => .orThrow fun prior => ?_
  split
  · refine (commitsLast_withdrawOccurrence epoch (some holder)).bind (fun answer => .orThrow fun value => ?_) fun value => ?_
    · rcases value with reason | answer
      · exact .done _
      · cases answer <;> exact .done _
    · rcases value with reason | answer
      · exact ⟨_, rfl⟩
      · cases answer <;> exact ⟨_, rfl⟩
  · exact .done _

/-- The operations of the database that commit: of a request, of a lease, and of a withdrawal. -/
inductive OfDatabase (Γ : Host) : ∀ {α : Type}, Mutating α → Prop
  | commit (request : CommitRequest Term) : OfDatabase Γ (commitOnly request)
  | acquire (resource holder : Term) (ttlMs nowMs : Int) : OfDatabase Γ (acquireLease Γ resource holder ttlMs nowMs)
  | renew (resource holder epoch : Term) (ttlMs nowMs : Int) : OfDatabase Γ (renewLease Γ resource holder epoch ttlMs nowMs)
  | release (resource holder epoch : Term) : OfDatabase Γ (releaseLease Γ resource holder epoch)
  | withdraw (target : Term) (actor : Option Term) : OfDatabase Γ (withdrawOccurrence Γ target actor)

/-- An operation of the database commits last. -/
theorem OfDatabase.commitsLast {mutation : Mutating α} (h : OfDatabase Γ mutation) : CommitsLast mutation := by
  cases h with
  | commit request => exact commitsLast_commitOnly request
  | acquire resource holder ttlMs nowMs => exact commitsLast_acquireLease resource holder ttlMs nowMs
  | renew resource holder epoch ttlMs nowMs => exact commitsLast_renewLease resource holder epoch ttlMs nowMs
  | release resource holder epoch => exact commitsLast_releaseLease resource holder epoch
  | withdraw target actor => exact commitsLast_withdrawOccurrence target actor

/-! ## Cohorts -/

/-- The outcome of a cohort, from the state behind its functions. -/
theorem commitMutations_inStep (h : Serves Γ frames db) {mutations : List (Mutating α)} {results : List (Told α)}
    (hr : runMutations Γ J true mutations ⟨log, db, []⟩ = .ok (results, scratch)) (hs : InStep Γ J frames db log scratch serial)
    (hc : scratch = ⟨log, db, []⟩ ∨ scratch.deferred ≠ []) :
    serial.log = log ++ (appendFramesDurable J (db.deflate.getD false) scratch.deferred).1 ∧
      commitMutations Γ J log db mutations = ⟨serial.db, (appendFramesDurable J (db.deflate.getD false) scratch.deferred).1,
        scratch.deferred, .ok ⟨results, scratch.deferred.length, currentSequence serial.db.termStore⟩⟩ := by
  obtain ⟨bytes, hbytes, hlog⟩ := hs.bytes
  rw [hbytes]
  refine ⟨hlog, ?_⟩
  unfold commitMutations requireMutationReady
  rw [h.state]
  dsimp only
  rw [hr]
  dsimp only
  rcases hc with rfl | hne
  · obtain rfl : serial.db = db := hs.agree
    cases hbytes
    rw [if_pos rfl]
    rfl
  · rw [if_neg hne, hbytes]
    dsimp only
    rw [hs.serves.databaseStore]
    dsimp only
    rw [← h.state, ← hs.same, hs.agree]

theorem runMutations_append {deferring : Bool} {before after : List (Mutating α)} {first rest : List (Told α)} {r r' r'' : Running}
    (h : runMutations Γ J deferring before r = .ok (first, r')) (h' : runMutations Γ J deferring after r' = .ok (rest, r'')) :
    runMutations Γ J deferring (before ++ after) r = .ok (first ++ rest, r'') := by
  induction before generalizing first r with
  | nil =>
    cases h
    exact h'
  | cons mutation before ih =>
    obtain ⟨⟨told, r₁⟩, h1, h⟩ := ExceptList.bind_eq_ok_iff.1 h
    obtain ⟨⟨more, r₂⟩, h2, h⟩ := ExceptList.bind_eq_ok_iff.1 h
    cases h
    exact runMutations_cons h1 (ih h2)

end Runs

/-- A function makes no frame at its turn, or it fails and its commit is the last thing that it does. -/
def LeavesNoFrame {α : Type} (Γ : Host) (J : Gzip) (mutation : Mutating α) (r : Running) : Prop :=
  (mutation.run (answerQuestion Γ J true) r).2.deferred = r.deferred ∨
    (CommitsLast mutation ∧ ∃ fault, (mutation.run (answerQuestion Γ J true) r).1 = .error fault)

/-- **A group commit is serial.** Over a database that serves a history, and for mutation functions whose frames can be encoded: the
cohort gives the results, the versions, the store and the log of the functions run one after another, each commit with its own append;
and without a function that leaves no frame it gives the same, less the result of that function. An operation of the database that fails
is such a function. -/
theorem group_commit_serial {α : Type} {Γ : Host} {J : Gzip} {frames : List TransactionFrame} {db : Db} (h : Serves Γ frames db)
    (log : Bytes) (mutations : List (Mutating α)) (ht : AllTake J (db.deflate.getD false) (stateAfter Γ J mutations ⟨log, db, []⟩)) :
    (∃ results serial appended written, runMutations Γ J false mutations ⟨log, db, []⟩ = .ok (results, serial) ∧
      serial.log = log ++ appended ∧ HasHistory Γ serial.db.termStore db.spaceId (frames ++ written) ∧
      results.length = mutations.length ∧
      commitMutations Γ J log db mutations =
        ⟨serial.db, appended, written, .ok ⟨results, written.length, currentSequence serial.db.termStore⟩⟩ ∧
      ∀ before mutation after, mutations = before ++ mutation :: after →
        LeavesNoFrame Γ J mutation (stateAfter Γ J before ⟨log, db, []⟩) →
          commitMutations Γ J log db (before ++ after) = ⟨serial.db, appended, written,
            .ok ⟨results.eraseIdx before.length, written.length, currentSequence serial.db.termStore⟩⟩) ∧
    ∀ (mutation : Mutating α) (r : Running) (fault : Fault), OfDatabase Γ mutation →
      (mutation.run (answerQuestion Γ J true) r).1 = .error fault → LeavesNoFrame Γ J mutation r := by
  refine ⟨?_, fun mutation r fault hof hfault => .inr ⟨hof.commitsLast, fault, hfault⟩⟩
  obtain ⟨results, serial, hdefer, hserial, hlen, hs⟩ := (inStep_start h log).runMutations mutations ht
  obtain ⟨hlog, hcommit⟩ := commitMutations_inStep h hdefer hs ((stateAfter_cases mutations _).imp_right List.length_pos_iff.1)
  refine ⟨results, serial, _, _, hserial, hlog, ?_, hlen, hcommit, ?_⟩
  · have hspace : serial.db.termStore.spaceId = db.spaceId := by
      rw [hs.agree, hs.serves.space, hs.same]
    rw [← hspace, hs.agree]
    exact hs.serves.represents.hasHistory
  · rintro before mutation after rfl hleaves
    rw [stateAfter_append, stateAfter_cons] at ht hdefer hs
    have hbefore := Script.of_run AllTake.of_answerQuestion mutation (AllTake.of_stateAfter after ht)
    obtain ⟨first, serial₁, h1, -, hlen1, hs1⟩ := (inStep_start h log).runMutations before hbefore
    -- the function leaves the state as it found it
    have hsame : (mutation.run (answerQuestion Γ J true) (stateAfter Γ J before ⟨log, db, []⟩)).2 =
        stateAfter Γ J before ⟨log, db, []⟩ := by
      rcases hleaves with hd | ⟨hl, fault, hf⟩
      · rcases run_cases (Γ := Γ) (J := J) mutation (stateAfter Γ J before ⟨log, db, []⟩) with hr | hlt
        · exact hr
        · rw [hd] at hlt
          exact absurd hlt (Nat.lt_irrefl _)
      · exact hl.no_frame hs1 (AllTake.of_stateAfter after ht) hf
    rw [hsame] at ht hdefer hs
    obtain ⟨rest, serial₂, h2, -, -, -⟩ := hs1.runMutations after ht
    have hturn := runMutation_ok mutation (by rw [hsame]; exact hs1.serves)
    rw [hsame] at hturn
    have hall := runMutations_append h1 (runMutations_cons hturn h2)
    rw [hdefer] at hall
    cases hall
    have hcases := stateAfter_cases (Γ := Γ) (J := J) (before ++ after) ⟨log, db, []⟩
    rw [stateAfter_append] at hcases
    obtain ⟨-, hwithout⟩ := commitMutations_inStep h (runMutations_append h1 h2) hs (hcases.imp_right List.length_pos_iff.1)
    rw [hwithout, ← hlen1, List.eraseIdx_append_of_length_le (Nat.le_refl _), Nat.sub_self, List.eraseIdx_cons_zero,
      stateAfter_append, stateAfter_cons, hsame]

/-- An assertion, and a function that fails before it commits. -/
def assertAndFail : List (Mutating CommitAnswer) :=
  [assertOnly ⟨.int 1, .int 2, .int 3⟩ none none, .done (.error ⟨⟨"rpc/conflict"⟩, ""⟩)]

/-- A cohort of an assertion and a function that fails. -/
theorem group_commit_serial_one : ∃ db, openDatabase Host.zero storingGzip (headerBytes "s") none true = .ok (db, headerBytes "s") ∧
    ∃ results serial appended, ∃ written : List TransactionFrame,
      runMutations Host.zero storingGzip false assertAndFail ⟨headerBytes "s", db, []⟩ = .ok (results, serial) ∧
        serial.log = headerBytes "s" ++ appended ∧ (commitMutations Host.zero storingGzip (headerBytes "s") db assertAndFail).answer =
          .ok ⟨results, written.length, currentSequence serial.db.termStore⟩ := by
  have hrun : ((openDatabase Host.zero storingGzip (headerBytes "s") none true).toOption.map fun r =>
      (stateAfter Host.zero storingGzip assertAndFail ⟨headerBytes "s", r.1, []⟩).deferred) = some [oneFrame] := by with_unfolding_all decide
  obtain ⟨db, hopen, hserves, hmode⟩ := @openDatabase_new "s" (by decide) (by decide)
  rw [hopen] at hrun
  have ht : AllTake storingGzip (db.deflate.getD false) (stateAfter Host.zero storingGzip assertAndFail ⟨headerBytes "s", db, []⟩) := by
    have hdeferred : (stateAfter Host.zero storingGzip assertAndFail ⟨headerBytes "s", db, []⟩).deferred = [oneFrame] :=
      Option.some.inj hrun
    intro f hf
    rw [hdeferred, List.mem_singleton] at hf
    rw [hf, hmode]
    exact ⟨⟨by decide, fun o ho => by rw [List.mem_singleton.1 ho]; exact ⟨trivial, trivial, trivial⟩, by decide, by decide⟩, by decide⟩
  obtain ⟨⟨results, serial, appended, written, hserial, hlog, -, -, hcommit, -⟩, -⟩ :=
    group_commit_serial hserves (headerBytes "s") assertAndFail ht
  exact ⟨db, hopen, results, serial, appended, written, hserial, hlog, by rw [hcommit]⟩

/-- A function that throws behind its commit. -/
def assertThenThrow : Mutating Unit :=
  .ask (.commit (assertRequest (.triple (.int 1) (.int 2) (.int 3)) none none)) fun _ => .done (.error ⟨⟨"thrown"⟩, ""⟩)

/-- A function that returns. -/
def returning : Mutating Unit := .done (.ok ())

/-- The database fenced after a failure. -/
def fencedBy (db : Db) : Db := fenceAndReconcile Host.zero storingGzip (headerBytes "s") db ⟨⟨"IOException"⟩, ""⟩

set_option maxRecDepth 20000 in
/-- A function that throws behind its commit fails, and its frame is in the log; and a cohort over a database that is fenced throws,
where a function that commits nothing returns when it is run alone. -/
theorem group_commit_failed_frame : ∃ db, openDatabase Host.zero storingGzip (headerBytes "s") none true = .ok (db, headerBytes "s") ∧
    ((∃ answer, (commitMutations Host.zero storingGzip (headerBytes "s") db [assertThenThrow]).answer = .ok answer ∧
        answer.results.map (·.result.isOk) = [false]) ∧
      (commitMutations Host.zero storingGzip (headerBytes "s") db [assertThenThrow]).written = [oneFrame]) ∧
    ((commitMutations Host.zero storingGzip (headerBytes "s") (fencedBy db) [returning]).answer.isOk = false ∧
      ∃ told serial, runMutations Host.zero storingGzip false [returning] ⟨headerBytes "s", fencedBy db, []⟩ = .ok (told, serial) ∧
        told.map (·.result.isOk) = [true]) := by
  have hrun : ((openDatabase Host.zero storingGzip (headerBytes "s") none true).toOption.any fun r =>
      ((commitMutations Host.zero storingGzip (headerBytes "s") r.1 [assertThenThrow]).answer.toOption.any fun answer =>
        decide (answer.results.map (·.result.isOk) = [false])) &&
      (decide ((commitMutations Host.zero storingGzip (headerBytes "s") r.1 [assertThenThrow]).written = [oneFrame]) &&
      (!(commitMutations Host.zero storingGzip (headerBytes "s") (fencedBy r.1) [returning]).answer.isOk &&
      (runMutations Host.zero storingGzip false [returning] ⟨headerBytes "s", fencedBy r.1, []⟩).toOption.any fun p =>
        decide (p.1.map (·.result.isOk) = [true])))) = true := by with_unfolding_all decide
  obtain ⟨db, hopen, -, -⟩ := @openDatabase_new "s" (by decide) (by decide)
  rw [hopen] at hrun
  simp only [Except.toOption, Option.any_some, Bool.and_eq_true, Bool.not_eq_true', decide_eq_true_eq] at hrun
  obtain ⟨hfailed, hwritten, hfenced, hserial⟩ := hrun
  refine ⟨db, hopen, ⟨?_, hwritten⟩, hfenced, ?_⟩
  · cases ha : (commitMutations Host.zero storingGzip (headerBytes "s") db [assertThenThrow]).answer with
    | error fault =>
      rw [ha] at hfailed
      cases hfailed
    | ok answer =>
      rw [ha] at hfailed
      exact ⟨answer, rfl, of_decide_eq_true hfailed⟩
  · cases hr : runMutations Host.zero storingGzip false [returning] ⟨headerBytes "s", fencedBy db, []⟩ with
    | error fault =>
      rw [hr] at hserial
      cases hserial
    | ok p =>
      rw [hr] at hserial
      exact ⟨p.1, p.2, rfl, of_decide_eq_true hserial⟩

end Fram.Database
