import Fram.Mutation
import Fram.Lemmas.CommitRequest

/-!
# Runs of mutation functions

A commit of terms is refused, or it is the commit of one frame (`commitRequest_cases`), whether its frame is deferred or not. So a run
that defers its frames, and a run that appends them, stay in step as long as the frames can be encoded and the sequences do not run out
(`InStep.runMutations`).
-/

namespace Fram.Database

open Framrpc
open ExceptList (bind_eq_ok_iff)

variable {os : List ValueOperation} {tx : Triple} {deflate : Bool} {r : Running}

/-! ## Requests of terms -/

section Terms

variable {db : Db} {request : CommitRequest Term} {source metadata : List ValueOperation}

/-- A canonical value of a term is the term's. -/
theorem canonicalValue_ofTerm {t : Term} {v : Value} (h : canonicalValue (Value.ofTerm t) = .ok v) : v = Value.ofTerm t := by
  induction t generalizing v with
  | atom a =>
    cases a with
    | int n =>
      obtain ⟨m, hm, hv⟩ := bind_eq_ok_iff.1 h
      obtain ⟨rfl, -⟩ := requireI64_ok_iff.1 hm
      cases hv
      rfl
    | instant i =>
      obtain ⟨m, hm, hv⟩ := bind_eq_ok_iff.1 h
      obtain ⟨rfl, -⟩ := requireI64_ok_iff.1 hm
      split at hv
      · cases hv
        rfl
      · cases hv
    | _ =>
      cases h
      rfl
  | triple t1 t2 t3 h1 h2 h3 =>
    obtain ⟨c1, hc1, h⟩ := bind_eq_ok_iff.1 h
    obtain ⟨c2, hc2, h⟩ := bind_eq_ok_iff.1 h
    obtain ⟨c3, hc3, h⟩ := bind_eq_ok_iff.1 h
    cases h
    rw [h1 hc1, h2 hc2, h3 hc3]
    rfl

/-- The operation is of a term. -/
def OfTerm (o : ValueOperation) : Prop := ∃ p : Triple, o.proposition = Value.ofTerm p.term

theorem OfTerm.operation? {o : ValueOperation} (h : OfTerm o) : ∃ operation, o.operation? = some operation := by
  obtain ⟨p, hp⟩ := h
  refine ⟨⟨o.action, p⟩, ?_⟩
  unfold ValueOperation.operation?
  rw [hp, Value.term?_ofTerm]
  rfl

theorem exists_operations (h : ∀ o ∈ os, OfTerm o) : ∃ operations, os.mapM ValueOperation.operation? = some operations := by
  induction os with
  | nil => exact ⟨[], rfl⟩
  | cons o os ih =>
    rw [List.forall_mem_cons] at h
    obtain ⟨operation, ho⟩ := h.1.operation?
    obtain ⟨operations, hos⟩ := ih h.2
    refine ⟨operation :: operations, ?_⟩
    rw [List.mapM_cons, ho, hos]
    rfl

theorem ofTerm_commitOperationOf {o : OperationRequest Term} {v : ValueOperation}
    (h : commitOperationOf (o.map Value.ofTerm) = .ok v) : OfTerm v := by
  unfold commitOperationOf at h
  split at h
  · cases h
  · rename_i htriple
    obtain ⟨c, hc, h⟩ := bind_eq_ok_iff.1 h
    obtain rfl := canonicalValue_ofTerm hc
    cases hp : o.proposition with
    | atom a =>
      refine absurd ?_ htriple
      show (Value.ofTerm o.proposition).isTriple = false
      rw [hp]
      cases a <;> rfl
    | triple t1 t2 t3 =>
      split at h
      · cases h
        exact ⟨⟨t1, t2, t3⟩, congrArg Value.ofTerm hp⟩
      · cases h

theorem ofTerm_metadataOperation (source : Triple) (predicate : String) (t : Term) :
    OfTerm (metadataOperation source predicate (Value.ofTerm t)) := ⟨⟨source.term, .kw predicate, t⟩, rfl⟩

/-- What is canonical of an optional term is the term's. -/
theorem mapM_canonicalValue {t : Option Term} {v : Option Value} (h : (t.map Value.ofTerm).mapM canonicalValue = .ok v) :
    v = t.map Value.ofTerm := by
  cases t with
  | none =>
    cases h
    rfl
  | some t =>
    obtain ⟨c, hc, h⟩ := bind_eq_ok_iff.1 h
    cases h
    rw [canonicalValue_ofTerm hc]
    rfl

theorem ofTerm_optional {source : Triple} {predicate : String} {t : Option Term} {v : Option Value} (h : v = t.map Value.ofTerm) :
    ∀ o ∈ (v.map (metadataOperation source predicate)).toList, OfTerm o := by
  subst h
  cases t with
  | none => simp
  | some t => simpa using ofTerm_metadataOperation source predicate t

theorem ofTerm_occurrenceMetadata {ordinal : Nat} {o : OperationRequest Term}
    (h : occurrenceMetadata db tx ordinal (o.map Value.ofTerm) = .ok os) : ∀ v ∈ os, OfTerm v := by
  unfold occurrenceMetadata at h
  simp only [bind_eq_ok_iff] at h
  obtain ⟨source, -, recordedAt, h1, assertedBy, h2, sourceFrame, h3, -, -, -, -, h⟩ := h
  cases h
  simp only [List.mem_append]
  rintro v ((hv | hv) | (hv | hv))
  · exact ofTerm_optional (mapM_canonicalValue h1) v hv
  · exact ofTerm_optional (mapM_canonicalValue h2) v hv
  · exact ofTerm_optional (mapM_canonicalValue h3) v hv
  · exact ofTerm_optional rfl v hv

theorem ofTerm_occurrencesMetadata {ordinal : Nat} {requested : List (OperationRequest Term)}
    (h : occurrencesMetadata db tx ordinal (requested.map (·.map Value.ofTerm)) = .ok os) :
    ∀ v ∈ os, OfTerm v := by
  induction requested generalizing ordinal os with
  | nil =>
    cases h
    simp
  | cons o requested ih =>
    rw [List.map_cons, occurrencesMetadata] at h
    simp only [bind_eq_ok_iff] at h
    obtain ⟨first, h1, more, h2, h⟩ := h
    cases h
    simp only [List.mem_append]
    rintro v (hv | hv)
    · exact ofTerm_occurrenceMetadata h1 v hv
    · exact ih h2 v hv

theorem ofTerm_transactionMetadata {predicate : String} {t : Option Term}
    (h : transactionMetadata tx predicate (t.map Value.ofTerm) = .ok os) : ∀ v ∈ os, OfTerm v := by
  unfold transactionMetadata at h
  split at h
  · rename_i htruthy
    obtain ⟨c, hc, h⟩ := bind_eq_ok_iff.1 h
    cases h
    cases t with
    | none => cases htruthy
    | some t =>
      rw [canonicalValue_ofTerm hc]
      simpa using ofTerm_metadataOperation tx predicate t
  · cases h
    simp

/-- The operations of a request of terms are of terms. -/
theorem ofTerm_checkRequest (h : checkRequest db (request.map Value.ofTerm) = .ok (.operations source metadata)) :
    ∀ o ∈ source ++ metadata, OfTerm o := by
  obtain ⟨-, -, tx, -, hs, hm⟩ := of_checkRequest h
  have hsource : ∀ o ∈ source, OfTerm o := by
    have hall : List.Forall₂ (fun o v => commitOperationOf (o.map Value.ofTerm) = .ok v) request.operations source := by
      rwa [CommitRequest.map, ExceptList.mapM_eq_ok_iff, List.forall₂_map_left_iff] at hs
    clear h hs hm
    generalize request.operations = requested at hall
    induction hall with
    | nil => simp
    | cons ho _ ih => exact List.forall_mem_cons.2 ⟨ofTerm_commitOperationOf ho, ih⟩
  unfold metadataOperations at hm
  simp only [bind_eq_ok_iff] at hm
  obtain ⟨recordedAt, h1, actor, h2, -, -, perSource, h3, hm⟩ := hm
  cases hm
  simp only [List.mem_append]
  rintro v (hv | hv | hv | hv)
  · exact hsource v hv
  · exact ofTerm_occurrencesMetadata h3 v hv
  · exact ofTerm_transactionMetadata h1 v hv
  · exact ofTerm_transactionMetadata h2 v hv

end Terms

/-! ## Commits of terms -/

section Commits

variable {Γ : Host} {J : Gzip} {frames : List TransactionFrame} {db : Db} {log : Bytes} {frame : TransactionFrame} {count : Nat}

/-- A commit of terms is refused, or it is the commit of one frame. -/
theorem commitRequest_cases (Γ : Host) (J : Gzip) (db : Db) (request : CommitRequest Term) :
    (∃ answer, (∀ transaction events found n, answer ≠ .ok (.committed transaction events found n)) ∧
        ∀ log deferring, commitRequest Γ J log db deferring (request.map Value.ofTerm) = ⟨db, [], [], answer⟩) ∨
      ∃ operations count, operations ≠ [] ∧ count ≤ operations.length ∧ ∀ log deferring,
        commitRequest Γ J log db deferring (request.map Value.ofTerm) =
          appendAndReplay Γ J log db deferring ⟨db.termStore.nextSequence, operations⟩ count := by
  cases hc : checkRequest db (request.map Value.ofTerm) with
  | error fault => exact Or.inl ⟨.error fault, by simp, fun log deferring => by simp only [commitRequest, hc]⟩
  | ok checked =>
    cases checked with
    | conflict expected current =>
      exact Or.inl ⟨.ok (.conflict expected current), by simp, fun log deferring => by simp only [commitRequest, hc]⟩
    | operations source metadata =>
      obtain ⟨operations, ho⟩ := exists_operations (ofTerm_checkRequest hc)
      have hlength := length_of_mapM_operation? ho
      have hpos := List.length_pos_iff.2 (source_ne_nil hc)
      rw [List.length_append] at hlength
      exact Or.inr ⟨operations, source.length, List.length_pos_iff.1 (by omega), by omega,
        fun log deferring => commitRequest_of_some hc ho⟩

/-- A frame that is deferred, and that the store takes. -/
theorem appendAndReplay_deferred {s : TermStore} {answer : CommitAnswer} (ha : committedAnswer Γ db.termStore frame count = .ok (s, answer)) :
    appendAndReplay Γ J log db true frame count = ⟨{ db with termStore := s }, [], [frame], .ok answer⟩ := by
  simp only [appendAndReplay, ha, if_true]

/-- A frame that is deferred waits for the append. -/
theorem deferred_appendAndReplay : (appendAndReplay Γ J log db true frame count).deferred = [frame] := by
  unfold appendAndReplay
  simp only [if_true]
  split
  · rfl
  · rfl

/-- The frame can be encoded, and its sequence is not the last. -/
def Takes (J : Gzip) (deflate : Bool) (frame : TransactionFrame) : Prop :=
  Encodes J deflate frame ∧ frame.sequence ≤ maxTransactionSequence

/-- A database takes its next frame, if it can be encoded: with the same answer whether the frame is deferred or appended. -/
theorem Serves.takes (h : Serves Γ frames db) {operations : List CommitOperation} (hn : operations ≠ []) (hc : count ≤ operations.length)
    (hd : db.deflate.getD false = deflate) (ht : Takes J deflate ⟨db.termStore.nextSequence, operations⟩) :
    ∃ bytes answer db', writeTransactionFrame J ⟨db.termStore.nextSequence, operations⟩ deflate = .ok bytes ∧
      Serves Γ (frames ++ [⟨db.termStore.nextSequence, operations⟩]) db' ∧ db' = { db with termStore := db'.termStore } ∧
      (∃ transaction events found n, answer = .ok (.committed transaction events found n)) ∧
      (∀ log, appendAndReplay Γ J log db true ⟨db.termStore.nextSequence, operations⟩ count =
        ⟨db', [], [⟨db.termStore.nextSequence, operations⟩], answer⟩) ∧
      ∀ log, appendAndReplay Γ J log db false ⟨db.termStore.nextSequence, operations⟩ count = ⟨db', bytes, [], answer⟩ := by
  obtain ⟨hencodes, hnext⟩ := ht
  have hpos := h.represents.advances.next_pos
  have hmax : maxTransactionSequence = 9223372036854775806 := rfl
  obtain ⟨bytes, hw⟩ := (encodes_iff ⟨by dsimp only at hnext ⊢; omega, by dsimp only at hnext ⊢; omega⟩).1 hencodes
  obtain ⟨transaction, events, found, -, -, ha⟩ := committedAnswer_ok h.represents hn hnext hc
  have hspace := appendValidTransaction_spaceId (Γ := Γ) db.termStore db.termStore.nextSequence operations
  refine ⟨bytes, _, { db with termStore := appendValidTransaction Γ db.termStore db.termStore.nextSequence operations }, hw,
    ⟨h.represents.appendValidTransaction (Int.le_refl _) hn, hspace.trans h.space, h.state⟩, rfl,
    ⟨transaction, events, found, operations.length, rfl⟩, fun log => appendAndReplay_deferred ha, fun log => ?_⟩
  exact appendAndReplay_taken (by rw [hd]; exact hw) ha

/-- A frame that can be written goes to the end of those that are. -/
theorem appendFramesDurable_append {waiting : List TransactionFrame} {bytes more : Bytes}
    (h : appendFramesDurable J deflate waiting = (bytes, waiting, none)) (hw : writeTransactionFrame J frame deflate = .ok more) :
    appendFramesDurable J deflate (waiting ++ [frame]) = (bytes ++ more, waiting ++ [frame], none) := by
  induction waiting generalizing bytes with
  | nil =>
    cases h
    simp only [List.nil_append, appendFramesDurable, hw, List.append_nil]
  | cons f waiting ih =>
    rw [List.cons_append, appendFramesDurable]
    rw [appendFramesDurable] at h
    cases hf : writeTransactionFrame J f deflate with
    | error fault =>
      rw [hf] at h
      simp at h
    | ok first =>
      rw [hf] at h
      rcases ha : appendFramesDurable J deflate waiting with ⟨rest, written, failure⟩
      rw [ha] at h
      simp only [Prod.mk.injEq, List.cons.injEq, true_and] at h
      obtain ⟨rfl, rfl, rfl⟩ := h
      rw [ih ha]
      simp only [List.append_assoc]

end Commits

/-! ## Runs in step -/

section Runs

variable {Γ : Host} {J : Gzip} {frames : List TransactionFrame} {db : Db} {log : Bytes} {s t : Running} {α : Type}

/-- Two runs over a database: one that defers its frames, and one that has appended the same. -/
structure InStep (Γ : Host) (J : Gzip) (frames : List TransactionFrame) (db : Db) (log : Bytes) (s t : Running) : Prop where
  serves : Serves Γ (frames ++ s.deferred) s.db
  agree : t.db = s.db
  same : s.db = { db with termStore := s.db.termStore }
  start : s.log = log ∧ t.deferred = []
  bytes : ∃ bytes, appendFramesDurable J (db.deflate.getD false) s.deferred = (bytes, s.deferred, none) ∧ t.log = log ++ bytes

theorem inStep_start (h : Serves Γ frames db) (log : Bytes) : InStep Γ J frames db log ⟨log, db, []⟩ ⟨log, db, []⟩ :=
  ⟨by simpa using h, rfl, rfl, ⟨rfl, rfl⟩, [], rfl, by simp⟩

/-- All frames that wait can be encoded. -/
def AllTake (J : Gzip) (deflate : Bool) (r : Running) : Prop := ∀ f ∈ r.deferred, Takes J deflate f

/-- A question leaves the state as it is, or a frame to wait. -/
theorem answerQuestion_cases (q : Question) (r : Running) :
    (answerQuestion Γ J true q r).2 = r ∨ ∃ frame, (answerQuestion Γ J true q r).2.deferred = r.deferred ++ [frame] := by
  cases q with
  | look => exact Or.inl rfl
  | commit request =>
    rcases commitRequest_cases Γ J r.db request with ⟨answer, -, hc⟩ | ⟨operations, count, -, -, hc⟩
    · left
      simp only [answerQuestion, hc, List.append_nil]
    · right
      refine ⟨⟨r.db.termStore.nextSequence, operations⟩, ?_⟩
      simp only [answerQuestion, hc, deferred_appendAndReplay]

theorem AllTake.of_answerQuestion (q : Question) (r : Running)
    (h : AllTake J deflate (answerQuestion Γ J true q r).2) : AllTake J deflate r := by
  rcases answerQuestion_cases (Γ := Γ) (J := J) q r with hs | ⟨frame, hs⟩
  · rwa [hs] at h
  · intro f hf
    exact h f (by rw [hs]; exact List.mem_append_left _ hf)

/-- A question keeps two runs in step. -/
theorem InStep.answerQuestion (q : Question) (s t : Running) (h : InStep Γ J frames db log s t)
    (ht : AllTake J (db.deflate.getD false) (answerQuestion Γ J true q s).2) :
    (Database.answerQuestion Γ J true q s).1 = (Database.answerQuestion Γ J false q t).1 ∧
      InStep Γ J frames db log (Database.answerQuestion Γ J true q s).2 (Database.answerQuestion Γ J false q t).2 := by
  obtain ⟨tlog, tdb, tdeferred⟩ := t
  obtain ⟨slog, sdb, waiting⟩ := s
  obtain ⟨hserves, hagree, hsame, ⟨hlog, hnone⟩, bytes, hbytes, htlog⟩ := h
  dsimp only at hserves hagree hsame hlog hnone hbytes htlog
  subst hagree hlog hnone htlog
  cases q with
  | look => exact ⟨rfl, hserves, rfl, hsame, ⟨rfl, rfl⟩, bytes, hbytes, rfl⟩
  | commit request =>
    rcases commitRequest_cases Γ J tdb request with ⟨answer, -, hc⟩ | ⟨operations, count, hn, hcount, hc⟩
    · simp only [Database.answerQuestion, hc, List.append_nil]
      exact ⟨rfl, hserves, rfl, hsame, ⟨rfl, rfl⟩, bytes, hbytes, rfl⟩
    · have hmode : tdb.deflate.getD false = db.deflate.getD false := by rw [hsame]
      have hframe := ht ⟨tdb.termStore.nextSequence, operations⟩ (by
        simp only [Database.answerQuestion, hc, deferred_appendAndReplay]
        exact List.mem_append_right _ (List.mem_singleton_self _))
      obtain ⟨more, answer, db', hw, hserves', hdb', -, hdefer, hdurable⟩ := hserves.takes hn hcount hmode hframe
      simp only [Database.answerQuestion, hc, hdefer, hdurable, List.append_nil]
      refine ⟨rfl, by rw [← List.append_assoc]; exact hserves', rfl, ?_, ⟨rfl, rfl⟩, bytes ++ more,
        appendFramesDurable_append hbytes hw, by rw [List.append_assoc]⟩
      rw [hdb', hsame]

/-- A mutation function keeps two runs in step. -/
theorem InStep.run (h : InStep Γ J frames db log s t) (mutation : Mutating α)
    (ht : AllTake J (db.deflate.getD false) (mutation.run (Database.answerQuestion Γ J true) s).2) :
    (mutation.run (Database.answerQuestion Γ J true) s).1 = (mutation.run (Database.answerQuestion Γ J false) t).1 ∧
      InStep Γ J frames db log (mutation.run (Database.answerQuestion Γ J true) s).2
        (mutation.run (Database.answerQuestion Γ J false) t).2 :=
  Script.run_simulates AllTake.of_answerQuestion InStep.answerQuestion mutation h ht

/-- A database that serves a history has a store to look at. -/
theorem Serves.databaseStore (h : Serves Γ frames db) : Database.databaseStore db = .ok db.termStore := by
  unfold Database.databaseStore readable
  rw [h.state]
  rfl

/-- What is told of a mutation function that leaves a database that serves a history. -/
theorem runMutation_ok {deferring : Bool} (mutation : Mutating α)
    (h : Serves Γ frames (mutation.run (Database.answerQuestion Γ J deferring) r).2.db) :
    runMutation Γ J deferring mutation r = .ok (⟨(mutation.run (Database.answerQuestion Γ J deferring) r).1,
      currentSequence (mutation.run (Database.answerQuestion Γ J deferring) r).2.db.termStore⟩,
      (mutation.run (Database.answerQuestion Γ J deferring) r).2) :=
  bind_eq_ok_iff.2 ⟨_, h.databaseStore, rfl⟩

theorem runMutations_cons {deferring : Bool} {mutation : Mutating α} {mutations : List (Mutating α)} {told : Told α}
    {more : List (Told α)} {r' r'' : Running} (h : runMutation Γ J deferring mutation r = .ok (told, r'))
    (hs : Database.runMutations Γ J deferring mutations r' = .ok (more, r'')) :
    Database.runMutations Γ J deferring (mutation :: mutations) r = .ok (told :: more, r'') := by
  exact bind_eq_ok_iff.2 ⟨_, h, bind_eq_ok_iff.2 ⟨_, hs, rfl⟩⟩

/-- The state behind mutation functions that defer their frames. -/
def stateAfter (Γ : Host) (J : Gzip) (mutations : List (Mutating α)) (r : Running) : Running :=
  mutations.foldl (fun r mutation => (mutation.run (Database.answerQuestion Γ J true) r).2) r

theorem stateAfter_cons (mutation : Mutating α) (mutations : List (Mutating α)) (r : Running) :
    stateAfter Γ J (mutation :: mutations) r = stateAfter Γ J mutations (mutation.run (Database.answerQuestion Γ J true) r).2 := rfl

theorem stateAfter_append (before after : List (Mutating α)) (r : Running) :
    stateAfter Γ J (before ++ after) r = stateAfter Γ J after (stateAfter Γ J before r) := List.foldl_append

theorem AllTake.of_stateAfter (mutations : List (Mutating α))
    (h : AllTake J deflate (stateAfter Γ J mutations r)) : AllTake J deflate r := by
  induction mutations generalizing r with
  | nil => exact h
  | cons mutation mutations ih => exact Script.of_run AllTake.of_answerQuestion mutation (ih h)

/-- Mutation functions keep two runs in step, and the same is told of them. -/
theorem InStep.runMutations (h : InStep Γ J frames db log s t) (mutations : List (Mutating α))
    (ht : AllTake J (db.deflate.getD false) (stateAfter Γ J mutations s)) :
    ∃ told t', Database.runMutations Γ J true mutations s = .ok (told, stateAfter Γ J mutations s) ∧
      Database.runMutations Γ J false mutations t = .ok (told, t') ∧ told.length = mutations.length ∧
      InStep Γ J frames db log (stateAfter Γ J mutations s) t' := by
  induction mutations generalizing s t with
  | nil => exact ⟨[], t, rfl, rfl, rfl, h⟩
  | cons mutation mutations ih =>
    rw [stateAfter_cons] at ht ⊢
    obtain ⟨hresult, hstep⟩ := h.run mutation (AllTake.of_stateAfter mutations ht)
    obtain ⟨told, t', h1, h2, hlen, h3⟩ := ih hstep ht
    have hdefer := runMutation_ok mutation hstep.serves
    have hdurable := runMutation_ok mutation (hstep.agree ▸ hstep.serves)
    rw [hstep.agree, ← hresult] at hdurable
    exact ⟨_, t', runMutations_cons hdefer h1, runMutations_cons hdurable h2, by rw [List.length_cons, List.length_cons, hlen], h3⟩

/-! ## Functions that make no frame -/

/-- A mutation function leaves the state as it is, or leaves frames to wait. -/
theorem run_cases (mutation : Mutating α) (r : Running) : (mutation.run (Database.answerQuestion Γ J true) r).2 = r ∨
    r.deferred.length < (mutation.run (Database.answerQuestion Γ J true) r).2.deferred.length := by
  refine Script.run_invariant (P := fun x => x = r ∨ r.deferred.length < x.deferred.length) (fun q x hx => ?_) mutation (Or.inl rfl)
  rcases answerQuestion_cases (Γ := Γ) (J := J) q x with hs | ⟨frame, hs⟩
  · rwa [hs]
  · right
    rw [hs, List.length_append, List.length_singleton]
    rcases hx with rfl | hlt <;> omega

theorem stateAfter_cases (mutations : List (Mutating α)) (r : Running) : stateAfter Γ J mutations r = r ∨
    r.deferred.length < (stateAfter Γ J mutations r).deferred.length := by
  induction mutations generalizing r with
  | nil => exact Or.inl rfl
  | cons mutation mutations ih =>
    rw [stateAfter_cons]
    rcases run_cases (Γ := Γ) (J := J) mutation r with hs | hlt
    · rw [hs]
      exact ih r
    · right
      rcases ih (mutation.run (Database.answerQuestion Γ J true) r).2 with hs | hlt'
      · rwa [hs]
      · exact hlt.trans hlt'

/-- A mutation function that returns as soon as a commit of it succeeds. -/
inductive CommitsLast : Mutating α → Prop where
  | done (result : Except Fault α) : CommitsLast (.done result)
  | look {next : Reply .look → Mutating α} (h : ∀ store, CommitsLast (next store)) : CommitsLast (.ask .look next)
  | commit {request : CommitRequest Term} {next : Reply (.commit request) → Mutating α}
      (hrefused : ∀ answer : Except Fault CommitAnswer,
        (∀ transaction events found n, answer ≠ .ok (.committed transaction events found n)) → CommitsLast (next answer))
      (hcommitted : ∀ transaction events found n, ∃ value,
        next (Except.ok (.committed transaction events found n)) = .done (.ok value)) : CommitsLast (.ask (.commit request) next)

/-- A function that returns as soon as its commit succeeds, and that fails, leaves no frame. -/
theorem CommitsLast.no_frame {mutation : Mutating α} (hl : CommitsLast mutation) (h : InStep Γ J frames db log s t)
    (ht : AllTake J (db.deflate.getD false) (mutation.run (Database.answerQuestion Γ J true) s).2)
    {fault : Fault} (hf : (mutation.run (Database.answerQuestion Γ J true) s).1 = .error fault) :
    (mutation.run (Database.answerQuestion Γ J true) s).2 = s := by
  induction hl generalizing s t with
  | done result => rfl
  | look hnext ih => exact ih _ h ht hf
  | @commit request next hrefused hcommitted ih =>
    rcases commitRequest_cases Γ J s.db request with ⟨answer, ha, hc⟩ | ⟨operations, count, hn, hcount, hc⟩
    · have hs : Database.answerQuestion Γ J true (.commit request) s = (answer, s) := by
        simp only [Database.answerQuestion, hc, List.append_nil]
        rfl
      rw [Script.run_ask, hs] at ht hf ⊢
      exact ih answer ha h ht hf
    · have hmode : s.db.deflate.getD false = db.deflate.getD false := by rw [h.same]
      have hwaiting : (Database.answerQuestion Γ J true (.commit request) s).2.deferred =
          s.deferred ++ [⟨s.db.termStore.nextSequence, operations⟩] := by
        simp only [Database.answerQuestion, hc, deferred_appendAndReplay]
      have hafter : AllTake J (db.deflate.getD false) (Database.answerQuestion Γ J true (.commit request) s).2 :=
        Script.of_run AllTake.of_answerQuestion _ ht
      have hframe := hafter ⟨s.db.termStore.nextSequence, operations⟩
        (by rw [hwaiting]; exact List.mem_append_right _ (List.mem_singleton_self _))
      obtain ⟨-, answer, db', -, -, -, ⟨transaction, events, found, n, rfl⟩, hdefer, -⟩ := h.serves.takes hn hcount hmode hframe
      obtain ⟨value, hv⟩ := hcommitted transaction events found n
      have hanswer : (Database.answerQuestion Γ J true (.commit request) s).1 = .ok (.committed transaction events found n) := by
        simp only [Database.answerQuestion, hc, hdefer]
        rfl
      rw [Script.run_ask, hanswer, hv] at hf
      cases hf

end Runs

end Fram.Database
