import Fram.Lemmas.Log
import Fram.Lemmas.Observe
import Fram.Lib.Records

/-!
# Replaying a log

A replay of a payload is the append of the frame it decodes to (`replayFrameFused_ok_iff`). So what a boot makes of a file depends
on the frames in it only: `Scans` reads these without a store, and a boot succeeds exactly when the scan does and then represents
the frames of the scan.
-/

namespace Fram

open Reader LittleEndian

variable {d d' : Decoder} {s' : TermStore} {n : Nat}

section Walk

variable {Γ : Host} {s : TermStore}

theorem internTripleHandle_eq {h1 h2 h3 : Int} (v1 : ValidPrior s.atoms.length s.triples.length h1)
    (v2 : ValidPrior s.atoms.length s.triples.length h2) (v3 : ValidPrior s.atoms.length s.triples.length h3) :
    internTripleHandle Γ s h1 h2 h3 = .ok (internRow Γ s ⟨h1, h2, h3⟩) := by
  unfold internTripleHandle
  rw [(validHandle_iff s h1).2 v1, (validHandle_iff s h2).2 v2, (validHandle_iff s h3).2 v3]
  rfl

/-- Interning a term as it is read is reading it and then interning it. -/
theorem internWireTerm_eq (s : TermStore) (room : Nat) : internWireTerm Γ room s = (do
      let t ← readTermAt maxCodecCount maxCodecCount room
      pure (internHandle Γ s t)) := by
  induction room generalizing s with
  | zero => rfl
  | succ room ih =>
    unfold internWireTerm readTermAt
    simp only [bind_assoc]
    congr 1
    funext _
    congr 1
    funext tag
    by_cases h1 : tag = 1
    · simp [h1, internHandle]
    by_cases h2 : tag = 2
    · simp [h2, internHandle]
    by_cases h3 : tag = 3
    · simp [h3, internHandle]
    by_cases h4 : tag = 4
    · simp [h4, internHandle]
    by_cases h5 : tag = 5
    · simp [h5, internHandle]
    by_cases h6 : tag = 6
    · simp [h6]
      congr 1
      funext sp
      split
      · rfl
      · simp [internHandle]
    by_cases h7 : tag = 7
    · simp only [h7, Nat.reduceEqDiff, ↓reduceIte, bind_assoc, pure_bind, ih]
      congr 1
      funext t1
      congr 1
      funext t2
      congr 1
      funext t3
      obtain ⟨-, v1⟩ := internHandle_grows Γ s t1
      obtain ⟨g2, v2⟩ := internHandle_grows Γ (internHandle Γ s t1).1 t2
      obtain ⟨g3, v3⟩ := internHandle_grows Γ (internHandle Γ (internHandle Γ s t1).1 t2).1 t3
      rw [internTripleHandle_eq (v1.mono (g2.trans g3).atoms.length_le (g2.trans g3).triples.length_le)
        (v2.mono g3.atoms.length_le g3.triples.length_le) v3]
      rfl
    by_cases h8 : tag = 8
    · simp [h8]
      congr 1
      funext seconds
      congr 1
      funext nanos
      split
      · simp [internHandle]
      · rfl
    simp [h1, h2, h3, h4, h5, h6, h7, h8]
    rfl

/-- A term just interned has the handle of a triple exactly when it is a triple. -/
theorem tripleHandleShape_internHandle (s : TermStore) (t : Term) : tripleHandleShape (internHandle Γ s t).2 = t.asTriple.isSome := by
  cases t with
  | atom a =>
    obtain ⟨-, p, hp, -⟩ := internAtom_grows Γ s a
    rw [show (internHandle Γ s (.atom a)).2 = atomHandle p from hp]
    simp [tripleHandleShape, atomHandle, Term.asTriple]
  | triple t1 t2 t3 =>
    obtain ⟨-, p, hp, -⟩ := internRow_grows Γ (internHandle Γ (internHandle Γ (internHandle Γ s t1).1 t2).1 t3).1
      ⟨(internHandle Γ s t1).2, (internHandle Γ (internHandle Γ s t1).1 t2).2,
        (internHandle Γ (internHandle Γ (internHandle Γ s t1).1 t2).1 t3).2⟩
    rw [show (internHandle Γ s (.triple t1 t2 t3)).2 = tripleHandle p from hp]
    simp [Term.asTriple]

/-- The ordinal, the action and the term of one operation, before they are checked. -/
def readParts : Read (Nat × Nat × Term) := do
  let actual ← readU32Le "FRAMLOG operation ordinal"
  let action ← readU8 "FRAMLOG operation action"
  resetNodes
  let proposition ← readTermLimited 0 maxCodecCount maxCodecCount maxTermDepth
  pure (actual, action, proposition)

theorem readOperation_eq (ordinal : Nat) :
    readOperation ordinal = readParts >>= fun parts => checkOperation ordinal parts.1 parts.2.1 parts.2.2 := by
  simp only [readOperation, readParts, bind_assoc, pure_bind]

/-- Walking an operation is reading its parts and interning its term. -/
theorem walkOperation_ok_iff {actual action : Nat} {h : Int} : walkOperation Γ s d = .ok ((actual, action, s', h), d') ↔
      ∃ t, readParts d = .ok ((actual, action, t), d') ∧ (s', h) = internHandle Γ s t := by
  unfold walkOperation
  rw [internWireTerm_eq s]
  have hw : ∀ d, (do
      let actual ← readU32Le "FRAMLOG operation ordinal"
      let action ← readU8 "FRAMLOG operation action"
      resetNodes
      let interned ← (do
        let t ← readTermAt maxCodecCount maxCodecCount (maxTermDepth + 1)
        pure (internHandle Γ s t))
      pure (actual, action, interned.1, interned.2) : Read (Nat × Nat × TermStore × Int)) d = (do
      let parts ← readParts
      pure (parts.1, parts.2.1, internHandle Γ s parts.2.2)) d := by
    simp only [readParts, readTermLimited, bind_assoc, pure_bind]
    exact fun d => rfl
  erw [hw]
  rw [bind_apply]
  cases readParts d with
  | error m => simp
  | ok r =>
    obtain ⟨⟨a, b, t⟩, d1⟩ := r
    simp only [pure_apply, Except.ok.injEq, Prod.ext_iff]
    constructor
    · rintro ⟨⟨rfl, rfl, rfl, rfl⟩, rfl⟩
      exact ⟨t, ⟨⟨rfl, rfl, rfl⟩, rfl⟩, rfl, rfl⟩
    · rintro ⟨t', ⟨⟨rfl, rfl, rfl⟩, rfl⟩, h1, h2⟩
      exact ⟨⟨rfl, rfl, h1.symm, h2.symm⟩, rfl⟩

/-- The actions and handles walked are those of the operations that would be read. -/
theorem walkOperations_ok_iff {left ordinal : Nat} {as : List Action} {hs : List Int} {as' : List Action} {hs' : List Int} :
    walkOperations Γ left ordinal s as hs d = .ok ((s', as', hs'), d') ↔ ∃ os, readOperations left ordinal d = .ok (os, d') ∧
      s' = (operationHandles Γ s os).1 ∧ as' = as ++ os.map (·.action) ∧ hs' = hs ++ (operationHandles Γ s os).2 := by
  induction left generalizing ordinal s as hs d with
  | zero =>
    simp only [walkOperations, readOperations, pure_apply, Except.ok.injEq, Prod.mk.injEq]
    constructor
    · rintro ⟨⟨rfl, rfl, rfl⟩, rfl⟩
      exact ⟨[], ⟨rfl, rfl⟩, rfl, by simp, by simp [operationHandles]⟩
    · rintro ⟨os, ⟨rfl, rfl⟩, rfl, rfl, rfl⟩
      simp [operationHandles]
  | succ left ih =>
    have hstep : ∀ {o : CommitOperation} {d1 : Decoder}, readOperation ordinal d = .ok (o, d1) ↔
        readParts d = .ok ((ordinal, o.action.byte.toNat, o.proposition.term), d1) := by
      intro o d1
      rw [readOperation_eq, bind_eq_ok_iff]
      constructor
      · rintro ⟨⟨actual, action, t⟩, d2, h1, h2⟩
        obtain ⟨rfl, rfl, rfl, rfl⟩ := checkOperation_ok_iff.1 h2
        exact h1
      · intro h
        exact ⟨_, d1, h, checkOperation_ok_iff.2 ⟨rfl, rfl, rfl, rfl⟩⟩
    simp only [walkOperations, readOperations, bind_eq_ok_iff, hstep, pure_apply]
    constructor
    · rintro ⟨⟨actual, action, s1, h⟩, d1, h1, h2⟩
      obtain ⟨t, hp, he⟩ := walkOperation_ok_iff.1 h1
      obtain ⟨rfl, rfl⟩ := Prod.ext_iff.1 he
      dsimp only at h2
      split at h2
      · cases h2
      · rename_i ha
        rw [not_not] at ha
        subst ha
        split at h2
        · cases h2
        · rename_i hshape
          rw [tripleHandleShape_internHandle] at hshape
          cases t with
          | atom a => simp [Term.asTriple] at hshape
          | triple t1 t2 t3 =>
            split at h2
            · rename_i hact
              subst hact
              obtain ⟨os, hos, rfl, rfl, rfl⟩ := ih.1 h2
              refine ⟨⟨.assert, t1, t2, t3⟩ :: os, ⟨⟨.assert, t1, t2, t3⟩, d1, hp, os, d', hos, rfl⟩, ?_, by simp, ?_⟩ <;>
                simp [operationHandles_cons, Triple.term]
            · split at h2
              · rename_i hact
                subst hact
                obtain ⟨os, hos, rfl, rfl, rfl⟩ := ih.1 h2
                refine ⟨⟨.retract, t1, t2, t3⟩ :: os, ⟨⟨.retract, t1, t2, t3⟩, d1, hp, os, d', hos, rfl⟩, ?_, by simp, ?_⟩ <;>
                  simp [operationHandles_cons, Triple.term]
              · cases h2
    · rintro ⟨os, ⟨o, d1, hp, os', d2, hos, he⟩, rfl, rfl, rfl⟩
      cases he
      refine ⟨(ordinal, o.action.byte.toNat, internHandle Γ s o.proposition.term), d1, walkOperation_ok_iff.2 ⟨_, hp, rfl⟩, ?_⟩
      have hshape : tripleHandleShape (internHandle Γ s o.proposition.term).2 = true := by
        rw [tripleHandleShape_internHandle]
        rfl
      dsimp only
      rw [if_neg (by simp), if_neg (by simp [hshape])]
      cases ha : o.action with
      | assert =>
        rw [if_pos (by rfl)]
        exact ih.2 ⟨os', hos, by simp [operationHandles_cons], by simp [ha], by simp [operationHandles_cons]⟩
      | retract =>
        rw [if_neg (by decide), if_pos (by rfl)]
        exact ih.2 ⟨os', hos, by simp [operationHandles_cons], by simp [ha], by simp [operationHandles_cons]⟩

/-- Walking a frame is reading it and interning its terms. -/
theorem walkFrame_ok_iff {q : Int} {as : List Action} {hs : List Int} :
    walkFrame Γ s d = .ok ((q, s', as, hs), d') ↔ ∃ frame, readFrame d = .ok (frame, d') ∧ q = frame.sequence ∧
      s' = (operationHandles Γ s frame.operations).1 ∧ as = frame.operations.map (·.action) ∧
      hs = (operationHandles Γ s frame.operations).2 := by
  unfold walkFrame readFrame
  simp only [bind_eq_ok_iff]
  constructor
  · rintro ⟨sequence, d1, h1, count, d2, h2, h3⟩
    split at h3
    · cases h3
    · rename_i hq
      split at h3
      · cases h3
      · rename_i hc
        obtain ⟨⟨s1, as1, hs1⟩, d3, h4, h5⟩ := bind_eq_ok_iff.1 h3
        cases h5
        obtain ⟨os, hos, rfl, rfl, rfl⟩ := walkOperations_ok_iff.1 h4
        refine ⟨⟨q, os⟩, ⟨q, d1, h1, count, d2, h2, ?_⟩, rfl, rfl, by simp, by simp⟩
        rw [if_neg hq, if_neg hc]
        exact bind_eq_ok_iff.2 ⟨os, d', hos, rfl⟩
  · rintro ⟨frame, ⟨sequence, d1, h1, count, d2, h2, h3⟩, rfl, rfl, rfl, rfl⟩
    refine ⟨sequence, d1, h1, count, d2, h2, ?_⟩
    split at h3
    · cases h3
    · rename_i hq
      split at h3
      · cases h3
      · rename_i hc
        obtain ⟨os, d3, h4, h5⟩ := bind_eq_ok_iff.1 h3
        cases h5
        rw [if_neg hq, if_neg hc]
        exact bind_eq_ok_iff.2 ⟨_, d', walkOperations_ok_iff.2 ⟨os, h4, rfl, rfl, rfl⟩, rfl⟩

/-- A replay of a payload is the append of the frame it decodes to. -/
theorem replayFrameFused_ok_iff {payload : Bytes} : (∃ result, replayFrameFused Γ s payload = (s', result) ∧ result.ok = true) ↔
      ∃ frame, decodeFramePayload payload = .ok frame ∧ s.nextSequence ≤ frame.sequence ∧
        frame.sequence ≤ maxTransactionSequence ∧ s' = appendValidTransaction Γ s frame.sequence frame.operations := by
  have hnext : ∀ operations, (operationHandles Γ s operations).1.nextSequence = s.nextSequence := fun operations => by
    have hf := (operationHandles_grows Γ s operations).1.frame
    rw [hf]
  have hlen : ∀ operations, (operationHandles Γ s operations).2.length = operations.length := fun operations =>
    (operationHandles_grows Γ s operations).2
  unfold replayFrameFused decodeFramePayload
  split
  · simp [transactionReplayError]
  · cases hw : walkFrame Γ s ⟨payload, 0⟩ with
    | error m =>
      cases hr : readFrame ⟨payload, 0⟩ with
      | error m' => simp [transactionReplayError]
      | ok r =>
        obtain ⟨frame, d⟩ := r
        rw [walkFrame_ok_iff.2 ⟨frame, hr, rfl, rfl, rfl, rfl⟩] at hw
        cases hw
    | ok r =>
      obtain ⟨⟨q, s1, as, hs⟩, d⟩ := r
      obtain ⟨frame, hr, rfl, rfl, rfl, rfl⟩ := walkFrame_ok_iff.1 hw
      rw [hr]
      dsimp only
      split
      · simp [transactionReplayError]
      · have hne : frame.operations ≠ [] := by
          obtain ⟨used, -, -, hl, -, -⟩ := (exact_readFrame _ _ _).1 hr
          exact hl.nonempty
        unfold appendReplayedTransaction
        rw [if_neg (by simp [hlen, hne]), hnext]
        simp only [Except.ok.injEq, exists_eq_left']
        split
        · simp [nonmonotonicSequence, transactionReplayError]
          omega
        · split
          · simp [transactionReplayUnclassifiedError]
            omega
          · rename_i h1 h2
            simp only [Prod.mk.injEq, appendValidTransaction, transactionReplayOk]
            constructor
            · rintro ⟨result, ⟨rfl, rfl⟩, -⟩
              exact ⟨by omega, by omega, rfl⟩
            · rintro ⟨-, -, rfl⟩
              exact ⟨_, ⟨rfl, rfl⟩, rfl⟩

end Walk

/-! ## Frames in a file -/

/-- The bytes end inside a frame, as the reader takes them: fewer than a length, or than the frame that the length announces. -/
def Torn (rest : Bytes) : Prop :=
  rest.length < 4 ∨ (u32LeAt rest 0 ≤ framlogStreamMaxPayloadBytes ∧ rest.length < u32LeAt rest 0 + 8)

/-- The payload is read as the frame where the next sequence is `next`. -/
structure Accepts (next : Int) (payload : Bytes) (frame : TransactionFrame) : Prop where
  size : payload.length ≤ framlogStreamMaxPayloadBytes
  decodes : decodeFramePayload payload = .ok frame
  lower : next ≤ frame.sequence
  upper : frame.sequence ≤ maxTransactionSequence

/-- What the reader makes of the bytes where the next sequence is `next`: the frames, and how many bytes they take. -/
inductive Scans : Int → Bytes → List TransactionFrame → Nat → Prop
  | torn {next : Int} {rest : Bytes} : Torn rest → Scans next rest [] 0
  | frame {next : Int} {payload rest : Bytes} {frame : TransactionFrame} {frames : List TransactionFrame} {n : Nat} :
    Accepts next payload frame → Scans (frame.sequence + 1) rest frames n →
      Scans next (frameBytes payload ++ rest) (frame :: frames) (payload.length + 8 + n)

section Frames

variable {next : Int} {payload rest : Bytes}

theorem u32LeAt_frameBytes (hs : payload.length < 256 ^ 4) (rest : Bytes) : u32LeAt (frameBytes payload ++ rest) 0 = payload.length :=
  Records.wordAt_record hs rest

theorem crc32_lt (bytes : Bytes) : crc32 bytes < 256 ^ 4 := BitVec.isLt _

theorem size_lt (h : n ≤ framlogStreamMaxPayloadBytes) : n < 256 ^ 4 := by
  unfold framlogStreamMaxPayloadBytes at h
  omega

/-- A whole frame is not torn. -/
theorem not_torn_frameBytes (hs : payload.length ≤ framlogStreamMaxPayloadBytes) (rest : Bytes) : ¬Torn (frameBytes payload ++ rest) :=
  Records.not_cut_record (by decide) hs rest

/-- The payload of a whole frame, and its check. -/
theorem frameBytes_parts (payload rest : Bytes) : ((frameBytes payload ++ rest).drop 4).take payload.length = payload ∧
      u32LeAt (frameBytes payload ++ rest) (4 + payload.length) = crc32 payload ∧
      (frameBytes payload ++ rest).drop (payload.length + 8) = rest :=
  Records.record_parts (crc32_lt payload) rest

/-- A scan of a whole frame and a rest. -/
theorem scans_frameBytes_iff (hs : payload.length ≤ framlogStreamMaxPayloadBytes) {frames : List TransactionFrame} :
    Scans next (frameBytes payload ++ rest) frames n ↔ ∃ f fs m, frames = f :: fs ∧ n = payload.length + 8 + m ∧
      Accepts next payload f ∧ Scans (f.sequence + 1) rest fs m := by
  constructor
  · intro h
    generalize hb : frameBytes payload ++ rest = bytes at h
    cases h with
    | torn ht => exact absurd (hb ▸ ht) (not_torn_frameBytes hs rest)
    | @frame _ p r f fs m ha hr =>
      have hl : payload.length = p.length := by
        rw [← u32LeAt_frameBytes (size_lt hs) rest, hb, u32LeAt_frameBytes (size_lt ha.size)]
      obtain ⟨h1, -, h3⟩ := frameBytes_parts payload rest
      obtain ⟨g1, -, g3⟩ := frameBytes_parts p r
      rw [hb, hl] at h1 h3
      obtain rfl : p = payload := g1.symm.trans h1
      obtain rfl : r = rest := g3.symm.trans h3
      exact ⟨f, fs, m, rfl, rfl, ha, hr⟩
  · rintro ⟨f, fs, m, rfl, rfl, ha, hr⟩
    exact .frame ha hr

theorem scans_torn_iff (ht : Torn rest) {frames : List TransactionFrame} : Scans next rest frames n ↔ frames = [] ∧ n = 0 := by
  constructor
  · intro h
    cases h with
    | torn => exact ⟨rfl, rfl⟩
    | frame ha => exact absurd ht (not_torn_frameBytes ha.size _)
  · rintro ⟨rfl, rfl⟩
    exact .torn ht

/-- What is scanned is within the bytes. -/
theorem Scans.le {frames : List TransactionFrame} (h : Scans next rest frames n) : n ≤ rest.length := by
  induction h with
  | torn => exact Nat.zero_le _
  | frame ha _ ih =>
    rw [List.length_append, length_frameBytes]
    omega

/-- What is scanned is records and a cut rest. -/
theorem Scans.pieces {frames : List TransactionFrame} (h : Scans next rest frames n) :
    ∃ payloads tail, Records.Pieces crc32 framlogStreamMaxPayloadBytes rest payloads tail := by
  induction h with
  | torn ht => exact ⟨[], _, Records.pieces_nil_iff.2 ⟨rfl, ht⟩⟩
  | @frame _ payload rest _ _ _ ha _ ih =>
    obtain ⟨payloads, tail, hp⟩ := ih
    exact ⟨payload :: payloads, tail, Records.pieces_cons_iff.2 ⟨rest, rfl, ha.size, hp⟩⟩

/-- A scan is determined by the bytes and the next sequence. -/
theorem Scans.unique {frames frames' : List TransactionFrame} {n' : Nat} (h : Scans next rest frames n)
    (h' : Scans next rest frames' n') : frames = frames' ∧ n = n' := by
  induction h generalizing frames' n' with
  | torn ht =>
    obtain ⟨rfl, rfl⟩ := (scans_torn_iff ht).1 h'
    exact ⟨rfl, rfl⟩
  | frame ha _ ih =>
    obtain ⟨f, fs, m, rfl, rfl, ha', hr⟩ := (scans_frameBytes_iff ha.size).1 h'
    obtain rfl : _ = f := Except.ok.inj (ha.decodes.symm.trans ha'.decodes)
    obtain ⟨rfl, rfl⟩ := ih hr
    exact ⟨rfl, rfl⟩

end Frames

/-! ## Booting -/

/-- The store after the frames are appended in order. -/
def appendFrames (Γ : Host) (s : TermStore) (frames : List TransactionFrame) : TermStore :=
  frames.foldl (fun s frame => appendValidTransaction Γ s frame.sequence frame.operations) s

section Boot

variable {Γ : Host} {s : TermStore} {frames : List TransactionFrame}

theorem appendValidTransaction_nextSequence (s : TermStore) (sequence : Int) (operations : List CommitOperation) :
    (appendValidTransaction Γ s sequence operations).nextSequence = sequence + 1 := rfl

theorem appendFrames_spaceId (s : TermStore) (frames : List TransactionFrame) : (appendFrames Γ s frames).spaceId = s.spaceId := by
  unfold appendFrames
  induction frames generalizing s with
  | nil => rfl
  | cons f fs ih => exact (ih _).trans (appendValidTransaction_spaceId _ _ _)

/-- The frames of a scan extend the history. -/
theorem Represents.appendFrames (h : Represents Γ s frames) {rest : Bytes} {fs : List TransactionFrame}
    (hs : Scans s.nextSequence rest fs n) : Represents Γ (appendFrames Γ s fs) (frames ++ fs) := by
  induction fs generalizing s frames rest n with
  | nil => simpa [Fram.appendFrames] using h
  | cons f fs ih =>
    cases hs with
    | frame ha hr =>
      have hne := (decodeFramePayload_eq_ok_iff.1 ha.decodes).2.1.nonempty
      have h1 := h.appendValidTransaction ha.lower hne
      have h2 := ih h1 (by rw [appendValidTransaction_nextSequence]; exact hr)
      simpa [Fram.appendFrames, List.append_assoc] using h2

/-- One frame of the stream, of a payload whose check matches. -/
def consumePayload (Γ : Host) (stream : BootStream) (payload : Bytes) : Except String BootStream :=
  match stream.store with
  | none => .error "FRAMLOG header was not decoded"
  | some root =>
    let (replayed, result) := replayFrameFused Γ root payload
    if result.ok then .ok ⟨stream.configuredSpaceId, some replayed, stream.validLogBytes + (payload.length + 8), []⟩
    else .error (result.message.getD "FRAMLOG transaction sequence does not advance")

theorem consumePayload_some (h : stream.store = some root) (payload : Bytes) :
    consumePayload Γ stream payload = if (replayFrameFused Γ root payload).2.ok then
      .ok ⟨stream.configuredSpaceId, some (replayFrameFused Γ root payload).1, stream.validLogBytes + (payload.length + 8), []⟩
    else .error ((replayFrameFused Γ root payload).2.message.getD "FRAMLOG transaction sequence does not advance") := by
  unfold consumePayload
  rw [h]

theorem consumePayload_none (h : stream.store = none) (payload : Bytes) :
    consumePayload Γ stream payload = .error "FRAMLOG header was not decoded" := by
  unfold consumePayload
  rw [h]

/-- The stream is a reader of records. -/
theorem consumeFrames_eq_loop (fuel : Nat) (stream : BootStream) (rest : Bytes) : consumeFrames Γ fuel stream rest =
    (Records.loop crc32 framlogStreamMaxPayloadBytes "FRAMLOG frame exceeds the supported byte range"
      "FRAMLOG frame CRC does not match" (consumePayload Γ) fuel stream rest).map Prod.fst := by
  induction fuel generalizing stream rest with
  | zero => rfl
  | succ fuel ih =>
    rw [Records.loop_succ]
    unfold consumeFrames
    dsimp only
    have hword : ∀ position, u32LeAt rest position = Records.wordAt rest position := fun _ => rfl
    simp only [hword]
    split
    · rfl
    split
    · rfl
    split
    · rfl
    rename_i h4 hmax h8
    split
    · rfl
    have hlen : ((rest.drop 4).take (Records.wordAt rest 0)).length = Records.wordAt rest 0 := by
      rw [List.length_take, List.length_drop]
      omega
    cases hst : stream.store with
    | none =>
      rw [consumePayload_none hst]
      rfl
    | some root =>
      rw [consumePayload_some hst, hlen]
      dsimp only
      by_cases hok : (replayFrameFused Γ root ((rest.drop 4).take (Records.wordAt rest 0))).2.ok = true
      · rw [if_pos hok, if_pos hok, ih]
      · rw [if_neg hok, if_neg hok]
        rfl

/-- What a stream with a store makes of the payloads of some bytes. -/
theorem foldlM_consumePayload_ok_iff (h : Represents Γ s frames) {stream stream' : BootStream} (hst : stream.store = some s)
    {rest tail : Bytes} {payloads : List Bytes} (hp : Records.Pieces crc32 framlogStreamMaxPayloadBytes rest payloads tail) :
    payloads.foldlM (consumePayload Γ) stream = .ok stream' ↔ ∃ fs n, Scans s.nextSequence rest fs n ∧
      stream' = ⟨stream.configuredSpaceId, some (appendFrames Γ s fs), stream.validLogBytes + n,
        if fs = [] then stream.bootAppend else []⟩ := by
  induction payloads generalizing s frames stream rest with
  | nil =>
    obtain ⟨rfl, ht⟩ := Records.pieces_nil_iff.1 hp
    obtain ⟨c, st, v, a⟩ := stream
    subst hst
    rw [List.foldlM_nil]
    constructor
    · rintro ⟨⟩
      exact ⟨[], 0, .torn ht, rfl⟩
    · rintro ⟨fs, n, hs, rfl⟩
      obtain ⟨rfl, rfl⟩ := (scans_torn_iff ht).1 hs
      rfl
  | cons payload payloads ih =>
    obtain ⟨more, rfl, hsize, hmore⟩ := Records.pieces_cons_iff.1 hp
    rw [List.foldlM_cons, ExceptList.bind_eq_ok_iff, consumePayload_some hst]
    cases hreplay : replayFrameFused Γ s payload with
    | mk replayed result =>
      constructor
      · rintro ⟨next, hnext, hrest⟩
        split at hnext
        · rename_i hok
          cases hnext
          obtain ⟨f, hd, hl, hu, rfl⟩ := replayFrameFused_ok_iff.1 ⟨result, hreplay, hok⟩
          have hne := (decodeFramePayload_eq_ok_iff.1 hd).2.1.nonempty
          obtain ⟨fs, n, hs, rfl⟩ := (ih (h.appendValidTransaction hl hne) rfl hmore).1 hrest
          refine ⟨f :: fs, payload.length + 8 + n, (scans_frameBytes_iff hsize).2 ⟨f, fs, n, rfl, rfl, ⟨hsize, hd, hl, hu⟩, hs⟩, ?_⟩
          simp [Fram.appendFrames, Nat.add_assoc]
        · cases hnext
      · rintro ⟨fs, n, hs, rfl⟩
        obtain ⟨f, fs, m, rfl, rfl, ha, hr⟩ := (scans_frameBytes_iff hsize).1 hs
        have hne := (decodeFramePayload_eq_ok_iff.1 ha.decodes).2.1.nonempty
        obtain ⟨result', hreplay', hok⟩ := replayFrameFused_ok_iff.2 ⟨f, ha.decodes, ha.lower, ha.upper, rfl⟩
        rw [hreplay] at hreplay'
        cases hreplay'
        refine ⟨_, if_pos hok, (ih (h.appendValidTransaction ha.lower hne) rfl hmore).2 ⟨fs, m, hr, ?_⟩⟩
        simp [Fram.appendFrames, Nat.add_assoc]

/-- What reading the frames makes of a stream with a store. -/
theorem consumeFrames_ok_iff (h : Represents Γ s frames) {stream stream' : BootStream} (hst : stream.store = some s)
    {rest : Bytes} {fuel : Nat} (hf : rest.length ≤ fuel) :
    consumeFrames Γ fuel stream rest = .ok stream' ↔ ∃ fs n, Scans s.nextSequence rest fs n ∧
      stream' = ⟨stream.configuredSpaceId, some (appendFrames Γ s fs), stream.validLogBytes + n,
        if fs = [] then stream.bootAppend else []⟩ := by
  rw [consumeFrames_eq_loop]
  constructor
  · intro hok
    unfold Except.map at hok
    split at hok
    · cases hok
    · rename_i read hloop
      cases hok
      obtain ⟨payloads, hp, hfold⟩ := (Records.loop_ok_iff (by decide) crc32_lt hf).1 hloop
      exact (foldlM_consumePayload_ok_iff h hst hp).1 hfold
  · rintro ⟨fs, n, hs, hstream⟩
    obtain ⟨payloads, tail, hp⟩ := hs.pieces
    have hfold := (foldlM_consumePayload_ok_iff h hst hp).2 ⟨fs, n, hs, hstream⟩
    rw [(Records.loop_ok_iff (by decide) crc32_lt hf).2 ⟨payloads, hp, hfold⟩]
    rfl

end Boot

end Fram
