import Fram.Lemmas.Twin

/-!
# Runs of a store

What a caller can do to a store is an act; a run is a list of acts on a store that was built empty. After any run the store
represents the frames that were accepted on it (`represents_runActs`).
-/

namespace Fram

/-- What a caller does to a store. -/
inductive StoreAct where
  | commit (operations : List CommitOperation)
  | replay (frame : TransactionFrame)
  | replayResult (frame : TransactionFrame)
  | replayFused (frame : TransactionFrame)
  | intern (term : Term)
  | openFold
  | closeFold

/-- The store after an act, and the frame it accepted, if it accepted one. A fused replay interns the propositions of the frame in
order and appends their handles. -/
def StoreAct.apply (Γ : Host) (s : TermStore) : StoreAct → TermStore × Option TransactionFrame
  | .commit operations =>
    match commitTransaction Γ s operations with
    | .ok (s', _) => (s', some ⟨s.nextSequence, operations⟩)
    | .error _ => (s, none)
  | .replay frame =>
    match replayTransaction Γ s frame with
    | .ok (s', _) => (s', some frame)
    | .error _ => (s, none)
  | .replayResult frame =>
    let (s', result) := replayTransactionResult Γ s frame
    (s', if result.ok then some frame else none)
  | .replayFused frame =>
    let (interned, handles) := operationHandles Γ s frame.operations
    let (s', result) := appendReplayedTransaction Γ interned frame.sequence (frame.operations.map (·.action)) handles
    (s', if result.ok then some frame else none)
  | .intern term => ((internHandle Γ s term).1, none)
  | .openFold => (Fram.openFold s, none)
  | .closeFold => (Fram.closeFold s, none)

/-- The store after acts, and the frames accepted on the way. -/
def runActs (Γ : Host) (s : TermStore) (acts : List StoreAct) : TermStore × List TransactionFrame :=
  acts.foldl
    (fun (s, frames) act =>
      let (s', accepted) := act.apply Γ s
      (s', frames ++ accepted.toList))
    (s, [])

section Run

variable {Γ : Host} {s : TermStore} {frames : List TransactionFrame}

/-- A transaction that is accepted by `append-transaction!` extends the history by its frame. -/
theorem Represents.appendTransaction (h : Represents Γ s frames) {sequence : Int} {operations : List CommitOperation}
    {s' : TermStore} {c : Triple} (he : Fram.appendTransaction Γ s sequence operations = .ok (s', c)) :
    s' = Fram.appendValidTransaction Γ s sequence operations ∧ Represents Γ s' (frames ++ [⟨sequence, operations⟩]) := by
  unfold Fram.appendTransaction at he
  split at he
  · cases he
  · rename_i hne
    split at he
    · cases he
    · rename_i hs
      simp only [bind, Except.bind] at he
      split at he
      · cases he
      · cases he
        refine ⟨rfl, h.appendValidTransaction (by omega) ?_⟩
        simpa [List.isEmpty_iff] using hne

/-- A transaction over the handles of a batch just interned extends the history by its frame. -/
theorem Represents.appendInterned (h : Represents Γ s frames) {sequence : Int} (hs : s.nextSequence ≤ sequence)
    {operations : List CommitOperation} (hn : operations ≠ []) :
    Represents Γ (Fram.appendRows Γ (operationHandles Γ s operations).1 sequence
      ((operations.map (·.action)).zip (operationHandles Γ s operations).2)) (frames ++ [⟨sequence, operations⟩]) :=
  h.appendValidTransaction hs hn

/-- One act keeps a store the representation of its accepted frames, and its space. -/
theorem Represents.apply (h : Represents Γ s frames) (act : StoreAct) :
    Represents Γ (act.apply Γ s).1 (frames ++ (act.apply Γ s).2.toList) ∧ (act.apply Γ s).1.spaceId = s.spaceId := by
  cases act with
  | commit operations =>
    simp only [StoreAct.apply]
    cases hc : commitTransaction Γ s operations with
    | error e => simpa using h
    | ok r =>
      obtain ⟨s', c⟩ := r
      obtain ⟨rfl, hr⟩ := h.appendTransaction hc
      exact ⟨hr, appendValidTransaction_spaceId _ _ _⟩
  | replay frame =>
    simp only [StoreAct.apply]
    cases hc : replayTransaction Γ s frame with
    | error e => simpa using h
    | ok r =>
      obtain ⟨s', c⟩ := r
      unfold replayTransaction at hc
      split at hc
      · obtain ⟨rfl, hr⟩ := h.appendTransaction hc
        exact ⟨hr, appendValidTransaction_spaceId _ _ _⟩
      · cases hc
  | replayResult frame =>
    simp only [StoreAct.apply, replayTransactionResult, appendTransactionResult]
    split
    · rename_i hf
      split
      · simpa [emptyTransaction, transactionReplayError] using h
      · split
        · simpa [nonmonotonicSequence, transactionReplayError] using h
        · split
          · simpa [transactionReplayUnclassifiedError] using h
          · rename_i hs _
            refine ⟨?_, appendValidTransaction_spaceId _ _ _⟩
            exact h.appendValidTransaction (by omega) (by simpa [List.isEmpty_iff] using hf.2)
    · simpa [transactionReplayError] using h
  | replayFused frame =>
    obtain ⟨hi, hg, -, -, -⟩ := operationHandles_spec h.interned frame.operations
    obtain ⟨hsp, hnx⟩ := @operationHandles_frame Γ s frame.operations
    have hgrown := h.grow hi hg
    simp only [StoreAct.apply, appendReplayedTransaction, hnx]
    split
    · exact ⟨by simpa [emptyTransaction, transactionReplayError] using hgrown, hsp⟩
    · rename_i hne
      split
      · exact ⟨by simpa [nonmonotonicSequence, transactionReplayError] using hgrown, hsp⟩
      · split
        · exact ⟨by simpa [transactionReplayUnclassifiedError] using hgrown, hsp⟩
        · rename_i hs _
          simp only [not_or, List.isEmpty_iff, List.map_eq_nil_iff] at hne
          exact ⟨h.appendInterned (by omega) hne.1, (appendRows_spaceId _ _ _).trans hsp⟩
  | intern term =>
    have hf := (internHandle_spec h.interned term).2.1.frame
    exact ⟨by simpa [StoreAct.apply] using h.intern term, by simp only [StoreAct.apply]; rw [hf]⟩
  | openFold => exact ⟨by simpa [StoreAct.apply] using h.openFold, by simp only [StoreAct.apply]; rw [openFold_frame]⟩
  | closeFold => exact ⟨by simpa [StoreAct.apply] using h.closeFold, by simp only [StoreAct.apply]; rw [closeFold_frame]⟩

theorem runActs_concat (Γ : Host) (s : TermStore) (acts : List StoreAct) (act : StoreAct) : runActs Γ s (acts ++ [act]) =
      ((act.apply Γ (runActs Γ s acts).1).1, (runActs Γ s acts).2 ++ (act.apply Γ (runActs Γ s acts).1).2.toList) := by
  simp [runActs, List.foldl_append]

/-- Any acts keep a new store the representation of the frames accepted. -/
theorem represents_runActs {spaceId : String} {a t b : Nat} (h : newTermStoreSized spaceId a t b = .ok s) (acts : List StoreAct) :
    Represents Γ (runActs Γ s acts).1 (runActs Γ s acts).2 ∧ (runActs Γ s acts).1.spaceId = spaceId := by
  induction acts using List.reverseRecOn with
  | nil =>
    obtain ⟨hr, hs, -⟩ := represents_newTermStoreSized Γ h
    exact ⟨hr, hs⟩
  | append_singleton acts act ih =>
    rw [runActs_concat]
    obtain ⟨hr, hs⟩ := ih.1.apply act
    exact ⟨hr, hs.trans ih.2⟩

/-- More acts accept more frames. -/
theorem runActs_append (Γ : Host) (s : TermStore) (acts more : List StoreAct) :
    ∃ fs, (runActs Γ s (acts ++ more)).2 = (runActs Γ s acts).2 ++ fs := by
  induction more using List.reverseRecOn with
  | nil => exact ⟨[], by simp⟩
  | append_singleton more act ih =>
    obtain ⟨fs, hfs⟩ := ih
    rw [← List.append_assoc, runActs_concat, hfs, List.append_assoc]
    exact ⟨_, rfl⟩

/-- The propositions and terms that an act brings. -/
def StoreAct.terms : StoreAct → List Term
  | .commit operations => operations.map (·.proposition.term)
  | .replay frame => frame.operations.map (·.proposition.term)
  | .replayResult frame => frame.operations.map (·.proposition.term)
  | .replayFused frame => frame.operations.map (·.proposition.term)
  | .intern term => [term]
  | .openFold => []
  | .closeFold => []

theorem appendValidTransaction_atoms (sequence : Int) (operations : List CommitOperation) :
    (appendValidTransaction Γ s sequence operations).atoms = (operationHandles Γ s operations).1.atoms := by
  unfold appendValidTransaction
  exact (appendRows_rows Γ _ _ _).2.2.1

/-- The atoms after an act: those before it, or those after its propositions, or its term, are interned. -/
theorem StoreAct.apply_atoms_cases (act : StoreAct) : (act.apply Γ s).1.atoms = s.atoms ∨
    (∃ operations : List CommitOperation, act.terms = operations.map (·.proposition.term) ∧
      (act.apply Γ s).1.atoms = (operationHandles Γ s operations).1.atoms) ∨
    ∃ term, act.terms = [term] ∧ (act.apply Γ s).1.atoms = (internHandle Γ s term).1.atoms := by
  have htransaction : ∀ {q : Int} {operations : List CommitOperation} {s' : TermStore} {c : Triple},
      appendTransaction Γ s q operations = .ok (s', c) → s'.atoms = (operationHandles Γ s operations).1.atoms := by
    intro q operations s' c h
    unfold appendTransaction at h
    split at h
    · cases h
    · split at h
      · cases h
      · simp only [bind, Except.bind] at h
        split at h
        · cases h
        · cases h
          exact appendValidTransaction_atoms q operations
  cases act with
  | commit operations =>
    simp only [StoreAct.apply]
    cases hc : commitTransaction Γ s operations with
    | error e => exact .inl rfl
    | ok r => exact .inr (.inl ⟨operations, rfl, htransaction hc⟩)
  | replay frame =>
    simp only [StoreAct.apply]
    cases hc : replayTransaction Γ s frame with
    | error e => exact .inl rfl
    | ok r =>
      unfold replayTransaction at hc
      split at hc
      · exact .inr (.inl ⟨frame.operations, rfl, htransaction hc⟩)
      · cases hc
  | replayResult frame =>
    simp only [StoreAct.apply, replayTransactionResult, appendTransactionResult]
    split
    · split
      · exact .inl rfl
      · split
        · exact .inl rfl
        · split
          · exact .inl rfl
          · exact .inr (.inl ⟨frame.operations, rfl, appendValidTransaction_atoms _ _⟩)
    · exact .inl rfl
  | replayFused frame =>
    refine .inr (.inl ⟨frame.operations, rfl, ?_⟩)
    simp only [StoreAct.apply, appendReplayedTransaction]
    split
    · rfl
    · split
      · rfl
      · split
        · rfl
        · exact (appendRows_rows Γ _ _ _).2.2.1
  | intern term => exact .inr (.inr ⟨term, rfl, rfl⟩)
  | openFold =>
    simp only [StoreAct.apply]
    exact .inl (by rw [openFold_frame])
  | closeFold =>
    simp only [StoreAct.apply]
    exact .inl (by rw [closeFold_frame])

/-- An act keeps the atoms of the store. -/
theorem StoreAct.apply_atoms (hi : Interned Γ s) (act : StoreAct) : s.atoms <+: (act.apply Γ s).1.atoms := by
  rcases act.apply_atoms_cases (Γ := Γ) (s := s) with h | ⟨operations, -, h⟩ | ⟨term, -, h⟩
  · rw [h]
  · rw [h]
    exact (operationHandles_spec hi operations).2.1.atoms
  · rw [h]
    exact (internHandle_spec hi term).2.1.atoms

/-- A run keeps the atoms that the store had on it. -/
theorem runActs_atoms {spaceId : String} {a t b : Nat} (h : newTermStoreSized spaceId a t b = .ok s) (before after : List StoreAct) :
    (runActs Γ s before).1.atoms <+: (runActs Γ s (before ++ after)).1.atoms := by
  induction after using List.reverseRecOn with
  | nil => rw [List.append_nil]
  | append_singleton after act ih =>
    rw [← List.append_assoc, runActs_concat]
    exact ih.trans (act.apply_atoms (represents_runActs h _).1.interned)

end Run

end Fram
