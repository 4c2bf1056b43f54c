import Fram.Dump
import Fram.Lemmas.Replay

/-!
# Stores with the same rows

Two stores are twins when they have the same rows, however their slot tables are laid out and their live positions kept. What is
done to twins leaves them twins, and twins that hold a history show it alike (`Twin.alike`).
-/

namespace Fram

/-- The stores have the same rows. -/
structure Twin (s s' : TermStore) : Prop where
  spaceId : s'.spaceId = s.spaceId
  nextSequence : s'.nextSequence = s.nextSequence
  atoms : s'.atoms = s.atoms
  triples : s'.triples = s.triples
  transactions : s'.transactions = s.transactions
  operations : s'.operations = s.operations

/-- The stores answer every observation alike. -/
structure Alike (Γ : Host) (s s' : TermStore) : Prop where
  spaceId : s'.spaceId = s.spaceId
  version : currentSequence s' = currentSequence s
  frames : ∀ lower upper, transactionFramesBetween s' lower upper = transactionFramesBetween s lower upper
  occurrences : occurrences s' = occurrences s
  withdrawals : withdrawals s' = withdrawals s
  liveOccurrences : liveOccurrences Γ s' = liveOccurrences Γ s
  livePropositions : livePropositions Γ s' = livePropositions Γ s

section Twins

variable {Γ : Host} {s s' s'' : TermStore} {frames : List TransactionFrame}

theorem Twin.refl (s : TermStore) : Twin s s := ⟨rfl, rfl, rfl, rfl, rfl, rfl⟩

theorem Twin.symm (h : Twin s s') : Twin s' s :=
  ⟨h.spaceId.symm, h.nextSequence.symm, h.atoms.symm, h.triples.symm, h.transactions.symm, h.operations.symm⟩

theorem Twin.trans (h : Twin s s') (h' : Twin s' s'') : Twin s s'' :=
  ⟨h'.spaceId.trans h.spaceId, h'.nextSequence.trans h.nextSequence, h'.atoms.trans h.atoms, h'.triples.trans h.triples,
    h'.transactions.trans h.transactions, h'.operations.trans h.operations⟩

theorem twin_openFold (s : TermStore) : Twin s (openFold s) := by
  rw [openFold_frame]
  exact ⟨rfl, rfl, rfl, rfl, rfl, rfl⟩

theorem twin_closeFold (s : TermStore) : Twin s (closeFold s) := by
  rw [closeFold_frame]
  exact ⟨rfl, rfl, rfl, rfl, rfl, rfl⟩

/-! ## Interning -/

/-- Well-formed tables of the same rows find the same positions. -/
theorem findPosition_congr {α : Type*} {rows : List α} {slots slots' : TermSlots} {f : α → Int} {hash : Int} {test : α → Bool}
    (hi : Indexes (rows.map f) slots) (hi' : Indexes (rows.map f) slots') (hf : ∀ row, test row = true → f row = hash)
    (huniq : ∀ (p q : Nat) row row', rows[p]? = some row → rows[q]? = some row' → test row = true → test row' = true → p = q) :
    findPosition rows slots hash test = findPosition rows slots' hash test :=
  Option.ext fun p => by rw [findPosition_eq_some_iff hi hf huniq, findPosition_eq_some_iff hi' hf huniq]

theorem Interned.atomsUnique (hi : Interned Γ s) (a : Atom) (p q : Nat) (b c : Atom) (hp : s.atoms[p]? = some b)
    (hq : s.atoms[q]? = some c) (hb : b.eqv a = true) (hc : c.eqv a = true) : p = q := by
  rw [Atom.eqv_iff] at hb hc
  exact hi.atomsApart p q b c hp hq ((Atom.eqv_iff b c).2 ⟨hb.1, hb.2.trans hc.2.symm⟩)

/-- Twins find an atom alike. -/
theorem Twin.findAtomPosition (h : Twin s s') (hi : Interned Γ s) (hi' : Interned Γ s') (a : Atom) :
    findAtomPosition Γ s'.atoms s'.atomSlots a = findAtomPosition Γ s.atoms s.atomSlots a := by
  have hindex := hi'.atomIndex
  rw [h.atoms] at hindex ⊢
  exact findPosition_congr hindex hi.atomIndex (fun row hr => Γ.hashAtom_eqv row a hr) (hi.atomsUnique a)

/-- Twins find a row alike. -/
theorem Twin.findTriplePosition (h : Twin s s') (hi : Interned Γ s) (hi' : Interned Γ s') (row : TripleRow) :
    findTriplePosition Γ s'.triples s'.tripleSlots row = findTriplePosition Γ s.triples s.tripleSlots row := by
  have hindex := hi'.tripleIndex
  rw [h.triples] at hindex ⊢
  refine findPosition_congr hindex hi.tripleIndex (fun r hr => by rw [beq_iff_eq.1 hr]) ?_
  intro p q r r' hp hq hr hr'
  rw [beq_iff_eq] at hr hr'
  subst hr hr'
  exact hi.triplesApart p q _ hp hq

/-- Twins intern an atom alike. -/
theorem Twin.internAtom (h : Twin s s') (hi : Interned Γ s) (hi' : Interned Γ s') (a : Atom) :
    (internAtom Γ s' a).2 = (internAtom Γ s a).2 ∧ Twin (internAtom Γ s a).1 (internAtom Γ s' a).1 := by
  unfold Fram.internAtom
  rw [h.findAtomPosition hi hi']
  cases Fram.findAtomPosition Γ s.atoms s.atomSlots a with
  | some known => exact ⟨rfl, h⟩
  | none => exact ⟨by rw [h.atoms], h.spaceId, h.nextSequence, by simp [h.atoms], h.triples, h.transactions, h.operations⟩

/-- Twins intern a row alike. -/
theorem Twin.internRow (h : Twin s s') (hi : Interned Γ s) (hi' : Interned Γ s') (row : TripleRow) :
    (internRow Γ s' row).2 = (internRow Γ s row).2 ∧ Twin (internRow Γ s row).1 (internRow Γ s' row).1 := by
  unfold Fram.internRow
  rw [h.findTriplePosition hi hi']
  cases Fram.findTriplePosition Γ s.triples s.tripleSlots row with
  | some known => exact ⟨rfl, h⟩
  | none => exact ⟨by rw [h.triples], h.spaceId, h.nextSequence, h.atoms, by simp [h.triples], h.transactions, h.operations⟩

/-- Twins intern a term alike. -/
theorem Twin.internHandle (h : Twin s s') (hi : Interned Γ s) (hi' : Interned Γ s') (t : Term) :
    (internHandle Γ s' t).2 = (internHandle Γ s t).2 ∧ Twin (internHandle Γ s t).1 (internHandle Γ s' t).1 := by
  induction t generalizing s s' with
  | atom a => exact h.internAtom hi hi' a
  | triple t1 t2 t3 ih1 ih2 ih3 =>
    obtain ⟨e1, w1⟩ := ih1 h hi hi'
    have i1 := (internHandle_spec hi t1).1
    have i1' := (internHandle_spec hi' t1).1
    obtain ⟨e2, w2⟩ := ih2 w1 i1 i1'
    have i2 := (internHandle_spec i1 t2).1
    have i2' := (internHandle_spec i1' t2).1
    obtain ⟨e3, w3⟩ := ih3 w2 i2 i2'
    have i3 := (internHandle_spec i2 t3).1
    have i3' := (internHandle_spec i2' t3).1
    simp only [Fram.internHandle]
    rw [e1, e2, e3]
    exact w3.internRow i3 i3' _

/-! ## Transactions -/

/-- Twins intern the propositions of a batch alike. -/
theorem Twin.operationHandles (h : Twin s s') (hi : Interned Γ s) (hi' : Interned Γ s') (operations : List CommitOperation) :
    (operationHandles Γ s' operations).2 = (operationHandles Γ s operations).2 ∧
      Twin (operationHandles Γ s operations).1 (operationHandles Γ s' operations).1 := by
  induction operations using List.reverseRecOn with
  | nil => exact ⟨rfl, h⟩
  | append_singleton operations o ih =>
    obtain ⟨he, hw⟩ := ih
    rw [operationHandles_concat, operationHandles_concat]
    obtain ⟨he', hw'⟩ := hw.internHandle (operationHandles_spec hi operations).1 (operationHandles_spec hi' operations).1
      o.proposition.term
    exact ⟨by rw [he, he'], hw'⟩

/-- The operation rows of a transaction, from an ordinal on. -/
def operationRows (sequence : Int) : Nat → List (Action × Int) → List OperationRow
  | _, [] => []
  | ordinal, (action, handle) :: rows => ⟨sequence, ordinal, action, handle⟩ :: operationRows sequence (ordinal + 1) rows

theorem appendOperations_operations (Γ : Host) (sequence : Int) (s : TermStore) (ordinal : Nat) (rows : List (Action × Int)) :
    (appendOperations Γ sequence s ordinal rows).operations = s.operations ++ operationRows sequence ordinal rows := by
  induction rows generalizing s ordinal with
  | nil => simp [appendOperations, operationRows]
  | cons row rows ih =>
    obtain ⟨action, handle⟩ := row
    obtain ⟨-, -, -, -, -, ho, -⟩ := appendOperation_frame Γ s sequence ordinal action handle
    rw [appendOperations, ih, ho, operationRows, List.append_assoc, List.singleton_append]

/-- The rows of a store after a transaction over handles. -/
theorem appendRows_rows (Γ : Host) (s : TermStore) (sequence : Int) (rows : List (Action × Int)) :
    (appendRows Γ s sequence rows).spaceId = s.spaceId ∧ (appendRows Γ s sequence rows).nextSequence = sequence + 1 ∧
      (appendRows Γ s sequence rows).atoms = s.atoms ∧ (appendRows Γ s sequence rows).triples = s.triples ∧
      (appendRows Γ s sequence rows).transactions = s.transactions ++ [⟨sequence, s.operations.length, rows.length⟩] ∧
      (appendRows Γ s sequence rows).operations = s.operations ++ operationRows sequence 0 rows := by
  obtain ⟨h1, -, h3, h4, h5, -⟩ := appendOperations_frame Γ sequence
    { s with transactions := s.transactions ++ [⟨sequence, s.operations.length, rows.length⟩] } 0 rows
  exact ⟨h1, rfl, h3, h4, h5, appendOperations_operations Γ sequence _ 0 rows⟩

/-- Twins take a transaction over handles alike. -/
theorem Twin.appendRows (h : Twin s s') (sequence : Int) (rows : List (Action × Int)) :
    Twin (appendRows Γ s sequence rows) (appendRows Γ s' sequence rows) := by
  obtain ⟨a1, a2, a3, a4, a5, a6⟩ := appendRows_rows Γ s sequence rows
  obtain ⟨b1, b2, b3, b4, b5, b6⟩ := appendRows_rows Γ s' sequence rows
  exact ⟨by rw [a1, b1, h.spaceId], by rw [a2, b2], by rw [a3, b3, h.atoms], by rw [a4, b4, h.triples],
    by rw [a5, b5, h.transactions, h.operations], by rw [a6, b6, h.operations]⟩

/-- Twins take a transaction alike. -/
theorem Twin.appendValidTransaction (h : Twin s s') (hi : Interned Γ s) (hi' : Interned Γ s') (sequence : Int)
    (operations : List CommitOperation) :
    Twin (appendValidTransaction Γ s sequence operations) (appendValidTransaction Γ s' sequence operations) := by
  obtain ⟨he, hw⟩ := h.operationHandles hi hi' operations
  unfold Fram.appendValidTransaction
  dsimp only
  rw [he]
  exact hw.appendRows sequence _

/-- A transaction keeps the tables well formed. -/
theorem interned_appendRows (hi : Interned Γ s) (sequence : Int) (rows : List (Action × Int)) :
    Interned Γ (appendRows Γ s sequence rows) := by
  obtain ⟨-, -, h3, h4, -, h6, h7, -⟩ := appendOperations_frame Γ sequence
    { s with transactions := s.transactions ++ [⟨sequence, s.operations.length, rows.length⟩] } 0 rows
  exact hi.congr h3 h4 h6 h7

theorem interned_appendValidTransaction (hi : Interned Γ s) (sequence : Int) (operations : List CommitOperation) :
    Interned Γ (appendValidTransaction Γ s sequence operations) :=
  interned_appendRows (operationHandles_spec hi operations).1 sequence _

/-- Twins take frames alike. -/
theorem Twin.appendFrames (h : Twin s s') (hi : Interned Γ s) (hi' : Interned Γ s') (fs : List TransactionFrame) :
    Twin (appendFrames Γ s fs) (appendFrames Γ s' fs) := by
  induction fs generalizing s s' with
  | nil => exact h
  | cons f fs ih =>
    exact ih (h.appendValidTransaction hi hi' f.sequence f.operations) (interned_appendValidTransaction hi _ _)
      (interned_appendValidTransaction hi' _ _)

/-! ## Observations -/

theorem Twin.resolveWithin (h : Twin s s') (fuel : Nat) (handle : Int) : resolveWithin s' fuel handle = resolveWithin s fuel handle := by
  induction fuel generalizing handle with
  | zero => rfl
  | succ fuel ih =>
    have hv : validHandle s' handle = validHandle s handle := by simp only [validHandle, h.atoms, h.triples]
    have hf : Fram.resolveWithin s' fuel = Fram.resolveWithin s fuel := funext ih
    unfold Fram.resolveWithin
    rw [hv, hf, h.atoms, h.triples]

theorem Twin.resolveHandle (h : Twin s s') (handle : Int) : resolveHandle s' handle = resolveHandle s handle := by
  simp only [Fram.resolveHandle, h.triples, h.resolveWithin]

theorem Twin.resolveTripleHandle (h : Twin s s') (handle : Int) : resolveTripleHandle s' handle = resolveTripleHandle s handle := by
  simp only [Fram.resolveTripleHandle, h.resolveHandle]

/-- Twins know the same terms, under the same handles. -/
theorem Twin.knownTermHandle (h : Twin s s') (hi : Interned Γ s) (hi' : Interned Γ s') (t : Term) :
    knownTermHandle Γ s' t = knownTermHandle Γ s t := by
  induction t with
  | atom a => simp only [Fram.knownTermHandle, h.findAtomPosition hi hi']
  | triple t1 t2 t3 ih1 ih2 ih3 => simp only [Fram.knownTermHandle, ih1, ih2, ih3, h.findTriplePosition hi hi']

theorem Twin.operationOccurrenceAt (h : Twin s s') (position : Nat) :
    operationOccurrenceAt s' position = operationOccurrenceAt s position := by
  simp only [Fram.operationOccurrenceAt, Fram.occurrenceAt, h.operations, h.spaceId, h.resolveTripleHandle]

/-- Twins that hold a history show it alike. -/
theorem Twin.alike (h : Twin s s') (hr : Represents Γ s frames) (hr' : Represents Γ s' frames) : Alike Γ s s' := by
  have hocc : Fram.operationOccurrenceAt s' = Fram.operationOccurrenceAt s := funext h.operationOccurrenceAt
  have htargets : s'.withdrawalTargets = s.withdrawalTargets := by rw [hr.targets, hr'.targets]
  have hlive : livePositions Γ s' = livePositions Γ s := by rw [hr.livePositions, hr'.livePositions]
  refine ⟨h.spaceId, ?_, fun lower upper => ?_, ?_, ?_, ?_, ?_⟩
  · simp only [currentSequence, h.nextSequence]
  · have : frameOfRow s' = frameOfRow s := by
      funext row
      simp only [frameOfRow, h.operations, h.resolveTripleHandle]
    simp only [transactionFramesBetween, h.transactions, this]
  · simp only [occurrences, h.operations, hocc]
  · have : withdrawalAt s' = withdrawalAt s := by
      funext position
      simp only [withdrawalAt, htargets, hocc]
    simp only [withdrawals, h.operations, this]
  · simp only [liveOccurrences, hlive, hocc]
  · simp only [livePropositions, hlive, h.operations, h.resolveTripleHandle]

/-! ## Stores folded from frames -/

/-- The store has the rows of a new store of a space after the frames. -/
def Folds (Γ : Host) (spaceId : String) (frames : List TransactionFrame) (s : TermStore) : Prop :=
  ∃ a t b root, newTermStoreSized spaceId a t b = .ok root ∧ Twin (appendFrames Γ root frames) s

section Folding

variable {spaceId : String}

theorem interned_appendFrames (hi : Interned Γ s) (frames : List TransactionFrame) : Interned Γ (appendFrames Γ s frames) := by
  induction frames generalizing s with
  | nil => exact hi
  | cons f frames ih => exact ih (interned_appendValidTransaction hi _ _)

/-- New stores of a space are twins. -/
theorem twin_newTermStoreSized {a t b a' t' b' : Nat} {root root' : TermStore} (h : newTermStoreSized spaceId a t b = .ok root)
    (h' : newTermStoreSized spaceId a' t' b' = .ok root') : Twin root root' := by
  unfold newTermStoreSized at h h'
  split at h
  · rename_i hs
    rw [if_pos hs] at h'
    cases h
    cases h'
    exact ⟨rfl, rfl, rfl, rfl, rfl, rfl⟩
  · cases h

/-- Stores folded from the same frames are twins. -/
theorem Folds.twins (h : Folds Γ spaceId frames s) (h' : Folds Γ spaceId frames s') : Twin s s' := by
  obtain ⟨a, t, b, root, hr, ht⟩ := h
  obtain ⟨a', t', b', root', hr', ht'⟩ := h'
  have hroot := (twin_newTermStoreSized hr hr').appendFrames (interned_newTermStoreSized Γ hr) (interned_newTermStoreSized Γ hr')
    frames
  exact (ht.symm.trans hroot).trans ht'

theorem Folds.twin (h : Folds Γ spaceId frames s) (ht : Twin s s') : Folds Γ spaceId frames s' := by
  obtain ⟨a, t, b, root, hr, hw⟩ := h
  exact ⟨a, t, b, root, hr, hw.trans ht⟩

/-- A store that is folded from frames of a space is of the space. -/
theorem Folds.space_eq (h : Folds Γ spaceId frames s) : s.spaceId = spaceId := by
  obtain ⟨a, t, b, root, hr, ht⟩ := h
  rw [ht.spaceId]
  have hi := interned_newTermStoreSized Γ hr
  have hs := (represents_newTermStoreSized Γ hr).2.1
  clear ht hr
  induction frames generalizing root with
  | nil => exact hs
  | cons f frames ih =>
    exact ih _ (interned_appendValidTransaction hi _ _) ((appendValidTransaction_spaceId _ _ _).trans hs)

/-- A new store with an open fold, after frames, is folded from them. -/
theorem folds_appendFrames {a t b : Nat} {root : TermStore} (h : newTermStoreSized spaceId a t b = .ok root)
    (frames : List TransactionFrame) : Folds Γ spaceId frames (appendFrames Γ (openFold root) frames) :=
  ⟨a, t, b, root, h, (twin_openFold root).appendFrames (interned_newTermStoreSized Γ h)
    ((interned_newTermStoreSized Γ h).congr (by rw [openFold_frame]) (by rw [openFold_frame]) (by rw [openFold_frame])
      (by rw [openFold_frame])) frames⟩

/-- More frames after those a store is folded from. -/
theorem Folds.appendFrames (h : Folds Γ spaceId frames s) (hi : Interned Γ s) (fs : List TransactionFrame) :
    Folds Γ spaceId (frames ++ fs) (appendFrames Γ s fs) := by
  obtain ⟨a, t, b, root, hr, ht⟩ := h
  refine ⟨a, t, b, root, hr, ?_⟩
  rw [show Fram.appendFrames Γ root (frames ++ fs) = Fram.appendFrames Γ (Fram.appendFrames Γ root frames) fs by
    simp [Fram.appendFrames]]
  exact ht.appendFrames (interned_appendFrames (interned_newTermStoreSized Γ hr) frames) hi fs

end Folding

end Twins

end Fram

/-!
## Stores loaded from dumps

A store loaded from the dump of a store is a twin of it, and holds the history that it holds (`loadTermStoreResult_dump`).
-/

namespace Fram

section Refold

variable {Γ : Host} {s s' : TermStore} {frames : List TransactionFrame}

/-- A twin of a store that represents a history represents it too, when its tables and its live positions are well formed. -/
theorem Represents.twin (h : Represents Γ s frames) (ht : Twin s s') (hi : Interned Γ s') (hf : Folded Γ s') : Represents Γ s' frames := by
  refine ⟨⟨hi, hf, ?_, by rw [ht.operations]; exact h.fresh⟩, by rw [ht.spaceId]; exact h.space,
    by rw [ht.nextSequence]; exact h.advances, ht.transactions.trans h.transactions⟩
  rw [ht.operations]
  exact h.rows.imp fun row e hr => hr.mono (by rw [ht.atoms]) (by rw [ht.triples])

/-- The state of one operation changes no rows. -/
theorem applyOperationState_frame (Γ : Host) (s : TermStore) (position : Nat) (row : OperationRow) :
    applyOperationState Γ s position row = { s with
      withdrawalTargets := (applyOperationState Γ s position row).withdrawalTargets
      activeBuckets := (applyOperationState Γ s position row).activeBuckets
      activeCells := (applyOperationState Γ s position row).activeCells
      activeSlots := (applyOperationState Γ s position row).activeSlots } := by
  unfold applyOperationState
  dsimp only
  split
  · rw [setActivePositions_frame]
  · split
    · rfl
    · rw [setActivePositions_frame]

/-- The state of one operation does not read the operation rows. -/
theorem applyOperationState_operations (Γ : Host) (s : TermStore) (operations : List OperationRow) (position : Nat)
    (row : OperationRow) : applyOperationState Γ { s with operations := operations } position row =
      { applyOperationState Γ s position row with operations := operations } := by
  have hset : ∀ (s : TermStore) (h : Int) (ps : List Nat), setActivePositions Γ { s with operations := operations } h ps =
      { setActivePositions Γ s h ps with operations := operations } := by
    intro s h ps
    simp only [setActivePositions, findActiveBucketPosition]
    split
    · split <;> rfl
    · rfl
  simp only [applyOperationState]
  have hact : activePositions Γ { s with operations := operations } row.tripleHandle = activePositions Γ s row.tripleHandle := rfl
  rw [hact]
  split
  · exact hset { s with withdrawalTargets := s.withdrawalTargets ++ [none] } _ _
  · split
    · rfl
    · exact hset { s with withdrawalTargets := s.withdrawalTargets ++ [some _] } _ _

/-- The state of operation rows, folded one by one after those before them, is the reading of all of them. -/
theorem folded_refold (pre post : List OperationRow) (h : Folded Γ { s with operations := pre }) :
    Folded Γ { (post.zipIdx pre.length).foldl (fun s (row, position) => applyOperationState Γ s position row) s with
      operations := pre ++ post } ∧
    Twin s ((post.zipIdx pre.length).foldl (fun s (row, position) => applyOperationState Γ s position row) s) ∧
    ((post.zipIdx pre.length).foldl (fun s (row, position) => applyOperationState Γ s position row) s).atomSlots = s.atomSlots ∧
    ((post.zipIdx pre.length).foldl (fun s (row, position) => applyOperationState Γ s position row) s).tripleSlots =
      s.tripleSlots := by
  induction post generalizing pre s with
  | nil => exact ⟨by simpa using h, Twin.refl s, rfl, rfl⟩
  | cons row post ih =>
    have hrow : Folded Γ { applyOperationState Γ s pre.length row with operations := pre ++ [row] } := by
      rw [← applyOperationState_operations]
      exact h.applyOperationState row
    have hf := applyOperationState_frame Γ s pre.length row
    have ht : Twin s (applyOperationState Γ s pre.length row) := by
      rw [hf]
      exact ⟨rfl, rfl, rfl, rfl, rfl, rfl⟩
    obtain ⟨h1, h2, h3, h4⟩ := ih (s := applyOperationState Γ s pre.length row) (pre ++ [row]) hrow
    rw [List.length_append, List.length_singleton] at h1 h2 h3 h4
    rw [List.zipIdx_cons, List.foldl_cons]
    exact ⟨by simpa using h1, ht.trans h2, h3.trans (by rw [hf]), h4.trans (by rw [hf])⟩

theorem folded_empty (Γ : Host) (s : TermStore) {width : Nat} (hw : 0 < width) : Folded Γ { s with
    operations := [], withdrawalTargets := [], activeBuckets := [], activeCells := [], foldOpen := false
    activeSlots := freshSlots width } := by
  refine ⟨⟨by simpa using indexes_freshSlots hw, by simp, by simp⟩, rfl, fun h => ?_⟩
  unfold activePositions
  split
  · rename_i hf
    obtain ⟨b, hb, -⟩ := findPosition_some hf
    simp at hb
  · rfl

/-- A store whose state is rebuilt is a twin, and its state is the reading of its rows. -/
theorem rebuildOperationState_spec (Γ : Host) (s : TermStore) : Folded Γ (rebuildOperationState Γ s) ∧
    Twin s (rebuildOperationState Γ s) ∧ (rebuildOperationState Γ s).atomSlots = s.atomSlots ∧
    (rebuildOperationState Γ s).tripleSlots = s.tripleSlots ∧ (rebuildOperationState Γ s).foldOpen = false := by
  unfold rebuildOperationState refold
  dsimp only
  generalize hb : openFold { s with
    withdrawalTargets := [], activeBuckets := [], activeCells := [], foldOpen := false
    activeSlots := freshSlots (termSlotsWidthFor s.operations.length) } = base
  have hbase : Twin s base ∧ base.atomSlots = s.atomSlots ∧ base.tripleSlots = s.tripleSlots := by
    rw [← hb, openFold_frame]
    exact ⟨⟨rfl, rfl, rfl, rfl, rfl, rfl⟩, rfl, rfl⟩
  have hfold : Folded Γ { base with operations := [] } := by
    rw [← hb]
    exact (folded_empty Γ s (termSlotsWidthFor_pos s.operations.length)).openFold
  obtain ⟨h1, h2, h3, h4⟩ := folded_refold [] s.operations hfold
  rw [List.length_nil] at h1 h2 h3 h4
  generalize List.foldl (fun s (row, position) => applyOperationState Γ s position row) base s.operations.zipIdx = s' at *
  have h1' : Folded Γ s' := by
    have hops : s'.operations = s.operations := h2.operations.trans hbase.1.operations
    rw [List.nil_append, ← hops] at h1
    exact h1
  refine ⟨h1'.closeFold, (hbase.1.trans h2).trans (twin_closeFold s'), ?_, ?_, closeFold_foldOpen⟩
  · rw [closeFold_frame]
    exact h3.trans hbase.2.1
  · rw [closeFold_frame]
    exact h4.trans hbase.2.2

/-- A store loaded from the dump of a store that represents a history is a twin of it, and represents the history. -/
theorem loadTermStoreResult_dump (h : Represents Γ s frames) {ctx : TermStore}
    (hl : loadTermStoreResult Γ ctx (dumpTermStore s) = .ok s') : Represents Γ s' frames ∧ Twin s s' := by
  unfold loadTermStoreResult dumpTermStore at hl
  dsimp only at hl
  rw [if_neg (by simp)] at hl
  split at hl
  · cases hl
  · split at hl
    · cases hl
    · rw [Except.ok.injEq] at hl
      subst hl
      obtain ⟨hf, ht, ha, hts, -⟩ := rebuildOperationState_spec Γ {
        spaceId := s.spaceId, nextSequence := s.nextSequence, atoms := s.atoms, triples := s.triples
        transactions := s.transactions, operations := s.operations
        withdrawalTargets := [], activeBuckets := [], activeCells := [], foldOpen := false
        atomSlots := buildSlots (s.atoms.map Γ.hashAtom) (termSlotsWidthFor s.atoms.length)
        tripleSlots := buildSlots (s.triples.map (·.hash Γ)) (termSlotsWidthFor s.triples.length)
        activeSlots := freshSlots initialSlots }
      replace ht : Twin s _ := Twin.trans (by exact ⟨rfl, rfl, rfl, rfl, rfl, rfl⟩) ht
      refine ⟨h.twin ht ?_ hf, ht⟩
      refine ⟨?_, ?_, ?_, ?_, ?_⟩
      · rw [ht.atoms, ht.triples]
        exact h.interned.prior
      · rw [ht.atoms]
        exact h.interned.atomsApart
      · rw [ht.triples]
        exact h.interned.triplesApart
      · rw [ht.atoms, ha]
        exact indexes_buildSlots _ (termSlotsWidthFor_pos _)
      · rw [ht.triples, hts]
        exact indexes_buildSlots _ (termSlotsWidthFor_pos _)

end Refold

end Fram
