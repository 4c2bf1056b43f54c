import Fram.Frames
import Fram.Lemmas.Observe

/-!
# Checked reads of frames

The rows of a store that represents a history pass every check but one: an atom that is the NaN is not valid. So a checked read of
frames answers as the unchecked read does, unless the store holds a NaN (`Represents.framesBetweenResult`).
-/

namespace Fram

section Resolve

variable {Γ : Host} {s : TermStore} {h : Int} {t : Term}

theorem Interned.resolveValidWithin (hi : Interned Γ s) (hr : Resolves s h t) {fuel : Nat} (hf : handleRank h ≤ fuel) :
    resolveValidWithin s fuel h = .ok t := by
  induction hr generalizing fuel with
  | atom p a hp =>
    obtain ⟨fuel, rfl⟩ : ∃ n, fuel = n + 1 := ⟨fuel - 1, by simp [handleRank] at hf; omega⟩
    simp [Fram.resolveValidWithin, nth, hp, bind, Except.bind]
  | triple p row t1 t2 t3 hp h1 h2 h3 ih1 ih2 ih3 =>
    obtain ⟨fuel, rfl⟩ : ∃ n, fuel = n + 1 := ⟨fuel - 1, by simp [handleRank] at hf; omega⟩
    obtain ⟨p1, p2, p3⟩ := hi.prior p row hp
    have hle : p + 1 ≤ fuel := by simp [handleRank] at hf; omega
    simp [Fram.resolveValidWithin, nth, hp, ih1 (p1.handleRank_le.trans hle), ih2 (p2.handleRank_le.trans hle),
      ih3 (p3.handleRank_le.trans hle), bind, Except.bind]

/-- The unchecked read of a triple is the checked one. -/
theorem Interned.resolveValidTripleHandle (hi : Interned Γ s) {p : Triple} (hr : Resolves s h p.term) :
    resolveValidTripleHandle s h = .ok p := by
  have part : ∀ {h' : Int} {t' : Term}, Resolves s h' t' → resolveValidHandle s h' = .ok t' := fun hr' =>
    hi.resolveValidWithin hr' hr'.validPrior.handleRank_le
  obtain ⟨t1, t2, t3⟩ := p
  cases hr with
  | triple p row _ _ _ hp h1 h2 h3 =>
    simp [Fram.resolveValidTripleHandle, nth, hp, part h1, part h2, part h3, bind, Except.bind]

end Resolve

section Checks

variable {Γ : Host} {s : TermStore} {frames : List TransactionFrame}

/-- The row of an operation names a triple row. -/
theorem RowFor.handle {row : OperationRow} {e : LoggedOperation} (h : RowFor s row e) :
    ∃ p, row.tripleHandle = tripleHandle p ∧ p < s.triples.length := by
  obtain ⟨p, hp, -⟩ := h.proposition
  obtain ⟨t1, t2, t3⟩ := p
  generalize row.tripleHandle = handle at hp
  cases hp with
  | triple q row _ _ _ hq _ _ _ => exact ⟨q, rfl, (List.getElem?_eq_some_iff.1 hq).1⟩

/-- Every operation row stands for a logged operation. -/
theorem Holds.exists_rowFor {log : List LoggedOperation} (h : Holds Γ s log) {row : OperationRow} (hr : row ∈ s.operations) :
    ∃ e, RowFor s row e := by
  obtain ⟨i, hi, rfl⟩ := List.getElem_of_mem hr
  exact ⟨_, (List.forall₂_iff_get.1 h.rows).2 i hi (h.rows.length_eq ▸ hi)⟩

/-- No operation handle is in error. -/
theorem Holds.operationHandleError {log : List LoggedOperation} (h : Holds Γ s log) : operationHandleError s = none := by
  unfold Fram.operationHandleError
  rw [List.findSome?_eq_none_iff]
  intro row hr
  obtain ⟨e, hrow⟩ := h.exists_rowFor hr
  obtain ⟨p, hp, hlt⟩ := hrow.handle
  have hn : ¬tripleHandle p < 0 := by have := tripleHandle_nonneg p; omega
  simp [hp, hn, hlt]

theorem ValidPrior.check {m n : Nat} {h : Int} (hv : ValidPrior m n h) : validPriorHandle m n h = true := by
  rcases hv with ⟨p, rfl, hp⟩ | ⟨p, rfl, hp⟩
  · simp [validPriorHandle, atomHandle_nonneg, hp]
  · simp [validPriorHandle, tripleHandle_nonneg, hp]

/-- The triple rows of a store are valid. -/
theorem Interned.validTripleRows (hi : Interned Γ s) : validTripleRows s.atoms.length s.triples = true := by
  unfold Fram.validTripleRows
  rw [List.all_eq_true]
  intro x hx
  obtain ⟨h1, h2, h3⟩ := hi.prior x.2 x.1 (List.mem_zipIdx_iff_getElem?.1 hx)
  simp [h1.check, h2.check, h3.check]

/-- Sequences that advance from below are not in error. -/
theorem historySequenceErrorFrom_none {first : Nat} {previous : Int} (hp : 0 ≤ previous)
    (hs : (frames.map (·.sequence)).Pairwise (· < ·)) (hl : ∀ f ∈ frames, previous < f.sequence) :
    historySequenceErrorFrom previous (transactionRows first frames) = none := by
  induction frames generalizing first previous with
  | nil => rfl
  | cons f frames ih =>
    rw [List.forall_mem_cons] at hl
    rw [List.map_cons, List.pairwise_cons] at hs
    have h1 : ¬f.sequence < 0 := by omega
    have h2 : ¬f.sequence ≤ previous := by omega
    have h3 : 0 ≤ f.sequence := by omega
    rw [transactionRows, historySequenceErrorFrom, if_neg h1, if_neg h2]
    exact ih h3 hs.2 fun g hg => hs.1 _ (List.mem_map_of_mem hg)

/-- The rows of operations from an ordinal on are those of a slice. -/
theorem validOperationSlice_rows {sequence : Int} {ordinal : Nat} {operations : List CommitOperation} {rows : List OperationRow}
    (h : List.Forall₂ (RowFor s) rows (loggedFrom sequence ordinal operations)) :
    ((rows.zipIdx ordinal).all fun x => validDumpOperation s.triples.length sequence x.2 x.1) = true := by
  induction operations generalizing rows ordinal with
  | nil =>
    cases h
    rfl
  | cons o operations ih =>
    cases h with
    | cons h1 h2 =>
      obtain ⟨p, hp, hlt⟩ := h1.handle
      have ho := h1.ordinal
      rw [List.zipIdx_cons, List.all_cons, ih h2, Bool.and_true]
      simp [validDumpOperation, hp, hlt, h1.sequence, tripleHandle_nonneg, ho]

/-- The rows of frames own the operations slice by slice. -/
theorem validHistoryRowsFrom_rows {next : Int} {position : Nat} {previous : Int}
    (hr : List.Forall₂ (RowFor s) (s.operations.drop position) (logOf frames)) (hp : position ≤ s.operations.length)
    (hs : (frames.map (·.sequence)).Pairwise (· < ·)) (hl : ∀ f ∈ frames, previous < f.sequence ∧ 0 < f.sequence)
    (hn : ∀ f ∈ frames, f.operations ≠ [])
    (hlast : ∀ last, (frames.getLast?.map (·.sequence)).getD previous = last → if last < 0 then next = 1 else 0 < next ∧ next - 1 = last) :
    validHistoryRowsFrom s.operations s.triples.length next position previous (transactionRows position frames) = true := by
  induction frames generalizing position previous with
  | nil =>
    have hlen := hr.length_eq
    rw [List.length_drop, logOf_nil, List.length_nil] at hlen
    have := hlast previous rfl
    rw [transactionRows, validHistoryRowsFrom]
    split at this <;> simp_all <;> omega
  | cons f frames ih =>
    rw [List.forall_mem_cons] at hl hn
    rw [List.map_cons, List.pairwise_cons] at hs
    have hlog : logOf (f :: frames) = f.logged ++ logOf frames := rfl
    rw [hlog] at hr
    have hlen := hr.length_eq
    rw [List.length_drop, List.length_append, TransactionFrame.logged, length_loggedFrom] at hlen
    have hpos : 0 < f.operations.length := List.length_pos_of_ne_nil hn.1
    have htake := List.forall₂_take_append _ _ _ hr
    have hdrop := List.forall₂_drop_append _ _ _ hr
    rw [TransactionFrame.logged, length_loggedFrom] at htake hdrop
    rw [transactionRows, validHistoryRowsFrom, if_pos]
    · rw [List.drop_drop] at hdrop
      simp only [Int.toNat_natCast]
      refine ih hdrop (by omega) hs.2 (fun g hg => ⟨hs.1 _ (List.mem_map_of_mem hg), ?_⟩) hn.2 ?_
      · have := hs.1 _ (List.mem_map_of_mem hg)
        omega
      · intro last hl'
        refine hlast last ?_
        rw [← hl', List.getLast?_cons]
        cases frames.getLast? <;> rfl
    · have hfit : (f.operations.length : Int) ≤ s.operations.length - (position : Nat) := by omega
      refine ⟨hl.1.1, rfl, Int.natCast_pos.2 hpos, hfit, ?_⟩
      simp only [Int.toNat_natCast]
      exact validOperationSlice_rows htake

/-- The history rows of a store are valid. -/
theorem Represents.validHistoryRows (h : Represents Γ s frames) :
    validHistoryRows s.transactions s.operations s.triples.length s.nextSequence = true := by
  rw [h.transactions]
  refine validHistoryRowsFrom_rows h.rows (Nat.zero_le _) h.advances.sorted (fun f hf => ?_) h.advances.nonempty ?_
  · have := h.advances.lower f hf
    omega
  · have hlast := h.advances.last
    intro last hl
    cases hg : frames.getLast? with
    | none =>
      rw [hg] at hlast hl
      simp at hlast hl
      rw [← hl, if_pos (by decide)]
      exact hlast
    | some f =>
      rw [hg, Option.map_some, Option.getD_some] at hlast hl
      have := h.advances.lower f (List.mem_of_getLast? hg)
      rw [← hl, if_neg (by omega)]
      omega

end Checks

section Reads

variable {Γ : Host} {s : TermStore} {frames : List TransactionFrame}

/-- A walk over positions of a slice is a walk over the slice. -/
theorem mapM_slice {α β : Type} (f : α → Except Fault β) (l : List α) (n : Nat) {a : Nat} (h : a + n ≤ l.length) :
    ((List.range n).mapM fun i => nth l (a + i) >>= f) = ((l.drop a).take n).mapM f := by
  induction n generalizing a with
  | zero => rfl
  | succ n ih =>
    have ha : a < l.length := by omega
    have hnth : nth l a = .ok l[a] := by simp [nth, List.getElem?_eq_getElem ha]
    have hrest : ((List.range n).mapM fun i => nth l (a + Nat.succ i) >>= f) =
        (List.range n).mapM fun i => nth l (a + 1 + i) >>= f :=
      ExceptList.mapM_congr fun i _ => by rw [show a + Nat.succ i = a + 1 + i by omega]
    rw [List.range_succ_eq_map, List.mapM_cons, List.mapM_map, List.drop_eq_getElem_cons ha, List.take_succ_cons, List.mapM_cons,
      ← ih (by omega : a + 1 + n ≤ l.length), Nat.add_zero, hnth, ← hrest]
    rfl

/-- The operations that a transaction row owns are among those of the store. -/
theorem transactionRows_bound {first : Nat} {row : TransactionRow} (hr : row ∈ transactionRows first frames) :
    row.firstOperation.toNat + row.operationCount.toNat ≤ first + (logOf frames).length := by
  induction frames generalizing first with
  | nil => cases hr
  | cons f frames ih =>
    have hlen : (logOf (f :: frames)).length = f.operations.length + (logOf frames).length := by
      simp [logOf, TransactionFrame.logged]
    rcases List.mem_cons.1 hr with rfl | hr
    · simp only [Int.toNat_natCast]
      omega
    · have := ih hr
      omega

/-- The checked read of a frame is the unchecked one. -/
theorem Represents.validTransactionFrameAt (h : Represents Γ s frames) {position : Nat} {row : TransactionRow}
    (hr : nth s.transactions position = .ok row) : validTransactionFrameAt s position = Fram.frameOfRow s row := by
  have hmem : row ∈ s.transactions := by
    unfold nth at hr
    split at hr
    · rename_i hx
      cases hr
      exact List.mem_of_getElem? hx
    · cases hr
  have hbound := transactionRows_bound (h.transactions ▸ hmem)
  rw [Nat.zero_add, ← h.rows.length_eq] at hbound
  have hoperation : ∀ operation ∈ (s.operations.drop row.firstOperation.toNat).take row.operationCount.toNat,
      validCommitOperation s operation = (do
        let proposition ← resolveTripleHandle s operation.tripleHandle
        .ok (⟨operation.action, proposition⟩ : CommitOperation)) := by
    intro operation hop
    obtain ⟨e, hrow⟩ := h.exists_rowFor (List.mem_of_mem_drop (List.mem_of_mem_take hop))
    obtain ⟨p, hp, -⟩ := hrow.proposition
    rw [validCommitOperation, h.interned.resolveValidTripleHandle hp, h.interned.resolveTripleHandle hp]
  unfold Fram.validTransactionFrameAt Fram.frameOfRow
  dsimp only
  rw [hr, ← ExceptList.mapM_congr hoperation, ← mapM_slice (validCommitOperation s) s.operations _ hbound]
  rfl

/-- The checked read of a range of frames is the unchecked one. -/
theorem Represents.validTransactionFramesBetween (h : Represents Γ s frames) (lower upper : Int) :
    validTransactionFramesBetween s lower upper = transactionFramesBetween s lower upper := by
  have hfirst : firstTransactionAfter s.transactions lower ≤ s.transactions.length := BinarySearch.prefixEnd_le _ _
  have hstop : firstTransactionAfter s.transactions upper ≤ s.transactions.length := BinarySearch.prefixEnd_le _ _
  unfold Fram.validTransactionFramesBetween transactionFramesBetween
  dsimp only
  rw [← mapM_slice (Fram.frameOfRow s) s.transactions _ (by omega)]
  refine ExceptList.mapM_congr fun offset _ => ?_
  cases hr : nth s.transactions (firstTransactionAfter s.transactions lower + offset) with
  | ok row => exact h.validTransactionFrameAt hr
  | error fault =>
    rw [Fram.validTransactionFrameAt, hr]
    rfl

/-- What a checked read of frames answers: the frames, unless an atom of the store is the NaN. -/
theorem Represents.framesBetweenResult (h : Represents Γ s frames) {lower upper : Int} (hle : lower ≤ upper) :
    transactionFramesBetweenResult s lower upper =
      if validAtomRows s.atoms = false then
        .ok (transactionFramesError "invalid-term" "fram: triple contains a value outside Term")
      else (do .ok (transactionFramesOk (← transactionFramesBetween s lower upper))) := by
  have hspace : validSpaceId s.spaceId = true := by simpa [validSpaceId] using h.space
  have hnext : ¬s.nextSequence < 1 := by
    have := h.advances.next_pos
    omega
  have hsequence : historySequenceError s.transactions = none := by
    rw [h.transactions]
    exact historySequenceErrorFrom_none (by decide) h.advances.sorted fun f hf => by
      have := h.advances.lower f hf
      omega
  unfold transactionFramesBetweenResult
  rw [if_neg (by omega), if_neg (by simp [hspace]), if_neg hnext, h.operationHandleError, h.interned.validTripleRows, hsequence,
    h.validHistoryRows, h.validTransactionFramesBetween]
  rfl

end Reads

end Fram
