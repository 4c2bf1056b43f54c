import Fram.Lemmas.Represents
import Fram.Lib.BinarySearch
import Fram.Lib.ExceptList
import Mathlib.Data.List.Sort

/-!
# What a store that represents a history shows

Every reading function of a store that represents a history returns what the reference returns for the log of the history, up to
the sign of float zeros.
-/

namespace Fram

variable {log : List LoggedOperation} {i : Nat} {e : LoggedOperation}

/-! ## Binary searches -/

/-- On ascending positions, the search finds a position exactly when it is there. -/
theorem getElem?_lowerBoundPosition {positions : List Nat} (h : positions.Pairwise (· < ·)) (x : Nat) :
    positions[lowerBoundPosition positions x]? = some x ↔ x ∈ positions := by
  constructor
  · exact List.mem_of_getElem?
  · intro hx
    obtain ⟨k, hk, rfl⟩ := List.getElem_of_mem hx
    have hlt := List.pairwise_iff_getElem.1 h
    have : lowerBoundPosition positions positions[k] = k := by
      refine BinarySearch.prefixEnd_eq hk.le ?_ ?_
      · intro i hi
        simp [List.getElem?_eq_getElem (hi.trans hk), hlt i k (hi.trans hk) hk hi]
      · intro i hi hi'
        rcases hi.eq_or_lt with rfl | hi
        · simp [List.getElem?_eq_getElem hi']
        · simp [List.getElem?_eq_getElem hi', (hlt k i hk hi' hi).le]
    rw [this, List.getElem?_eq_getElem hk]

theorem length_transactionRows (first : Nat) (frames : List TransactionFrame) : (transactionRows first frames).length = frames.length := by
  induction frames generalizing first with
  | nil => rfl
  | cons f frames ih => simp [transactionRows, ih]

theorem transactionRows_append (first : Nat) (frames frames' : List TransactionFrame) : transactionRows first (frames ++ frames') =
      transactionRows first frames ++ transactionRows (first + (logOf frames).length) frames' := by
  induction frames generalizing first with
  | nil => simp [transactionRows]
  | cons f frames ih =>
    have : logOf (f :: frames) = f.logged ++ logOf frames := rfl
    simp [transactionRows, ih, this, TransactionFrame.logged, Nat.add_assoc]

theorem transactionRows_sequence (first : Nat) (frames : List TransactionFrame) :
    (transactionRows first frames).map (·.sequence) = frames.map (·.sequence) := by
  induction frames generalizing first with
  | nil => rfl
  | cons f frames ih => simp [transactionRows, ih]

/-- The search for the first transaction past a sequence stops after the frames up to the sequence. -/
theorem firstTransactionAfter_eq {before after : List TransactionFrame} {q : Int} (first : Nat)
    (hb : ∀ f ∈ before, f.sequence ≤ q) (ha : ∀ f ∈ after, q < f.sequence) :
    firstTransactionAfter (transactionRows first (before ++ after)) q = before.length := by
  have hat : ∀ i : Nat, ((transactionRows first (before ++ after))[i]?.any fun row => decide (row.sequence ≤ q)) =
      ((before ++ after)[i]?.any fun f => decide (f.sequence ≤ q)) := by
    intro i
    have := congrArg (·[i]?) (transactionRows_sequence first (before ++ after))
    simp only [List.getElem?_map] at this
    cases h1 : (transactionRows first (before ++ after))[i]? with
    | none =>
      cases h2 : (before ++ after)[i]? with
      | none => rfl
      | some f => simp [h1, h2] at this
    | some row =>
      cases h2 : (before ++ after)[i]? with
      | none => simp [h1, h2] at this
      | some f =>
        simp only [h1, h2, Option.map_some, Option.some.injEq] at this
        simp [this]
  unfold firstTransactionAfter
  refine BinarySearch.prefixEnd_eq (by simp [length_transactionRows]) ?_ ?_
  · intro i hi
    rw [hat, List.getElem?_append_left hi, List.getElem?_eq_getElem hi]
    simpa using hb _ (List.getElem_mem hi)
  · intro i hi hi'
    have hlt : i - before.length < after.length := by
      simp [length_transactionRows] at hi'
      omega
    rw [hat, List.getElem?_append_right hi, List.getElem?_eq_getElem hlt]
    simpa using ha _ (List.getElem_mem hlt)

/-! ## Rows and operations one by one -/

section Observe

variable {Γ : Host} {s : TermStore} {frames : List TransactionFrame}

/-- The row and the logged operation at a position. -/
theorem Holds.row (h : Holds Γ s log) (he : log[i]? = some e) : ∃ row, s.operations[i]? = some row ∧ RowFor s row e := by
  obtain ⟨hi, rfl⟩ := List.getElem?_eq_some_iff.1 he
  have hi' : i < s.operations.length := h.rows.length_eq ▸ hi
  exact ⟨_, List.getElem?_eq_getElem hi', (List.forall₂_iff_get.1 h.rows).2 i hi' hi⟩

theorem sequence_of_mem_loggedFrom {q : Int} {ordinal : Nat} {operations : List CommitOperation}
    (he : e ∈ loggedFrom q ordinal operations) : e.sequence = q := by
  induction operations generalizing ordinal with
  | nil => simp [loggedFrom] at he
  | cons o operations ih =>
    rcases List.mem_cons.1 he with rfl | he
    · rfl
    · exact ih he

/-- The sequence of a logged operation is that of its frame. -/
theorem Represents.sequence_pos (h : Represents Γ s frames) (he : e ∈ logOf frames) : 0 ≤ e.sequence := by
  obtain ⟨f, hf, hm⟩ := List.mem_flatMap.1 he
  rw [sequence_of_mem_loggedFrom hm]
  exact (h.advances.lower f hf).trans' (by decide)

/-- The occurrence at a position. -/
theorem Represents.operationOccurrenceAt (h : Represents Γ s frames) (he : (logOf frames)[i]? = some e) :
    ∃ o, operationOccurrenceAt s i = .ok o ∧ o.same (e.occurrence s.spaceId) := by
  obtain ⟨row, hrow, hf⟩ := h.row he
  obtain ⟨p, hp, hs⟩ := hf.proposition
  have hq := h.sequence_pos (List.mem_of_getElem? he)
  have ho : (0 : Int) ≤ e.ordinal := by omega
  have hc : occurrenceAt s i = .ok (coordinateOf s.spaceId e.sequence e.ordinal) := by
    have := occurrenceCoordinate_ok h.space hq ho
    simp only [bind, Except.bind] at this
    simp only [occurrenceAt, nth, hrow, bind, Except.bind, hf.sequence, hf.ordinal, this]
  refine ⟨⟨coordinateOf s.spaceId e.sequence e.ordinal, row.action, p⟩, ?_, rfl, hf.action, hs⟩
  simp [Fram.operationOccurrenceAt, nth, hrow, hc, h.interned.resolveTripleHandle hp, operationOccurrence, bind, Except.bind,
    isOccurrenceCoordinate_coordinateOf h.space hq ho]

/-- All occurrences. -/
theorem Represents.occurrences (h : Represents Γ s frames) :
    ∃ os, occurrences s = .ok os ∧ List.Forall₂ OperationOccurrence.same os (Reference.occurrences s.spaceId (logOf frames)) := by
  refine ExceptList.mapM_forall₂ (List.forall₂_iff_get.2 ⟨by simp [Reference.occurrences, h.rows.length_eq], ?_⟩)
  intro i h1 h2
  have hi : i < (logOf frames).length := by simpa [Reference.occurrences] using h2
  simpa [Reference.occurrences] using h.operationOccurrenceAt (List.getElem?_eq_getElem hi)

/-! ## The reading -/

/-- Two rows have one handle exactly when the propositions are equal under the host's `=`. -/
theorem Holds.handle_eq_iff (h : Holds Γ s log) {j : Nat} (hij : i < j)
    {ri rj : OperationRow} {ei ej : LoggedOperation} (hri : s.operations[i]? = some ri) (hrj : s.operations[j]? = some rj)
    (hei : log[i]? = some ei) (hej : log[j]? = some ej) : (ri.tripleHandle == rj.tripleHandle) = ei.proposition.eqv ej.proposition := by
  obtain ⟨ri', hri', fi⟩ := h.row hei
  obtain ⟨rj', hrj', fj⟩ := h.row hej
  rw [hri] at hri'
  rw [hrj] at hrj'
  cases hri'
  cases hrj'
  obtain ⟨pi, hpi, si⟩ := fi.proposition
  obtain ⟨pj, hpj, sj⟩ := fj.proposition
  rw [Bool.eq_iff_iff, beq_iff_eq, ← Triple.eqv_congr si sj]
  constructor
  · intro he
    rw [he] at hpi
    have : pi = pj := Triple.term_injective (hpi.unique hpj)
    subst this
    have hn := h.fresh i j rj.tripleHandle ej.proposition hij (by simp [hri, he]) (by simp [hrj]) (by simp [hej])
    rw [Triple.eqv_iff]
    exact ⟨by rw [Triple.hasNaN, sj.hasNaN]; exact hn, Triple.same_refl pi⟩
  · exact h.interned.handle_eq_of_eqv hpi hpj

/-- The reading of the rows by handles is the reading of the log by propositions. -/
theorem Holds.reading_eq (h : Holds Γ s log) : (handleReading s.operations).live.map (·.1) = Reference.livePositions log ∧
      (handleReading s.operations).targets = (reading log).targets := by
  refine History.run_congr (by simpa using h.rows.length_eq) ?_ ?_
  · intro p o o' ho ho'
    rw [List.getElem?_map, Option.map_eq_some_iff] at ho ho'
    obtain ⟨r, hr, rfl⟩ := ho
    obtain ⟨e, he, rfl⟩ := ho'
    obtain ⟨r', hr', hf⟩ := h.row he
    rw [hr] at hr'
    cases hr'
    simp [OperationRow.handleOp, LoggedOperation.op, hf.action]
  · intro q p a b a' b' hqp h1 h2 h3 h4
    rw [List.getElem?_map, Option.map_eq_some_iff] at h1 h2 h3 h4
    obtain ⟨rq, hrq, eq1⟩ := h1
    obtain ⟨rp, hrp, eq2⟩ := h2
    obtain ⟨eq, heq, eq3⟩ := h3
    obtain ⟨ep, hep, eq4⟩ := h4
    have := h.handle_eq_iff hqp hrq hrp heq hep
    simp only [OperationRow.handleOp, LoggedOperation.op, History.Op.mk.injEq] at eq1 eq2 eq3 eq4
    rw [← eq1.2, ← eq2.2, ← eq3.2, ← eq4.2]
    exact this

/-- The facts of the reading of a log. -/
theorem reads_reading (log : List LoggedOperation) : History.Reads Triple.eqv (log.map (·.op)) (reading log) :=
  History.reads_run _ _

/-- The targets a store keeps are those of the log. -/
theorem Holds.targets (h : Holds Γ s log) : s.withdrawalTargets = (reading log).targets := by
  rw [h.folded.targets, h.reading_eq.2]

/-- The positions of the assertions that stand ascend. -/
theorem livePositions_sorted (log : List LoggedOperation) : (Reference.livePositions log).Pairwise (· < ·) :=
  (reads_reading log).sorted

/-- An operation is live exactly when its position stands in the reference. -/
theorem Holds.operationLive_iff (h : Holds Γ s log) {row : OperationRow}
    (hi : s.operations[i]? = some row) : operationLive Γ s i row = true ↔ i ∈ Reference.livePositions log := by
  rw [← h.reading_eq.1]
  have hreads := History.reads_run (· == ·) (s.operations.map (·.handleOp))
  have hsorted : (activePositions Γ s row.tripleHandle).Pairwise (· < ·) := by
    rw [h.folded.active]
    exact hreads.sorted.sublist (List.filter_sublist.map _)
  simp only [operationLive, Bool.and_eq_true, decide_eq_true_eq]
  rw [getElem?_lowerBoundPosition hsorted, h.folded.active]
  constructor
  · rintro ⟨-, hm⟩
    obtain ⟨x, hx, rfl⟩ := List.mem_map.1 hm
    exact List.mem_map_of_mem (List.mem_filter.1 hx).1
  · intro hm
    obtain ⟨⟨q, a⟩, hx, rfl⟩ := List.mem_map.1 hm
    have := ((hreads.live_iff q a).1 hx).1
    rw [List.getElem?_map, hi, Option.map_some, Option.some.injEq, OperationRow.handleOp, History.Op.mk.injEq] at this
    refine ⟨by simpa using this.1, List.mem_map.2 ⟨(q, a), List.mem_filter.2 ⟨hx, ?_⟩, rfl⟩⟩
    simp [this.2]

/-- The live positions of a store are those of the log. -/
theorem Holds.livePositions (h : Holds Γ s log) : livePositions Γ s = Reference.livePositions log := by
  refine List.Pairwise.eq_of_mem_iff (List.pairwise_lt_range.sublist List.filter_sublist) (livePositions_sorted log) ?_
  intro i
  simp only [Fram.livePositions, List.mem_filter, List.mem_range]
  constructor
  · rintro ⟨hi, hl⟩
    rw [List.getElem?_eq_getElem hi] at hl
    exact (h.operationLive_iff (List.getElem?_eq_getElem hi)).1 hl
  · intro hm
    obtain ⟨x, hx, rfl⟩ := List.mem_map.1 hm
    have hlt := (reads_reading log).lt hx
    rw [List.length_map, ← h.rows.length_eq] at hlt
    refine ⟨hlt, ?_⟩
    rw [List.getElem?_eq_getElem hlt]
    exact (h.operationLive_iff (List.getElem?_eq_getElem hlt)).2 hm

/-! ## Live occurrences and withdrawals -/

/-- A walk over positions of the log that reads each occurrence. -/
theorem Represents.mapM_occurrences (h : Represents Γ s frames) {positions : List Nat} (hp : ∀ i ∈ positions, i < (logOf frames).length) :
    ∃ os, positions.mapM (Fram.operationOccurrenceAt s) = .ok os ∧ List.Forall₂ OperationOccurrence.same os
      (positions.filterMap ((Reference.occurrences s.spaceId (logOf frames))[·]?)) := by
  refine ExceptList.mapM_forall₂ ?_
  induction positions with
  | nil => exact .nil
  | cons i positions ih =>
    rw [List.forall_mem_cons] at hp
    have hi : (Reference.occurrences s.spaceId (logOf frames))[i]? = some ((logOf frames)[i].occurrence s.spaceId) := by
      simp [Reference.occurrences, hp.1]
    rw [List.filterMap_cons_some hi]
    exact .cons (h.operationOccurrenceAt (List.getElem?_eq_getElem hp.1)) (ih hp.2)

theorem lt_of_mem_livePositions (hi : i ∈ Reference.livePositions log) : i < log.length := by
  obtain ⟨x, hx, rfl⟩ := List.mem_map.1 hi
  simpa using (reads_reading log).lt hx

theorem Represents.liveOccurrences (h : Represents Γ s frames) : ∃ os, liveOccurrences Γ s = .ok os ∧
      List.Forall₂ OperationOccurrence.same os (Reference.liveOccurrences s.spaceId (logOf frames)) := by
  unfold Fram.liveOccurrences Reference.liveOccurrences
  rw [h.livePositions]
  exact h.mapM_occurrences fun i hi => lt_of_mem_livePositions hi

/-- The live propositions of a store are those of its log. -/
theorem Represents.livePropositions (h : Represents Γ s frames) :
    ∃ ps, livePropositions Γ s = .ok ps ∧ List.Forall₂ Triple.same ps (Reference.livePropositions (logOf frames)) := by
  unfold Fram.livePropositions
  rw [h.livePositions, Reference.livePositions, Reference.livePropositions]
  refine ExceptList.mapM_forall₂ ?_
  rw [List.forall₂_map_left_iff, List.forall₂_map_right_iff]
  have hreads := reads_reading (logOf frames)
  refine List.forall₂_same.2 fun x hx => ?_
  have hop := ((hreads.live_iff x.1 x.2).1 hx).1
  rw [List.getElem?_map, Option.map_eq_some_iff] at hop
  obtain ⟨e, he, heq⟩ := hop
  obtain ⟨row, hrow, hf⟩ := h.row he
  obtain ⟨p, hp, hs⟩ := hf.proposition
  refine ⟨p, ?_, ?_⟩
  · simp [nth, hrow, h.interned.resolveTripleHandle hp, bind, Except.bind]
  · have : x.2 = e.proposition := by
      rw [LoggedOperation.op, History.Op.mk.injEq] at heq
      exact heq.2.symm
    rwa [this]

/-- A target of the log stands before its retraction, and both are of one proposition. -/
theorem reading_target {p q : Nat} (h : (reading log).targets[p]? = some (some q)) :
    q < p ∧ ∃ a b, log[q]? = some a ∧ log[p]? = some b ∧ a.action = .assert ∧ b.action = .retract ∧
      a.proposition.eqv b.proposition = true := by
  obtain ⟨hlt, a, b, ha, hb, hr⟩ := (reads_reading log).target p q h
  rw [List.getElem?_map, Option.map_eq_some_iff] at ha hb
  obtain ⟨ea, hea, ha⟩ := ha
  obtain ⟨eb, heb, hb⟩ := hb
  simp only [LoggedOperation.op, History.Op.mk.injEq, decide_eq_true_eq, decide_eq_false_iff_not] at ha hb
  refine ⟨hlt, ea, eb, hea, heb, ha.1, ?_, by rw [ha.2, hb.2]; exact hr⟩
  cases hact : eb.action with
  | assert => exact absurd hact hb.1
  | retract => rfl

/-- Operations of one sequence stand in the order of their ordinals. -/
theorem pairwise_loggedFrom (sequence : Int) (ordinal : Nat) (operations : List CommitOperation) :
    (loggedFrom sequence ordinal operations).Pairwise (fun a b => a.sequence = b.sequence ∧ a.ordinal < b.ordinal) ∧
      ∀ e ∈ loggedFrom sequence ordinal operations, ordinal ≤ e.ordinal := by
  induction operations generalizing ordinal with
  | nil => exact ⟨.nil, by simp [loggedFrom]⟩
  | cons o operations ih =>
    obtain ⟨h1, h2⟩ := ih (ordinal + 1)
    refine ⟨List.pairwise_cons.2 ⟨fun e he => ⟨(sequence_of_mem_loggedFrom he).symm, h2 e he⟩, h1⟩, ?_⟩
    intro e he
    rcases List.mem_cons.1 he with rfl | he
    · exact Nat.le_refl _
    · exact (Nat.le_succ _).trans (h2 e he)

/-- The operations of advancing frames stand in the order of their sequences and ordinals. -/
theorem Advances.pairwise {next : Int} (h : Advances frames next) : (logOf frames).Pairwise fun a b =>
    a.sequence < b.sequence ∨ (a.sequence = b.sequence ∧ (a.ordinal : Int) < b.ordinal) := by
  unfold logOf
  rw [List.pairwise_flatMap]
  refine ⟨fun f _ => (pairwise_loggedFrom _ 0 _).1.imp fun hab => Or.inr ⟨hab.1, by exact_mod_cast hab.2⟩, ?_⟩
  have := h.sorted
  rw [List.pairwise_map] at this
  refine this.imp fun hlt a ha b hb => Or.inl ?_
  rw [sequence_of_mem_loggedFrom ha, sequence_of_mem_loggedFrom hb]
  exact hlt

/-- The order of two operations of a log of frames is the order of their positions. -/
theorem Represents.before (h : Represents Γ s frames) {p q : Nat} (hqp : q < p) {a b : LoggedOperation}
    (ha : (logOf frames)[q]? = some a) (hb : (logOf frames)[p]? = some b) :
    a.sequence < b.sequence ∨ (a.sequence = b.sequence ∧ (a.ordinal : Int) < b.ordinal) := by
  obtain ⟨hq, rfl⟩ := List.getElem?_eq_some_iff.1 ha
  obtain ⟨hp, rfl⟩ := List.getElem?_eq_some_iff.1 hb
  exact List.pairwise_iff_getElem.1 h.advances.pairwise q p hq hp hqp

/-- A later retraction and an assertion of one proposition make a withdrawal. -/
theorem withdrawal_ok {spaceId : String} (hs : 0 < spaceId.length) {a b : LoggedOperation} (hqa : 0 ≤ a.sequence)
    (hqb : 0 ≤ b.sequence) {oa ob : OperationOccurrence} (sa : oa.same (a.occurrence spaceId))
    (sb : ob.same (b.occurrence spaceId)) (hact : a.action = .assert) (hret : b.action = .retract)
    (he : b.proposition.eqv a.proposition = true)
    (hlt : a.sequence < b.sequence ∨ (a.sequence = b.sequence ∧ (a.ordinal : Int) < b.ordinal)) : withdrawal ob oa = .ok ⟨ob, oa⟩ := by
  obtain ⟨ca, aa, pa⟩ := sa
  obtain ⟨cb, ab, pb⟩ := sb
  simp only [LoggedOperation.occurrence] at ca aa pa cb ab pb
  have hpe : ob.proposition.eqv oa.proposition = true := by rwa [Triple.eqv_congr pb pa]
  have hca := isOccurrenceCoordinate_coordinateOf hs hqa (Int.natCast_nonneg a.ordinal)
  have hcb := isOccurrenceCoordinate_coordinateOf hs hqb (Int.natCast_nonneg b.ordinal)
  have hbefore := occurrenceBefore_coordinateOf hs hqa (Int.natCast_nonneg a.ordinal) hqb (Int.natCast_nonneg b.ordinal)
  simp [withdrawal, isRetractionOccurrence, isAssertionOccurrence, ca, cb, aa, ab, hact, hret, hca, hcb, hpe, hbefore, bind, Except.bind]
  omega

/-- The withdrawal at a position. -/
theorem Represents.withdrawalAt (h : Represents Γ s frames) (hi : i < (logOf frames).length) : ∃ w, withdrawalAt s i = .ok w ∧
      Option.Rel Withdrawal.same w (Reference.withdrawalAt s.spaceId (logOf frames) i) := by
  have hlen : (reading (logOf frames)).targets.length = (logOf frames).length := by
    simpa using (reads_reading (logOf frames)).length
  obtain ⟨target, htq⟩ : ∃ target, (reading (logOf frames)).targets[i]? = some target :=
    ⟨_, List.getElem?_eq_getElem (hlen ▸ hi)⟩
  have hnth : nth s.withdrawalTargets i = .ok target := by simp [nth, h.targets, htq]
  cases target with
  | none =>
    refine ⟨none, by simp [Fram.withdrawalAt, hnth, bind, Except.bind], ?_⟩
    rw [show Reference.withdrawalAt s.spaceId (logOf frames) i = none by simp [Reference.withdrawalAt, htq]]
    exact .none
  | some q =>
    obtain ⟨hqi, a, b, ha, hb, hact, hret, heqv⟩ := reading_target htq
    obtain ⟨oa, hoa, sa⟩ := h.operationOccurrenceAt ha
    obtain ⟨ob, hob, sb⟩ := h.operationOccurrenceAt hb
    have hqa := h.sequence_pos (List.mem_of_getElem? ha)
    have hqb := h.sequence_pos (List.mem_of_getElem? hb)
    have hw : withdrawal ob oa = .ok ⟨ob, oa⟩ :=
      withdrawal_ok h.space hqa hqb sa sb hact hret (Triple.eqv_symm heqv) (h.before hqi ha hb)
    refine ⟨some ⟨ob, oa⟩, by simp [Fram.withdrawalAt, hnth, hoa, hob, hw, bind, Except.bind], ?_⟩
    have hr : Reference.withdrawalAt s.spaceId (logOf frames) i =
        some ⟨b.occurrence s.spaceId, a.occurrence s.spaceId⟩ := by
      simp [Reference.withdrawalAt, htq, Reference.occurrences, ha, hb]
    rw [hr]
    exact .some ⟨sb, sa⟩

/-- The withdrawals of a store are those of its log. -/
theorem Represents.withdrawals (h : Represents Γ s frames) :
    ∃ ws, withdrawals s = .ok ws ∧ List.Forall₂ Withdrawal.same ws (Reference.withdrawals s.spaceId (logOf frames)) := by
  have hlen : s.operations.length = (logOf frames).length := h.rows.length_eq
  have hall : List.Forall₂ (fun i w' => ∃ w, Fram.withdrawalAt s i = .ok w ∧ Option.Rel Withdrawal.same w w')
      (List.range s.operations.length)
      ((List.range (logOf frames).length).map (Reference.withdrawalAt s.spaceId (logOf frames))) := by
    rw [hlen, List.forall₂_map_right_iff]
    exact List.forall₂_same.2 fun i hi => h.withdrawalAt (List.mem_range.1 hi)
  obtain ⟨found, hfound, hrel⟩ := ExceptList.mapM_forall₂ hall
  refine ⟨found.reduceOption, by simp [Fram.withdrawals, hfound, bind, Except.bind], ?_⟩
  have : Reference.withdrawals s.spaceId (logOf frames) =
      ((List.range (logOf frames).length).map (Reference.withdrawalAt s.spaceId (logOf frames))).reduceOption := by
    have hr (l : List (Option Withdrawal)) : l.reduceOption = l.filterMap id := rfl
    rw [Reference.withdrawals, hr, List.filterMap_map, Function.id_comp]
  rw [this]
  clear hfound this
  generalize (List.range (logOf frames).length).map (Reference.withdrawalAt s.spaceId (logOf frames)) = expected at hrel ⊢
  induction hrel with
  | nil => exact .nil
  | cons hx _ ih =>
    cases hx with
    | none => exact ih
    | some hw => exact .cons hw ih

/-! ## Frames -/

/-- The operations of rows that stand for logged operations, resolved. -/
theorem Represents.resolveRows (h : Represents Γ s frames) {rows : List OperationRow} {sequence : Int} {ordinal : Nat}
    {operations : List CommitOperation} (hr : List.Forall₂ (RowFor s) rows (loggedFrom sequence ordinal operations)) :
    ∃ os, (rows.mapM fun row => do
      let proposition ← resolveTripleHandle s row.tripleHandle
      .ok (⟨row.action, proposition⟩ : CommitOperation)) = .ok os ∧ List.Forall₂ CommitOperation.same os operations := by
  refine ExceptList.mapM_forall₂ ?_
  induction operations generalizing rows ordinal with
  | nil =>
    cases hr
    exact .nil
  | cons o operations ih =>
    cases hr with
    | cons h1 h2 =>
      obtain ⟨p, hp, hs⟩ := h1.proposition
      exact .cons ⟨⟨_, p⟩, by rw [h.interned.resolveTripleHandle hp]; rfl, h1.action, hs⟩ (ih h2)

/-- The frame of the transaction row after the rows of earlier frames. -/
theorem Represents.frameOfRow {pre post : List TransactionFrame} {f : TransactionFrame} (h : Represents Γ s (pre ++ f :: post)) :
    ∃ f', frameOfRow s ⟨f.sequence, ((logOf pre).length : Nat), f.operations.length⟩ = .ok f' ∧ f'.same f := by
  have hrows := h.rows
  have hlog : logOf (pre ++ f :: post) = logOf pre ++ (f.logged ++ logOf post) := by simp [logOf]
  rw [hlog] at hrows
  have h1 := List.forall₂_drop_append _ _ _ hrows
  have h2 := List.forall₂_take_append (s.operations.drop (logOf pre).length) f.logged (logOf post) h1
  obtain ⟨os, hos, hsame⟩ := h.resolveRows h2
  refine ⟨⟨f.sequence, os⟩, ?_, rfl, hsame⟩
  unfold Fram.frameOfRow
  simp only [Int.toNat_natCast]
  rw [TransactionFrame.logged, length_loggedFrom] at hos
  rw [hos]
  rfl

/-- The frames past one sequence and up to another. -/
theorem Represents.framesBetween {pre mid post : List TransactionFrame} {lower upper : Int}
    (h : Represents Γ s (pre ++ (mid ++ post))) (h1 : ∀ f ∈ pre, f.sequence ≤ lower) (h2 : ∀ f ∈ mid ++ post, lower < f.sequence)
    (h3 : ∀ f ∈ pre ++ mid, f.sequence ≤ upper) (h4 : ∀ f ∈ post, upper < f.sequence) :
    ∃ fs, transactionFramesBetween s lower upper = .ok fs ∧ List.Forall₂ TransactionFrame.same fs mid := by
  unfold transactionFramesBetween
  dsimp only
  rw [h.transactions, firstTransactionAfter_eq 0 h1 h2]
  have hstop : firstTransactionAfter (transactionRows 0 (pre ++ (mid ++ post))) upper = (pre ++ mid).length := by
    rw [← List.append_assoc]
    exact firstTransactionAfter_eq 0 h3 h4
  have hslice : ((transactionRows 0 (pre ++ (mid ++ post))).drop pre.length).take ((pre ++ mid).length - pre.length) =
      transactionRows (logOf pre).length mid := by
    rw [transactionRows_append, transactionRows_append, List.drop_left' (length_transactionRows 0 pre),
      List.take_left' (by rw [length_transactionRows]; simp)]
    simp
  rw [hstop, hslice]
  refine ExceptList.mapM_forall₂ ?_
  clear h1 h2 h3 h4 hstop hslice
  induction mid generalizing pre with
  | nil => exact .nil
  | cons f mid ih =>
    refine .cons ?_ ?_
    · exact h.frameOfRow
    · have hl : (logOf pre).length + f.operations.length = (logOf (pre ++ [f])).length := by
        simp [TransactionFrame.logged]
      rw [hl]
      exact ih (by simpa using h)

end Observe

/-! ## The whole history -/

/-- The store shows the log of a space: each observation is that of the reference, up to the sign of float zeros. -/
structure Shows (Γ : Host) (spaceId : String) (s : TermStore) (log : List LoggedOperation) : Prop where
  occurrences : ∃ os, occurrences s = .ok os ∧ List.Forall₂ OperationOccurrence.same os (Reference.occurrences spaceId log)
  withdrawals : ∃ ws, withdrawals s = .ok ws ∧ List.Forall₂ Withdrawal.same ws (Reference.withdrawals spaceId log)
  operationLive : ∀ (i : Nat) row, s.operations[i]? = some row →
    (operationLive Γ s i row = true ↔ i ∈ Reference.livePositions log)
  liveOccurrences : ∃ os, liveOccurrences Γ s = .ok os ∧
    List.Forall₂ OperationOccurrence.same os (Reference.liveOccurrences spaceId log)
  livePropositions : ∃ ps, livePropositions Γ s = .ok ps ∧ List.Forall₂ Triple.same ps (Reference.livePropositions log)

/-- The store holds exactly the history of the frames of a space: its version, its transactions read back, and all it shows. -/
structure HasHistory (Γ : Host) (s : TermStore) (spaceId : String) (frames : List TransactionFrame) : Prop where
  space : s.spaceId = spaceId
  version : currentSequence s = (frames.getLast?.map (·.sequence)).getD 0
  readBack : ∃ fs, transactionFramesBetween s 0 (currentSequence s) = .ok fs ∧ List.Forall₂ TransactionFrame.same fs frames
  shows : Shows Γ spaceId s (logOf frames)

section History

variable {Γ : Host} {s : TermStore} {frames : List TransactionFrame}

/-- A store shows the history it represents. -/
theorem Represents.shows (h : Represents Γ s frames) : Shows Γ s.spaceId s (logOf frames) :=
  ⟨h.occurrences, h.withdrawals, fun _ _ hi => h.operationLive_iff hi, h.liveOccurrences, h.livePropositions⟩

/-- The newest sequence of a store is that of the last frame. -/
theorem Represents.currentSequence (h : Represents Γ s frames) : currentSequence s = (frames.getLast?.map (·.sequence)).getD 0 := by
  have := h.advances.last
  unfold Fram.currentSequence
  omega

/-- A store has the history of one space, of one length. -/
theorem HasHistory.unique {spaceId spaceId' : String} {frames' : List TransactionFrame}
    (h : HasHistory Γ s spaceId frames) (h' : HasHistory Γ s spaceId' frames') : spaceId = spaceId' ∧ frames.length = frames'.length := by
  obtain ⟨fs, hf, hall⟩ := h.readBack
  obtain ⟨fs', hf', hall'⟩ := h'.readBack
  obtain rfl : fs = fs' := Except.ok.inj (hf.symm.trans hf')
  exact ⟨h.space.symm.trans h'.space, hall.length_eq.symm.trans hall'.length_eq⟩

/-- A store holds the history it represents. -/
theorem Represents.hasHistory (h : Represents Γ s frames) : HasHistory Γ s s.spaceId frames := by
  refine ⟨rfl, h.currentSequence, ?_, h.shows⟩
  have hall : Represents Γ s ([] ++ (frames ++ [])) := by simpa using h
  refine hall.framesBetween (by simp) (fun f hf => ?_) (fun f hf => ?_) (by simp)
  · exact (h.advances.lower f (by simpa using hf)).trans_lt' (by decide)
  · have := h.advances.upper f (by simpa using hf)
    unfold Fram.currentSequence
    omega

end History

end Fram
