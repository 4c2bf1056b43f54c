import Fram.Lemmas.Folding
import Fram.Reference

/-!
# A store represents a history

`Represents Γ s frames` says that the store holds exactly the history of the frames: its rows stand for the operations one by one,
and the state it keeps is the reading of the rows. A store represents the empty history when it is new, and each transaction it
accepts extends the history by one frame (`Represents.appendRows`, `Represents.appendValidTransaction`).
-/

namespace Fram

variable {log : List LoggedOperation} {operations : List CommitOperation} {handles : List Int}

/-- The transaction rows of frames, the first of which owns the operations from a position on. -/
def transactionRows : Nat → List TransactionFrame → List TransactionRow
  | _, [] => []
  | first, frame :: frames =>
    ⟨frame.sequence, first, frame.operations.length⟩ :: transactionRows (first + frame.operations.length) frames

/-- The operation row stands for the logged operation. -/
structure RowFor (s : TermStore) (row : OperationRow) (e : LoggedOperation) : Prop where
  sequence : row.txSequence = e.sequence
  ordinal : row.ordinal = e.ordinal
  action : row.action = e.action
  proposition : ∃ p : Triple, Resolves s row.tripleHandle p.term ∧ p.same e.proposition

/-- A handle that comes again is the handle of a term without NaN. -/
def Fresh (handles : List Int) (propositions : List Triple) : Prop :=
  ∀ (i j : Nat) h p, i < j → handles[i]? = some h → handles[j]? = some h → propositions[j]? = some p → p.hasNaN = false

/-- The sequences of the frames advance from `1` on, and the frames are not empty. -/
structure Advances (frames : List TransactionFrame) (next : Int) : Prop where
  sorted : (frames.map (·.sequence)).Pairwise (· < ·)
  lower : ∀ f ∈ frames, 1 ≤ f.sequence
  upper : ∀ f ∈ frames, f.sequence < next
  last : next = (frames.getLast?.map (·.sequence)).getD 0 + 1
  nonempty : ∀ f ∈ frames, f.operations ≠ []

/-- The rows of the store stand for the operations of the log, and the state it keeps is the reading of the rows. -/
structure Holds (Γ : Host) (s : TermStore) (log : List LoggedOperation) : Prop where
  interned : Interned Γ s
  folded : Folded Γ s
  rows : List.Forall₂ (RowFor s) s.operations log
  fresh : Fresh (s.operations.map (·.tripleHandle)) (log.map (·.proposition))

/-- The store holds exactly the history of the frames. -/
structure Represents (Γ : Host) (s : TermStore) (frames : List TransactionFrame) : Prop extends Holds Γ s (logOf frames) where
  space : 0 < s.spaceId.length
  advances : Advances frames s.nextSequence
  transactions : s.transactions = transactionRows 0 frames

/-! ## New stores -/

theorem advances_nil : Advances [] 1 := ⟨by simp, by simp, by simp, by simp, by simp⟩

/-- A new store represents the empty history. -/
theorem represents_newTermStoreSized (Γ : Host) {spaceId : String} {a t b : Nat} {s : TermStore}
    (h : newTermStoreSized spaceId a t b = .ok s) : Represents Γ s [] ∧ s.spaceId = spaceId ∧ s.foldOpen = false := by
  have hi := interned_newTermStoreSized Γ h
  unfold newTermStoreSized at h
  split at h
  · rename_i hs
    cases h
    refine ⟨⟨⟨hi, ⟨⟨?_, by simp, by simp⟩, rfl, ?_⟩, .nil, ?_⟩, by simpa [validSpaceId] using hs, advances_nil, rfl⟩, rfl,
      rfl⟩
    · simpa using indexes_freshSlots (termSlotsWidthFor_pos b)
    · intro h
      unfold activePositions
      split
      · rename_i hf
        obtain ⟨b, hb, -⟩ := findPosition_some hf
        simp at hb
      · rfl
    · intro i j h p hij h1
      simp at h1
  · cases h

section Steps

variable {Γ : Host} {s s' : TermStore} {frames : List TransactionFrame}

theorem RowFor.mono {row : OperationRow} {e : LoggedOperation} (h : RowFor s row e) (ha : s.atoms <+: s'.atoms)
    (ht : s.triples <+: s'.triples) : RowFor s' row e := by
  obtain ⟨p, hp, hs⟩ := h.proposition
  exact ⟨h.sequence, h.ordinal, h.action, p, hp.mono ha ht, hs⟩

/-- A store that differs from one that represents a history in its term tables only represents it too. -/
theorem Represents.grow (h : Represents Γ s frames) (hi : Interned Γ s') (hg : Grows s s') : Represents Γ s' frames := by
  have hf := hg.frame
  refine ⟨⟨hi, ?_, ?_, by rw [hf]; exact h.fresh⟩, by rw [hf]; exact h.space, by rw [hf]; exact h.advances,
    by rw [hf]; exact h.transactions⟩
  · exact h.folded.congr (by rw [hf]) (by rw [hf]) (by rw [hf]) (by rw [hf]) (by rw [hf]) (by rw [hf])
  · rw [show s'.operations = s.operations by rw [hf]]
    exact h.rows.imp fun row e hr => hr.mono hg.atoms hg.triples

theorem Represents.intern (h : Represents Γ s frames) (t : Term) : Represents Γ (internHandle Γ s t).1 frames := by
  obtain ⟨hi, hg, -⟩ := internHandle_spec h.interned t
  exact h.grow hi hg

/-- A store that differs from one that represents a history in how it keeps live positions only represents it too. -/
theorem Represents.refold (h : Represents Γ s frames) (hf : Folded Γ s') (he : s' = { s with
      activeBuckets := s'.activeBuckets, activeCells := s'.activeCells, foldOpen := s'.foldOpen }) :
    Represents Γ s' frames := by
  have ha : s'.atoms = s.atoms := by rw [he]
  have ht : s'.triples = s.triples := by rw [he]
  refine ⟨⟨h.interned.congr ha ht (by rw [he]) (by rw [he]), hf, ?_, by rw [he]; exact h.fresh⟩, by rw [he]; exact h.space,
    by rw [he]; exact h.advances, by rw [he]; exact h.transactions⟩
  rw [show s'.operations = s.operations by rw [he]]
  exact h.rows.imp fun row e hr => hr.mono (by rw [ha]) (by rw [ht])

theorem Represents.openFold (h : Represents Γ s frames) : Represents Γ (openFold s) frames :=
  h.refold h.folded.openFold (openFold_frame s)

theorem Represents.closeFold (h : Represents Γ s frames) : Represents Γ (closeFold s) frames :=
  h.refold h.folded.closeFold (closeFold_frame s)

/-! ## Handles of a batch -/

theorem operationHandles_concat (Γ : Host) (s : TermStore) (operations : List CommitOperation) (o : CommitOperation) :
    operationHandles Γ s (operations ++ [o]) =
      ((internHandle Γ (operationHandles Γ s operations).1 o.proposition.term).1,
        (operationHandles Γ s operations).2 ++ [(internHandle Γ (operationHandles Γ s operations).1 o.proposition.term).2]) := by
  unfold operationHandles
  rw [List.foldl_append]
  rfl

theorem operationHandles_cons (Γ : Host) (s : TermStore) (o : CommitOperation) (operations : List CommitOperation) :
    operationHandles Γ s (o :: operations) =
      ((operationHandles Γ (internHandle Γ s o.proposition.term).1 operations).1,
        (internHandle Γ s o.proposition.term).2 ::
          (operationHandles Γ (internHandle Γ s o.proposition.term).1 operations).2) := by
  induction operations using List.reverseRecOn with
  | nil => rfl
  | append_singleton operations o' ih =>
    rw [← List.cons_append, operationHandles_concat, operationHandles_concat, ih]
    rfl

/-- Interning the propositions of operations adds rows only, and gives a handle for each. -/
theorem operationHandles_grows (Γ : Host) (s : TermStore) (operations : List CommitOperation) :
    Grows s (operationHandles Γ s operations).1 ∧ (operationHandles Γ s operations).2.length = operations.length := by
  induction operations generalizing s with
  | nil => exact ⟨Grows.refl s, rfl⟩
  | cons o operations ih =>
    obtain ⟨hg, hl⟩ := ih (internHandle Γ s o.proposition.term).1
    rw [operationHandles_cons]
    exact ⟨(internHandle_grows Γ s o.proposition.term).1.trans hg, by simp [hl]⟩

/-- The handles stand for the propositions of the operations. -/
def HandlesFor (s : TermStore) (handles : List Int) (operations : List CommitOperation) : Prop :=
  List.Forall₂ (fun h (o : CommitOperation) => ∃ p : Triple, Resolves s h p.term ∧ p.same o.proposition) handles operations

/-- The term a handle stands for is a triple when it is the same as a triple. -/
theorem exists_triple_of_same {t : Term} {p : Triple} (h : t.same p.term) : ∃ q : Triple, t = q.term ∧ q.same p := by
  cases t with
  | atom a => simp [Term.same, Triple.term, Term.canon] at h
  | triple t1 t2 t3 => exact ⟨⟨t1, t2, t3⟩, rfl, h⟩

/-- Interning a batch: the handles stand for the propositions, and the handle of a proposition with a NaN is new. -/
theorem operationHandles_spec (hi : Interned Γ s) (operations : List CommitOperation) :
    Interned Γ (operationHandles Γ s operations).1 ∧ Grows s (operationHandles Γ s operations).1 ∧
      HandlesFor (operationHandles Γ s operations).1 (operationHandles Γ s operations).2 operations ∧
      Fresh (operationHandles Γ s operations).2 (operations.map (·.proposition)) ∧
      ∀ (j : Nat) h o, (operationHandles Γ s operations).2[j]? = some h → operations[j]? = some o →
        o.proposition.hasNaN = true → ¬ValidPrior s.atoms.length s.triples.length h := by
  induction operations using List.reverseRecOn with
  | nil => exact ⟨hi, Grows.refl s, .nil, by intro i j h p hij h1; simp [operationHandles] at h1, by simp⟩
  | append_singleton operations o ih =>
    obtain ⟨i1, g1, f1, n1, v1⟩ := ih
    rw [operationHandles_concat]
    generalize operationHandles Γ s operations = x at *
    obtain ⟨s1, handles⟩ := x
    dsimp only at *
    obtain ⟨i2, g2, t, hr, hs, hn⟩ := internHandle_spec i1 o.proposition.term
    obtain ⟨p, rfl, hp⟩ := exists_triple_of_same hs
    have hlen : handles.length = operations.length := f1.length_eq
    refine ⟨i2, g1.trans g2, ?_, ?_, ?_⟩
    · have f1' : HandlesFor (internHandle Γ s1 o.proposition.term).1 handles operations :=
        f1.imp fun h o ⟨p, hp, hs⟩ => ⟨p, hp.mono g2.atoms g2.triples, hs⟩
      exact List.rel_append f1' (.cons ⟨p, hr, hp⟩ .nil)
    · intro i j h q hij h1 h2 h3
      rw [List.map_append, List.map_singleton] at h3
      rcases History.getElem?_concat_iff.1 h2 with h2 | ⟨rfl, he⟩
      · have hj := (List.getElem?_eq_some_iff.1 h2).1
        rw [List.getElem?_append_left (by omega)] at h1
        rw [List.getElem?_append_left (by simpa using hlen ▸ hj)] at h3
        exact n1 i j h q hij h1 h2 h3
      · rw [List.getElem?_append_left hij] at h1
        rw [hlen] at h3
        have h3 : o.proposition = q := by simpa using h3
        subst h3
        cases hnan : o.proposition.hasNaN with
        | false => rfl
        | true =>
          -- The earlier handle was valid when this proposition was interned.
          refine absurd ?_ (hn hnan)
          rw [he]
          obtain ⟨i', hi', rfl⟩ : ∃ h : i < handles.length, handles[i] = _ := ⟨hij, (List.getElem?_eq_some_iff.1 h1).2⟩
          obtain ⟨p, hp, -⟩ := (List.forall₂_iff_get.1 f1).2 i i' (hlen ▸ i')
          exact hp.validPrior
    · intro j h o' h1 h2 hnan hv
      rcases History.getElem?_concat_iff.1 h1 with h1 | ⟨rfl, he⟩
      · have hj := (List.getElem?_eq_some_iff.1 h1).1
        rw [List.getElem?_append_left (hlen ▸ hj)] at h2
        exact v1 j h o' h1 h2 hnan hv
      · rw [hlen] at h2
        have h2 : o = o' := by simpa using h2
        subst h2
        refine hn hnan ?_
        rw [he]
        exact hv.mono g1.atoms.length_le g1.triples.length_le

/-! ## Appending rows -/

/-- A prefix of a list of handles stays free of repeated NaN. -/
theorem Fresh.left {hs hs' : List Int} {ps ps' : List Triple} (h : Fresh (hs ++ hs') (ps ++ ps'))
    (hlen : hs.length = ps.length) : Fresh hs ps := by
  intro i j x p hij h1 h2 h3
  have hj := (List.getElem?_eq_some_iff.1 h2).1
  refine h i j x p hij ?_ ?_ ?_
  · rwa [List.getElem?_append_left (by omega)]
  · rwa [List.getElem?_append_left hj]
  · rwa [List.getElem?_append_left (hlen ▸ hj)]

/-- One more row for one more operation. -/
theorem Holds.appendOperation (h : Holds Γ s log) (sequence : Int) (ordinal : Nat)
    {o : CommitOperation} {handle : Int} (hp : ∃ p : Triple, Resolves s handle p.term ∧ p.same o.proposition)
    (hf : Fresh (s.operations.map (·.tripleHandle) ++ [handle]) (log.map (·.proposition) ++ [o.proposition])) :
    Holds Γ (appendOperation Γ s sequence ordinal o.action handle) (log ++ [⟨sequence, ordinal, o.action, o.proposition⟩]) := by
  obtain ⟨-, -, ha, ht, -, ho, has, hts, -⟩ := appendOperation_frame Γ s sequence ordinal o.action handle
  have hm : ∀ {row e}, RowFor s row e → RowFor (Fram.appendOperation Γ s sequence ordinal o.action handle) row e :=
    fun hr => hr.mono (by rw [ha]) (by rw [ht])
  refine ⟨h.interned.congr ha ht has hts, h.folded.appendOperation .., ?_, ?_⟩
  · rw [ho]
    exact List.rel_append (h.rows.imp fun row e hr => hm hr) (.cons (hm ⟨rfl, rfl, rfl, hp⟩) .nil)
  · rw [ho]
    simpa using hf

/-- The fields that the rows of a transaction leave as they were. -/
theorem appendOperations_frame (Γ : Host) (sequence : Int) (s : TermStore) (ordinal : Nat) (rows : List (Action × Int)) :
    let s' := appendOperations Γ sequence s ordinal rows
    s'.spaceId = s.spaceId ∧ s'.nextSequence = s.nextSequence ∧ s'.atoms = s.atoms ∧ s'.triples = s.triples ∧
      s'.transactions = s.transactions ∧ s'.atomSlots = s.atomSlots ∧ s'.tripleSlots = s.tripleSlots ∧
      s'.foldOpen = s.foldOpen := by
  induction rows generalizing s ordinal with
  | nil => exact ⟨rfl, rfl, rfl, rfl, rfl, rfl, rfl, rfl⟩
  | cons row rows ih =>
    obtain ⟨action, handle⟩ := row
    obtain ⟨h1, h2, h3, h4, h5, h6, h7, h8⟩ := ih (appendOperation Γ s sequence ordinal action handle) (ordinal + 1)
    obtain ⟨g1, g2, g3, g4, g5, -, g6, g7, g8⟩ := appendOperation_frame Γ s sequence ordinal action handle
    exact ⟨h1.trans g1, h2.trans g2, h3.trans g3, h4.trans g4, h5.trans g5, h6.trans g6, h7.trans g7, h8.trans g8⟩

/-- The rows of a batch for the operations of the batch. -/
theorem Holds.appendOperations (h : Holds Γ s log) (sequence : Int) (ordinal : Nat) (hh : HandlesFor s handles operations)
    (hf : Fresh (s.operations.map (·.tripleHandle) ++ handles) (log.map (·.proposition) ++ operations.map (·.proposition))) :
    Holds Γ (appendOperations Γ sequence s ordinal ((operations.map (·.action)).zip handles))
      (log ++ loggedFrom sequence ordinal operations) := by
  induction operations generalizing s log handles ordinal with
  | nil => simpa [Fram.appendOperations, loggedFrom] using h
  | cons o operations ih =>
    cases hh with
    | @cons handle _ handles _ ho hh =>
      obtain ⟨-, -, ha, ht, -, hops, -, -, -⟩ := appendOperation_frame Γ s sequence ordinal o.action handle
      have hlen : (s.operations.map (·.tripleHandle)).length = (log.map (·.proposition)).length := by
        simpa using h.rows.length_eq
      rw [List.map_cons, List.append_cons, List.append_cons _ o.proposition] at hf
      have h1 := h.appendOperation sequence ordinal ho (hf.left (by simpa using hlen))
      have h2 := ih h1 (ordinal + 1)
        (hh.imp fun _ _ hp => hp.imp fun p hps => ⟨hps.1.mono (by rw [ha]) (by rw [ht]), hps.2⟩)
        (by rw [hops]; simpa using hf)
      simpa [Fram.appendOperations, loggedFrom, List.append_assoc] using h2

theorem transactionRows_concat (first : Nat) (frames : List TransactionFrame) (frame : TransactionFrame) :
    transactionRows first (frames ++ [frame]) = transactionRows first frames ++
      [⟨frame.sequence, (first + (logOf frames).length : Nat), frame.operations.length⟩] := by
  induction frames generalizing first with
  | nil => simp [transactionRows]
  | cons f frames ih =>
    have : logOf (f :: frames) = f.logged ++ logOf frames := rfl
    simp [transactionRows, ih, this, TransactionFrame.logged, Nat.add_assoc]

/-- The next sequence is positive. -/
theorem Advances.next_pos {next : Int} (h : Advances frames next) : 1 ≤ next := by
  rw [h.last]
  cases hl : frames.getLast? with
  | none => simp
  | some f =>
    have := h.lower f (List.mem_of_getLast? hl)
    simp
    omega

/-- One more frame whose sequence is not below the next one. -/
theorem Advances.concat {next : Int} (h : Advances frames next) {frame : TransactionFrame} (hs : next ≤ frame.sequence)
    (hn : frame.operations ≠ []) : Advances (frames ++ [frame]) (frame.sequence + 1) := by
  have hpos := h.next_pos
  refine ⟨?_, ?_, ?_, by simp, ?_⟩
  · rw [List.map_append, List.pairwise_append]
    refine ⟨h.sorted, by simp, ?_⟩
    intro a ha b hb
    obtain ⟨f, hf, rfl⟩ := List.mem_map.1 ha
    obtain rfl : b = frame.sequence := by simpa using hb
    have := h.upper f hf
    omega
  · intro f hf
    rcases List.mem_append.1 hf with hf | hf
    · exact h.lower f hf
    · obtain rfl := List.mem_singleton.1 hf
      omega
  · intro f hf
    rcases List.mem_append.1 hf with hf | hf
    · have := h.upper f hf
      omega
    · obtain rfl := List.mem_singleton.1 hf
      omega
  · intro f hf
    rcases List.mem_append.1 hf with hf | hf
    · exact h.nonempty f hf
    · obtain rfl := List.mem_singleton.1 hf
      exact hn

/-- One transaction over handles extends the history by its frame. -/
theorem Represents.appendRows (h : Represents Γ s frames) {sequence : Int} (hs : s.nextSequence ≤ sequence) (hn : operations ≠ [])
    (hh : HandlesFor s handles operations)
    (hf : Fresh (s.operations.map (·.tripleHandle) ++ handles) ((logOf frames).map (·.proposition) ++ operations.map (·.proposition))) :
    Represents Γ (appendRows Γ s sequence ((operations.map (·.action)).zip handles)) (frames ++ [⟨sequence, operations⟩]) := by
  have hlen : ((operations.map (·.action)).zip handles).length = operations.length := by
    simp [hh.length_eq]
  -- The store once the transaction row is there; the terms and the reading are as before.
  let s1 : TermStore := { s with
    transactions := s.transactions ++ [⟨sequence, s.operations.length, ((operations.map (·.action)).zip handles).length⟩] }
  have h1 : Holds Γ s1 (logOf frames) :=
    ⟨h.interned.congr rfl rfl rfl rfl, h.folded.congr rfl rfl rfl rfl rfl rfl,
      h.rows.imp fun row e hr => hr.mono (List.prefix_refl _) (List.prefix_refl _), h.fresh⟩
  have h2 := h1.appendOperations sequence 0
    (show HandlesFor s1 handles operations from hh.imp fun _ _ ⟨p, hp, hs⟩ => ⟨p, hp.mono (List.prefix_refl _) (List.prefix_refl _), hs⟩) hf
  obtain ⟨f1, f2, f3, f4, f5, f6, f7, f8⟩ := appendOperations_frame Γ sequence s1 0 ((operations.map (·.action)).zip handles)
  refine ⟨⟨h2.interned.congr rfl rfl rfl rfl, h2.folded.congr rfl rfl rfl rfl rfl rfl, ?_, ?_⟩, ?_, ?_, ?_⟩
  · rw [logOf_append, logOf_singleton]
    exact h2.rows.imp fun row e hr => hr.mono (List.prefix_refl _) (List.prefix_refl _)
  · rw [logOf_append, logOf_singleton]
    exact h2.fresh
  · exact f1 ▸ h.space
  · exact @Advances.concat _ _ h.advances ⟨sequence, operations⟩ hs hn
  · refine f5.trans ?_
    rw [transactionRows_concat, ← h.transactions, Nat.zero_add, ← h.rows.length_eq]
    simp only [s1, hlen]

/-- A handle of the store is valid. -/
theorem Holds.validPrior (h : Holds Γ s log) {i : Nat} {handle : Int} (hi : (s.operations.map (·.tripleHandle))[i]? = some handle) :
    ValidPrior s.atoms.length s.triples.length handle := by
  rw [List.getElem?_map, Option.map_eq_some_iff] at hi
  obtain ⟨row, hrow, rfl⟩ := hi
  obtain ⟨hlt, rfl⟩ := List.getElem?_eq_some_iff.1 hrow
  obtain ⟨p, hp, -⟩ := ((List.forall₂_iff_get.1 h.rows).2 i hlt (h.rows.length_eq ▸ hlt)).proposition
  exact hp.validPrior

/-- Handles of a batch follow the handles of the store. -/
theorem Represents.fresh_append (h : Represents Γ s frames) (hf : Fresh handles (operations.map (·.proposition)))
    (hn : ∀ (j : Nat) h o, handles[j]? = some h → operations[j]? = some o → o.proposition.hasNaN = true →
      ¬ValidPrior s.atoms.length s.triples.length h) : Fresh (s.operations.map (·.tripleHandle) ++ handles)
      ((logOf frames).map (·.proposition) ++ operations.map (·.proposition)) := by
  have hl : (s.operations.map (·.tripleHandle)).length = ((logOf frames).map (·.proposition)).length := by
    simpa using h.rows.length_eq
  intro i j x p hij h1 h2 h3
  rcases Nat.lt_or_ge j (s.operations.map (·.tripleHandle)).length with hj | hj
  · rw [List.getElem?_append_left hj] at h2
    rw [List.getElem?_append_left (hl ▸ hj)] at h3
    rw [List.getElem?_append_left (by omega)] at h1
    exact h.fresh i j x p hij h1 h2 h3
  · rw [List.getElem?_append_right hj] at h2
    rw [List.getElem?_append_right (hl ▸ hj), ← hl] at h3
    rcases Nat.lt_or_ge i (s.operations.map (·.tripleHandle)).length with hi | hi
    · rw [List.getElem?_append_left hi] at h1
      rw [List.getElem?_map, Option.map_eq_some_iff] at h3
      obtain ⟨o, ho, rfl⟩ := h3
      cases hnan : o.proposition.hasNaN with
      | false => rfl
      | true => exact absurd (h.toHolds.validPrior h1) (hn _ x o h2 ho hnan)
    · rw [List.getElem?_append_right hi] at h1
      exact hf _ _ x p (by omega) h1 h2 h3

/-- A transaction of propositions extends the history by its frame. -/
theorem Represents.appendValidTransaction (h : Represents Γ s frames) {sequence : Int} (hs : s.nextSequence ≤ sequence) (hn : operations ≠ []) :
    Represents Γ (appendValidTransaction Γ s sequence operations) (frames ++ [⟨sequence, operations⟩]) := by
  obtain ⟨hi, hg, hh, hf, hv⟩ := operationHandles_spec h.interned operations
  have h1 := h.grow hi hg
  have hfr := hg.frame
  refine h1.appendRows (by rw [hfr]; exact hs) hn hh ?_
  have := h.fresh_append hf hv
  rwa [show s.operations = (operationHandles Γ s operations).1.operations by rw [hfr]] at this

theorem operationHandles_frame (s : TermStore) (operations : List CommitOperation) :
    (operationHandles Γ s operations).1.spaceId = s.spaceId ∧
      (operationHandles Γ s operations).1.nextSequence = s.nextSequence := by
  have hf := (operationHandles_grows Γ s operations).1.frame
  exact ⟨by rw [hf], by rw [hf]⟩

theorem appendRows_spaceId (s : TermStore) (sequence : Int) (rows : List (Action × Int)) :
    (appendRows Γ s sequence rows).spaceId = s.spaceId :=
  (appendOperations_frame Γ sequence _ 0 rows).1

theorem appendValidTransaction_spaceId (s : TermStore) (sequence : Int) (operations : List CommitOperation) :
    (appendValidTransaction Γ s sequence operations).spaceId = s.spaceId :=
  (appendRows_spaceId _ sequence _).trans (operationHandles_frame s operations).1

end Steps

end Fram
