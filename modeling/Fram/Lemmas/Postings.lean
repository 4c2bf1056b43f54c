import Fram.Lemmas.KnownTerms
import Fram.Lemmas.Scan
import Fram.Frames

/-!
# What the postings of a store select

A window of sequences is a range of positions (`Represents.operationRangeBounds`), a coordinate names one position at most
(`Represents.exactOccurrencePosition`), and the posting list of a proposition holds the positions of its operations. The candidates
are the positions of the window that meet both constraints, in commit order (`Represents.operationCandidatePositions`).
-/

namespace Fram

variable {l : List Nat} {start stop p : Nat} {t : Term} {e : LoggedOperation}

/-! ## A range of an ascending list -/

/-- Below a bound in an ascending list stand the elements less than it. -/
theorem lt_lowerBoundPosition_iff (h : l.Pairwise (· < ·)) {i : Nat} (hi : i < l.length) (x : Nat) :
    i < lowerBoundPosition l x ↔ l[i] < x := by
  have hlt := List.pairwise_iff_getElem.1 h
  have hspec := @BinarySearch.search_spec (fun i => l[i]?.any fun y => decide (y < x)) l.length
    (fun a b hab hb hpb => by
      simp only [List.getElem?_eq_getElem hb, List.getElem?_eq_getElem (hab.trans_lt hb), Option.any_some, decide_eq_true_eq] at hpb ⊢
      rcases hab.eq_or_lt with rfl | hab
      · exact hpb
      · exact (hlt a b (hab.trans hb) hb hab).trans hpb)
    l.length 0 l.length (Nat.sub_le _ _) (Nat.zero_le _) (Nat.le_refl _)
  obtain ⟨-, -, hbelow, habove⟩ := hspec
  constructor
  · intro hlow
    simpa [List.getElem?_eq_getElem hi] using hbelow i (Nat.zero_le i) hlow
  · intro hx
    by_contra hge
    have := habove i (by simpa [lowerBoundPosition, BinarySearch.prefixEnd] using hge) hi
    simp [List.getElem?_eq_getElem hi, hx] at this

theorem lowerBoundPosition_mono (h : l.Pairwise (· < ·)) {x y : Nat} (hxy : x ≤ y) : lowerBoundPosition l x ≤ lowerBoundPosition l y := by
  by_contra hlt
  have hi : lowerBoundPosition l y < l.length := (not_le.1 hlt).trans_le (BinarySearch.prefixEnd_le _ _)
  have h1 := (lt_lowerBoundPosition_iff h hi x).1 (not_le.1 hlt)
  exact absurd ((lt_lowerBoundPosition_iff h hi y).2 (h1.trans_le hxy)) (lt_irrefl _)

/-- The part of an ascending list between the bounds of a range holds the elements in the range. -/
theorem subvec_lowerBoundPosition (h : l.Pairwise (· < ·)) (hle : start ≤ stop) :
    ∃ part, subvec l (lowerBoundPosition l start) (lowerBoundPosition l stop) = .ok part ∧ part.Pairwise (· < ·) ∧
      ∀ p, p ∈ part ↔ p ∈ l ∧ start ≤ p ∧ p < stop := by
  have hle' := lowerBoundPosition_mono h hle
  refine ⟨_, if_pos ⟨hle', BinarySearch.prefixEnd_le _ _⟩, (h.drop).take, fun p => ?_⟩
  simp only [List.mem_iff_getElem?, List.getElem?_take, List.getElem?_drop]
  constructor
  · intro ⟨i, hp⟩
    split at hp
    · rename_i hlt
      obtain ⟨hi, rfl⟩ := List.getElem?_eq_some_iff.1 hp
      refine ⟨⟨_, hp⟩, ?_, (lt_lowerBoundPosition_iff h hi stop).1 (by omega)⟩
      by_contra hlow
      have := (lt_lowerBoundPosition_iff h hi start).2 (not_le.1 hlow)
      omega
    · cases hp
  · intro ⟨⟨i, hp⟩, hstart, hstop⟩
    obtain ⟨hi, rfl⟩ := List.getElem?_eq_some_iff.1 hp
    have hfrom : lowerBoundPosition l start ≤ i := by
      by_contra hlow
      exact absurd ((lt_lowerBoundPosition_iff h hi start).1 (not_le.1 hlow)) (not_lt.2 hstart)
    have hto := (lt_lowerBoundPosition_iff h hi stop).2 hstop
    refine ⟨i - lowerBoundPosition l start, ?_⟩
    rw [if_pos (by omega), Nat.add_sub_cancel' hfrom]
    exact hp

/-- The range from a position up to another. -/
theorem mem_drop_range : p ∈ (List.range stop).drop start ↔ start ≤ p ∧ p < stop := by
  rw [List.range_eq_range', List.drop_range', List.mem_range'_1]
  omega

/-! ## Coordinates -/

/-- Only an integer equals an integer, and only a string a string. -/
theorem Term.eqv_int_iff {n : Int} : t.eqv (.atom (.int n)) = true ↔ t = .atom (.int n) := by
  rcases t with a | ⟨t1, t2, t3⟩
  · cases a <;> simp [Term.eqv, Atom.eqv]
  · simp [Term.eqv]

theorem Term.eqv_string_iff {x : String} : t.eqv (.atom (.string x)) = true ↔ t = .atom (.string x) := by
  rcases t with a | ⟨t1, t2, t3⟩
  · cases a <;> simp [Term.eqv, Atom.eqv]
  · simp [Term.eqv]

theorem Term.eqv_triple_iff {t1 t2 t3 : Term} : t.eqv (.triple t1 t2 t3) = true ↔
    ∃ u1 u2 u3, t = .triple u1 u2 u3 ∧ u1.eqv t1 = true ∧ u2.eqv t2 = true ∧ u3.eqv t3 = true := by
  cases t <;> simp [Term.eqv, and_assoc]

theorem occurrenceParts_eq_some_iff {c : Term} {x : String} {q k : Int} : occurrenceParts c = some (x, q, k) ↔
      ∃ u v, c = .triple (.triple (.atom (.string x)) u (.atom (.int q))) v (.atom (.int k)) := by
  unfold occurrenceParts
  split
  · simp [and_assoc]
  · rename_i hno
    constructor
    · intro h
      cases h
    · intro ⟨u, v, h⟩
      exact absurd h (hno _ _ _ _ _)

theorem isOccurrenceCoordinate_iff {c : Term} : isOccurrenceCoordinate c = true ↔
    ∃ x q k u v, c = .triple (.triple (.atom (.string x)) u (.atom (.int q))) v (.atom (.int k)) ∧ 0 < x.length ∧
      txSequence.eqv u = true ∧ 0 ≤ q ∧ opOrdinal.eqv v = true ∧ 0 ≤ k := by
  constructor
  · intro h
    unfold isOccurrenceCoordinate at h
    split at h
    · rename_i t1 v k
      simp only [Bool.and_eq_true, decide_eq_true_eq] at h
      obtain ⟨⟨ht, hv⟩, hk⟩ := h
      unfold isTransactionCoordinate at ht
      split at ht
      · rename_i x u q
        simp only [Bool.and_eq_true, decide_eq_true_eq] at ht
        exact ⟨x, q, k, u, v, rfl, ht.1.1, ht.1.2, ht.2, hv, hk⟩
      · cases ht
    · cases h
  · intro ⟨x, q, k, u, v, hc, hx, hu, hq, hv, hk⟩
    simp [hc, isOccurrenceCoordinate, isTransactionCoordinate, hx, hu, hq, hv, hk]

/-- A term equals the coordinate of an operation when it is a coordinate of that space, sequence and ordinal. -/
theorem eqv_coordinateOf_iff {spaceId : String} {q k : Int} (hs : 0 < spaceId.length) (hq : 0 ≤ q) (hk : 0 ≤ k) (c : Term) :
    c.eqv (coordinateOf spaceId q k).term = true ↔ isOccurrenceCoordinate c = true ∧ occurrenceParts c = some (spaceId, q, k) := by
  have hform : c.eqv (coordinateOf spaceId q k).term = true ↔ ∃ u v,
      c = .triple (.triple (.atom (.string spaceId)) u (.atom (.int q))) v (.atom (.int k)) ∧ u.eqv txSequence = true ∧
        v.eqv opOrdinal = true := by
    constructor
    · intro h
      obtain ⟨t, v, _, rfl, ht, hv, hn⟩ := Term.eqv_triple_iff.1 h
      obtain ⟨_, u, _, rfl, hx, hu, hm⟩ := Term.eqv_triple_iff.1 ht
      rw [Term.eqv_string_iff.1 hx, Term.eqv_int_iff.1 hm, Term.eqv_int_iff.1 hn]
      exact ⟨u, v, rfl, hu, hv⟩
    · rintro ⟨u, v, hc, hu, hv⟩
      rw [hc]
      simp [coordinateOf, Triple.term, Term.eqv, Atom.eqv, hu, hv, Term.str, Term.int]
  rw [hform, isOccurrenceCoordinate_iff, occurrenceParts_eq_some_iff]
  constructor
  · rintro ⟨u, v, hc, hu, hv⟩
    exact ⟨⟨_, q, k, u, v, hc, hs, Term.eqv_symm hu, hq, Term.eqv_symm hv, hk⟩, u, v, hc⟩
  · rintro ⟨⟨x, q', k', u, v, hc, _, hu, _, hv, _⟩, u', v', hc'⟩
    rw [hc] at hc'
    cases hc'
    exact ⟨u, v, hc, Term.eqv_symm hu, Term.eqv_symm hv⟩

/-! ## Windows of positions -/

section Windows

variable {Γ : Host} {s : TermStore} {frames : List TransactionFrame}

/-- The search for the transaction past a sequence finds the first frame of the rest. -/
theorem Represents.transactionAfter (h : Represents Γ s frames) (q : Int) :
    ∃ rest, frames = framesUpTo frames q ++ rest ∧ Ends q (framesUpTo frames q) rest ∧
      s.transactions[firstTransactionAfter s.transactions q]? = (transactionRows (logOf (framesUpTo frames q)).length rest)[0]? := by
  obtain ⟨rest, heq, hends⟩ := framesUpTo_ends h.advances.sorted q
  have hrows : s.transactions =
      transactionRows 0 (framesUpTo frames q) ++ transactionRows (logOf (framesUpTo frames q)).length rest := by
    conv_lhs => rw [h.transactions, heq, transactionRows_append, Nat.zero_add]
  have hfirst : firstTransactionAfter s.transactions q = (framesUpTo frames q).length := by
    conv_lhs => rw [h.transactions, heq]
    exact firstTransactionAfter_eq 0 hends.upper hends.lower
  refine ⟨rest, heq, hends, ?_⟩
  rw [hfirst, hrows, List.getElem?_append_right (by rw [length_transactionRows]), length_transactionRows, Nat.sub_self]

/-- The transaction past a sequence begins where the operations up to the sequence end. -/
theorem Represents.operationBoundary (h : Represents Γ s frames) (q : Int) :
    operationBoundary s (firstTransactionAfter s.transactions q) = (logOf (framesUpTo frames q)).length := by
  obtain ⟨rest, heq, -, hrow⟩ := h.transactionAfter q
  unfold Fram.operationBoundary
  rw [hrow]
  cases rest with
  | nil =>
    have hlen := h.rows.length_eq
    rw [heq, List.append_nil] at hlen
    simp [transactionRows, hlen]
  | cons f rest => simp [transactionRows]

/-- The operations up to a sequence are those before its boundary. -/
theorem Represents.lt_boundary_iff (h : Represents Γ s frames) (q : Int)
    (he : (logOf frames)[p]? = some e) : p < (logOf (framesUpTo frames q)).length ↔ e.sequence ≤ q := by
  obtain ⟨rest, heq, hends⟩ := framesUpTo_ends h.advances.sorted q
  have hlog : logOf frames = logOf (framesUpTo frames q) ++ logOf rest := by
    conv_lhs => rw [heq]
    simp [logOf]
  rw [hlog] at he
  constructor
  · intro hp
    rw [List.getElem?_append_left hp] at he
    obtain ⟨f, hf, hm⟩ := List.mem_flatMap.1 (List.mem_of_getElem? he)
    rw [sequence_of_mem_loggedFrom hm]
    exact hends.upper f hf
  · intro hq
    by_contra hp
    rw [List.getElem?_append_right (not_lt.1 hp)] at he
    obtain ⟨f, hf, hm⟩ := List.mem_flatMap.1 (List.mem_of_getElem? he)
    rw [sequence_of_mem_loggedFrom hm] at hq
    have := hends.lower f hf
    omega

/-- A window of sequences is a range of positions. -/
theorem Represents.operationRangeBounds (h : Represents Γ s frames) (lower upper : Int) :
    ∃ start stop, operationRangeBounds s lower upper = (start, stop) ∧ stop ≤ (logOf frames).length ∧
      (lower ≤ upper → start ≤ stop) ∧ ∀ p e, (logOf frames)[p]? = some e → (start ≤ p ∧ p < stop ↔ lower < e.sequence ∧ e.sequence ≤ upper) := by
  have hlength (q : Int) : (logOf (framesUpTo frames q)).length ≤ (logOf frames).length := by
    obtain ⟨rest, heq, -⟩ := framesUpTo_ends h.advances.sorted q
    conv_rhs => rw [heq]
    simp [logOf]
  refine ⟨_, _, by rw [Fram.operationRangeBounds, h.operationBoundary, h.operationBoundary], hlength upper, fun hle => ?_,
    fun p e he => ?_⟩
  · by_contra hlt
    obtain ⟨e, he⟩ : ∃ e, (logOf frames)[(logOf (framesUpTo frames upper)).length]? = some e :=
      ⟨_, List.getElem?_eq_getElem ((not_le.1 hlt).trans_le (hlength lower))⟩
    have hlow := (h.lt_boundary_iff lower he).1 (not_le.1 hlt)
    exact absurd ((h.lt_boundary_iff upper he).2 (hlow.trans hle)) (lt_irrefl _)
  · rw [h.lt_boundary_iff upper he, ← not_lt, h.lt_boundary_iff lower he, not_le]

/-- Two operations of one sequence and ordinal are one. -/
theorem Represents.position_unique (h : Represents Γ s frames) {p' : Nat} {e' : LoggedOperation}
    (he : (logOf frames)[p]? = some e) (he' : (logOf frames)[p']? = some e') (hq : e.sequence = e'.sequence)
    (hk : e.ordinal = e'.ordinal) : p = p' := by
  rcases lt_trichotomy p p' with hlt | rfl | hlt
  · have := h.before hlt he he'
    omega
  · rfl
  · have := h.before hlt he' he
    omega

/-- The operation at an ordinal of a frame. -/
theorem getElem?_loggedFrom (q : Int) (ordinal : Nat) (operations : List CommitOperation) (i : Nat) :
    (loggedFrom q ordinal operations)[i]? = operations[i]?.map fun o => ⟨q, ordinal + i, o.action, o.proposition⟩ := by
  induction operations generalizing ordinal i with
  | nil => rfl
  | cons o operations ih =>
    cases i with
    | zero => rfl
    | succ i =>
      simp only [loggedFrom, List.getElem?_cons_succ, ih]
      congr! 3
      omega

/-- The search for a coordinate finds the operation it names, and finds none for other terms. -/
theorem Represents.exactOccurrencePosition (h : Represents Γ s frames) (c : Term) :
    (∃ (p : Nat) (e : LoggedOperation), (logOf frames)[p]? = some e ∧ c.eqv (coordinateOf s.spaceId e.sequence e.ordinal).term = true ∧
        Fram.exactOccurrencePosition s c = (p : Int)) ∨
      (Fram.exactOccurrencePosition s c = -1 ∧ ∀ e ∈ logOf frames, c.eqv (coordinateOf s.spaceId e.sequence e.ordinal).term = false) := by
  have hnone (P : ∀ e ∈ logOf frames, ¬(c.eqv (coordinateOf s.spaceId e.sequence e.ordinal).term = true)) :
      ∀ e ∈ logOf frames, c.eqv (coordinateOf s.spaceId e.sequence e.ordinal).term = false :=
    fun e he => Bool.eq_false_iff.2 (P e he)
  by_cases hc : isOccurrenceCoordinate c = true
  · obtain ⟨x, q, k, u, v, hform, -, -, -, -, hk⟩ := isOccurrenceCoordinate_iff.1 hc
    have hparts := occurrenceParts_eq_some_iff.2 ⟨u, v, hform⟩
    have heqv (e : LoggedOperation) (he : e ∈ logOf frames) :=
      eqv_coordinateOf_iff h.space (h.sequence_pos he) (Int.natCast_nonneg e.ordinal) c
    simp only [hc, hparts, true_and, Option.some.injEq, Prod.mk.injEq] at heqv
    obtain ⟨rest, heq, hends, hrow⟩ := h.transactionAfter (q - 1)
    have hlog : logOf frames = logOf (framesUpTo frames (q - 1)) ++ logOf rest := by
      conv_lhs => rw [heq]
      simp [logOf]
    have hlate (e : LoggedOperation) (he : e ∈ logOf frames) (hq : q = e.sequence) : ∃ f ∈ rest, e ∈ f.logged := by
      rw [hlog] at he
      rcases List.mem_append.1 he with he | he
      · obtain ⟨f, hf, hm⟩ := List.mem_flatMap.1 he
        have := hends.upper f hf
        rw [sequence_of_mem_loggedFrom hm] at hq
        omega
      · exact List.mem_flatMap.1 he
    simp only [Fram.exactOccurrencePosition, hc, hparts, hrow, if_true]
    cases rest with
    | nil =>
      refine Or.inr ⟨rfl, hnone fun e he hce => ?_⟩
      obtain ⟨f, hf, -⟩ := hlate e he ((heqv e he).1 hce).2.1
      cases hf
    | cons f rest =>
      simp only [transactionRows, List.getElem?_cons_zero]
      split
      · rename_i hat
        obtain ⟨rfl, rfl, hlt⟩ := hat
        obtain ⟨i, rfl⟩ := Int.eq_ofNat_of_zero_le hk
        have hi : i < f.operations.length := by omega
        have he : (logOf frames)[(logOf (framesUpTo frames (f.sequence - 1))).length + i]? =
            some ⟨f.sequence, i, f.operations[i].action, f.operations[i].proposition⟩ := by
          have hl : logOf (f :: rest) = f.logged ++ logOf rest := rfl
          rw [hlog, List.getElem?_append_right (Nat.le_add_right _ _), Nat.add_sub_cancel_left, hl,
            List.getElem?_append_left (by rw [TransactionFrame.logged, length_loggedFrom]; exact hi), TransactionFrame.logged,
            getElem?_loggedFrom, List.getElem?_eq_getElem hi, Option.map_some, Nat.zero_add]
        exact Or.inl ⟨_, _, he, (heqv _ (List.mem_of_getElem? he)).2 ⟨rfl, rfl, rfl⟩, by push_cast; rfl⟩
      · rename_i hat
        refine Or.inr ⟨rfl, hnone fun e he hce => hat ?_⟩
        obtain ⟨hx, hqe, hke⟩ := (heqv e he).1 hce
        obtain ⟨g, hg, hm⟩ := hlate e he hqe
        have hlow := hends.lower f List.mem_cons_self
        have hgq := sequence_of_mem_loggedFrom hm
        -- A frame after the first of the rest has a greater sequence.
        have hgf : g = f := by
          rcases List.mem_cons.1 hg with hg | hg
          · exact hg
          · have hsorted := h.advances.sorted
            rw [heq, List.map_append, List.pairwise_append, List.map_cons, List.pairwise_cons] at hsorted
            have := hsorted.2.1.1 _ (List.mem_map_of_mem hg)
            omega
        subst hgf
        obtain ⟨i, hi⟩ := List.mem_iff_getElem?.1 hm
        rw [TransactionFrame.logged, getElem?_loggedFrom, Option.map_eq_some_iff] at hi
        obtain ⟨o, ho, rfl⟩ := hi
        have hlen := (List.getElem?_eq_some_iff.1 ho).1
        refine ⟨hx, hqe, ?_⟩
        rw [hke]
        push_cast
        omega
  · refine Or.inr ⟨by simp [Fram.exactOccurrencePosition, hc], hnone fun e he hce => hc ?_⟩
    exact ((eqv_coordinateOf_iff h.space (h.sequence_pos he) (Int.natCast_nonneg _) c).1 hce).1

/-! ## Propositions -/

/-- The known handle of a term is that of a row when the proposition of the row equals the term. -/
theorem Represents.knownTermHandle_row_iff (h : Represents Γ s frames) {row : OperationRow} (hf : RowFor s row e)
    (t : Term) : knownTermHandle Γ s t = some row.tripleHandle ↔ t.eqv e.proposition.term = true := by
  obtain ⟨p, hp, hs⟩ := hf.proposition
  rw [h.interned.knownTermHandle_iff, Term.eqv_congr rfl (show e.proposition.term.same p.term from hs.symm)]
  constructor
  · intro ⟨u, hu, he⟩
    rw [hp.unique hu]
    exact Term.eqv_symm he
  · intro he
    exact ⟨p.term, hp, Term.eqv_symm he⟩

theorem pairwise_operationPostings (s : TermStore) (handle : Int) : (operationPostings s handle).Pairwise (· < ·) :=
  List.pairwise_lt_range.filter _

/-- The posting list of a handle holds the positions of its rows. -/
theorem mem_operationPostings {handle : Int} :
    p ∈ operationPostings s handle ↔ ∃ row, s.operations[p]? = some row ∧ row.tripleHandle = handle := by
  simp only [operationPostings, List.mem_filter, List.mem_range, Option.any_eq_true, decide_eq_true_eq]
  constructor
  · intro ⟨_, row, hrow, hh⟩
    exact ⟨row, hrow, hh⟩
  · intro ⟨row, hrow, hh⟩
    exact ⟨(List.getElem?_eq_some_iff.1 hrow).1, row, hrow, hh⟩

/-- The posting list of the known handle of a term holds the positions of the operations whose proposition equals the term. -/
theorem Represents.mem_operationPostings_iff (h : Represents Γ s frames) {handle : Int} (hk : knownTermHandle Γ s t = some handle) :
    p ∈ operationPostings s handle ↔ ∃ e, (logOf frames)[p]? = some e ∧ t.eqv e.proposition.term = true := by
  rw [mem_operationPostings]
  constructor
  · intro ⟨row, hrow, hh⟩
    have hp := (List.getElem?_eq_some_iff.1 hrow).1
    rw [h.rows.length_eq] at hp
    obtain ⟨row', hrow', hf⟩ := h.row (List.getElem?_eq_getElem hp)
    obtain rfl := Option.some.inj (hrow.symm.trans hrow')
    exact ⟨_, List.getElem?_eq_getElem hp, (h.knownTermHandle_row_iff hf t).1 (hk.trans (congrArg some hh.symm))⟩
  · intro ⟨e, he, hte⟩
    obtain ⟨row, hrow, hf⟩ := h.row he
    have := (h.knownTermHandle_row_iff hf t).2 hte
    exact ⟨row, hrow, Option.some.inj (this.symm.trans hk)⟩

/-- Without a known handle no operation has a proposition equal to the term. -/
theorem Represents.eqv_of_unknown (h : Represents Γ s frames) (hk : knownTermHandle Γ s t = none)
    (he : e ∈ logOf frames) : t.eqv e.proposition.term = false := by
  obtain ⟨p, hp⟩ := List.mem_iff_getElem?.1 he
  obtain ⟨row, -, hf⟩ := h.row hp
  rw [Bool.eq_false_iff]
  intro hte
  rw [(h.knownTermHandle_row_iff hf t).2 hte] at hk
  cases hk

/-! ## Candidates -/

/-- The logged operation is in the window and equals the coordinate and the proposition where these are given. -/
structure LoggedOperation.Meets (e : LoggedOperation) (spaceId : String) (lower upper : Int) (coordinate proposition : Option Term) :
    Prop where
  above : lower < e.sequence
  upTo : e.sequence ≤ upper
  coordinate : ∀ c ∈ coordinate, c.eqv (coordinateOf spaceId e.sequence e.ordinal).term = true
  proposition : ∀ t ∈ proposition, t.eqv e.proposition.term = true

/-- The position of a coordinate, if it is in the window, is that of the operation of the window with that coordinate. -/
theorem Represents.mem_exact_iff (h : Represents Γ s frames) {lower upper : Int}
    (hwindow : ∀ p e, (logOf frames)[p]? = some e → (start ≤ p ∧ p < stop ↔ lower < e.sequence ∧ e.sequence ≤ upper)) (c : Term) (p : Nat) :
    p ∈ (if (start : Int) ≤ Fram.exactOccurrencePosition s c ∧ Fram.exactOccurrencePosition s c < stop then
        [(Fram.exactOccurrencePosition s c).toNat] else []) ↔
      ∃ e, (logOf frames)[p]? = some e ∧ e.Meets s.spaceId lower upper (some c) none := by
  rcases h.exactOccurrencePosition c with ⟨p', e', he', hce', hexact⟩ | ⟨hexact, hnone⟩
  · rw [hexact]
    have hin := hwindow p' e' he'
    have hunique (e : LoggedOperation) (he : (logOf frames)[p]? = some e)
        (hce : c.eqv (coordinateOf s.spaceId e.sequence e.ordinal).term = true) : p = p' := by
      have hparts := (eqv_coordinateOf_iff h.space (h.sequence_pos (List.mem_of_getElem? he)) (Int.natCast_nonneg _) c).1 hce
      have hparts' := (eqv_coordinateOf_iff h.space (h.sequence_pos (List.mem_of_getElem? he')) (Int.natCast_nonneg _) c).1 hce'
      have hsame := hparts.2.symm.trans hparts'.2
      simp only [Option.some.injEq, Prod.mk.injEq, true_and] at hsame
      exact h.position_unique he he' hsame.1 (by exact_mod_cast hsame.2)
    constructor
    · intro hp
      split at hp
      · rename_i hrange
        obtain rfl : p = p' := by simpa using hp
        obtain ⟨hlow, hup⟩ := hin.1 (by omega)
        exact ⟨e', he', hlow, hup, by simpa using hce', by simp⟩
      · cases hp
    · intro ⟨e, he, hm⟩
      obtain rfl := hunique e he (hm.coordinate c rfl)
      have hrange := (hwindow p e he).2 ⟨hm.above, hm.upTo⟩
      rw [if_pos (by omega)]
      simp
  · rw [hexact, if_neg (by omega)]
    constructor
    · intro hp
      cases hp
    · intro ⟨e, he, hm⟩
      have := hm.coordinate c rfl
      rw [hnone e (List.mem_of_getElem? he)] at this
      cases this

/-- The candidates are the positions of the window whose operations meet the constraints, in commit order. -/
theorem Represents.operationCandidatePositions (h : Represents Γ s frames) {lower upper : Int} (hle : lower ≤ upper)
    (coordinate proposition : Option Term) :
    ∃ positions, operationCandidatePositions Γ s lower upper coordinate proposition (operationPostings s) = .ok positions ∧
      positions.Pairwise (· < ·) ∧
      ∀ p, p ∈ positions ↔ ∃ e, (logOf frames)[p]? = some e ∧ e.Meets s.spaceId lower upper coordinate proposition := by
  obtain ⟨start, stop, hbounds, hstop, hstart, hwindow⟩ := h.operationRangeBounds lower upper
  have hlen : s.operations.length = (logOf frames).length := h.rows.length_eq
  simp only [Fram.operationCandidatePositions, hbounds]
  cases coordinate with
  | some c =>
    simp only [Option.map_some]
    have hmem := h.mem_exact_iff hwindow c
    have hsorted : (if (start : Int) ≤ Fram.exactOccurrencePosition s c ∧ Fram.exactOccurrencePosition s c < stop then
        [(Fram.exactOccurrencePosition s c).toNat] else []).Pairwise (· < ·) := by
      split
      · exact List.pairwise_singleton _ _
      · exact .nil
    generalize (if (start : Int) ≤ Fram.exactOccurrencePosition s c ∧ Fram.exactOccurrencePosition s c < stop then
        [(Fram.exactOccurrencePosition s c).toNat] else []) = candidates at hmem hsorted ⊢
    cases proposition with
    | none => exact ⟨candidates, rfl, hsorted, hmem⟩
    | some t =>
      have hfilter := @ExceptList.filterM_eq_ok Fault Nat
        (fun position => do
          let row ← nth s.operations position
          pure (knownTermHandle Γ s t == some row.tripleHandle))
        (fun position => s.operations[position]?.any fun row => knownTermHandle Γ s t == some row.tripleHandle) candidates
        (fun position hp => by
          obtain ⟨e, he, -⟩ := (hmem position).1 hp
          obtain ⟨row, hrow, -⟩ := h.row he
          simp only [nth, hrow, bind, Except.bind, Option.any_some]
          rfl)
      refine ⟨_, hfilter, hsorted.filter _, fun p => ?_⟩
      rw [List.mem_filter, hmem]
      constructor
      · rintro ⟨⟨e, he, hm⟩, hrow⟩
        obtain ⟨row, hr, hf⟩ := h.row he
        rw [hr, Option.any_some, beq_iff_eq, h.knownTermHandle_row_iff hf] at hrow
        exact ⟨e, he, hm.above, hm.upTo, hm.coordinate, by simpa using hrow⟩
      · rintro ⟨e, he, hm⟩
        obtain ⟨row, hr, hf⟩ := h.row he
        refine ⟨⟨e, he, hm.above, hm.upTo, hm.coordinate, by simp⟩, ?_⟩
        rw [hr, Option.any_some, beq_iff_eq, h.knownTermHandle_row_iff hf]
        exact hm.proposition t rfl
  | none =>
    cases proposition with
    | none =>
      refine ⟨_, rfl, List.pairwise_lt_range.drop, fun p => ?_⟩
      rw [mem_drop_range]
      constructor
      · intro hp
        have he : (logOf frames)[p]? = some _ := List.getElem?_eq_getElem (hp.2.trans_le hstop)
        obtain ⟨hlow, hup⟩ := (hwindow p _ he).1 hp
        exact ⟨_, he, hlow, hup, by simp, by simp⟩
      · rintro ⟨e, he, hm⟩
        exact (hwindow p e he).2 ⟨hm.above, hm.upTo⟩
    | some t =>
      simp only [Option.map_none, Option.bind_some]
      cases hk : knownTermHandle Γ s t with
      | none =>
        refine ⟨[], rfl, .nil, fun p => ?_⟩
        constructor
        · intro hp
          cases hp
        · rintro ⟨e, he, hm⟩
          have := hm.proposition t rfl
          rw [h.eqv_of_unknown hk (List.mem_of_getElem? he)] at this
          cases this
      | some handle =>
        obtain ⟨part, hpart, hsorted, hmem⟩ := subvec_lowerBoundPosition (pairwise_operationPostings s handle) (hstart hle)
        refine ⟨part, hpart, hsorted, fun p => ?_⟩
        rw [hmem, h.mem_operationPostings_iff hk]
        constructor
        · rintro ⟨⟨e, he, hte⟩, hp⟩
          obtain ⟨hlow, hup⟩ := (hwindow p e he).1 hp
          exact ⟨e, he, hlow, hup, by simp, by simpa using hte⟩
        · rintro ⟨e, he, hm⟩
          exact ⟨⟨e, he, hm.proposition t rfl⟩, (hwindow p e he).2 ⟨hm.above, hm.upTo⟩⟩

end Windows

end Fram
