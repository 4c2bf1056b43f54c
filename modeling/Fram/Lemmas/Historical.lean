import Fram.Dispatch
import Fram.Lemmas.Frames
import Fram.Lemmas.Twin
import Fram.QueryOps

/-!
# Stores rebuilt from frames

Frames read back from a store hold atoms of the store only, and no two of these are equal, so terms of them that are the same are
identical (`Term.eq_of_same`). A store rebuilt from such frames shows exactly what the store they were read from shows of the same
history (`Represents.alike`).
-/

namespace Fram

variable {l : List Atom} {f : TransactionFrame}

/-! ## Atoms of terms -/

/-- The atoms of a term. -/
def Term.atoms : Term → List Atom
  | .atom a => [a]
  | .triple t1 t2 t3 => t1.atoms ++ t2.atoms ++ t3.atoms

/-- Atoms among which equal ones are identical. -/
def Apart (atoms : List Atom) : Prop := ∀ a ∈ atoms, ∀ b ∈ atoms, a.eqv b = true → a = b

/-- There is one NaN. -/
theorem Atom.eq_of_isNaN {a b : Atom} (ha : a.isNaN = true) (hb : b.isNaN = true) : a = b := by
  cases a <;> cases b <;> simp only [Atom.isNaN] at ha hb <;> try cases ha
  all_goals try cases hb
  rename_i x y
  obtain ⟨x, hx⟩ := x
  obtain ⟨y, hy⟩ := y
  obtain rfl : x = y := (hx ha).trans (hy hb).symm
  rfl

/-- Atoms of one list that are the same are identical. -/
theorem Apart.eq_of_canon (h : Apart l) {a b : Atom} (ha : a ∈ l) (hb : b ∈ l) (hc : a.canon = b.canon) : a = b := by
  have hnan : a.isNaN = b.isNaN := by rw [← Atom.isNaN_canon, hc, Atom.isNaN_canon]
  cases hn : a.isNaN with
  | true => exact Atom.eq_of_isNaN hn (hnan ▸ hn)
  | false => exact h a ha b hb ((Atom.eqv_iff a b).2 ⟨hn, hc⟩)

/-- Terms over one list of atoms that are the same are identical. -/
theorem Term.eq_of_same (h : Apart l) {t u : Term} (ht : ∀ a ∈ t.atoms, a ∈ l) (hu : ∀ a ∈ u.atoms, a ∈ l) (hs : t.same u) : t = u := by
  induction t generalizing u with
  | atom a =>
    cases u with
    | atom b =>
      have hc : a.canon = b.canon := by simpa [Term.same, Term.canon] using hs
      rw [h.eq_of_canon (ht a (by simp [Term.atoms])) (hu b (by simp [Term.atoms])) hc]
    | triple => simp [Term.same, Term.canon] at hs
  | triple t1 t2 t3 ih1 ih2 ih3 =>
    cases u with
    | atom b => simp [Term.same, Term.canon] at hs
    | triple u1 u2 u3 =>
      obtain ⟨h1, h2, h3⟩ := Term.same_triple_iff.1 hs
      simp only [Term.atoms, List.mem_append] at ht hu
      rw [ih1 (fun a ha => ht a (Or.inl (Or.inl ha))) (fun a ha => hu a (Or.inl (Or.inl ha))) h1,
        ih2 (fun a ha => ht a (Or.inl (Or.inr ha))) (fun a ha => hu a (Or.inl (Or.inr ha))) h2,
        ih3 (fun a ha => ht a (Or.inr ha)) (fun a ha => hu a (Or.inr ha)) h3]

section Atoms

variable {Γ : Host} {s : TermStore} {h : Int} {t : Term}

theorem Interned.apart (hi : Interned Γ s) : Apart s.atoms := by
  intro a ha b hb he
  obtain ⟨i, hia⟩ := List.mem_iff_getElem?.1 ha
  obtain ⟨j, hjb⟩ := List.mem_iff_getElem?.1 hb
  obtain rfl := hi.atomsApart i j a b hia hjb he
  exact Option.some.inj (hia.symm.trans hjb)

/-- The term of a handle is made of atoms of the store. -/
theorem Resolves.atoms (hr : Resolves s h t) : ∀ a ∈ t.atoms, a ∈ s.atoms := by
  induction hr with
  | atom p a hp =>
    intro b hb
    rw [List.mem_singleton.1 hb]
    exact List.mem_of_getElem? hp
  | triple p row t1 t2 t3 hp _ _ _ ih1 ih2 ih3 =>
    intro a ha
    simp only [Term.atoms, List.mem_append] at ha
    rcases ha with (ha | ha) | ha
    · exact ih1 a ha
    · exact ih2 a ha
    · exact ih3 a ha

/-- Interning a term adds atoms of the term only. -/
theorem internHandle_atoms (Γ : Host) (s : TermStore) (t : Term) : ∀ a ∈ (internHandle Γ s t).1.atoms, a ∈ s.atoms ∨ a ∈ t.atoms := by
  have hatom : ∀ (s : TermStore) (b : Atom), ∀ a ∈ (internAtom Γ s b).1.atoms, a ∈ s.atoms ∨ a = b := by
    intro s b a ha
    unfold internAtom at ha
    split at ha
    · exact Or.inl ha
    · simpa using ha
  have hrow : ∀ (s : TermStore) (row : TripleRow), (internRow Γ s row).1.atoms = s.atoms := by
    intro s row
    unfold internRow
    split <;> rfl
  induction t generalizing s with
  | atom b =>
    intro a ha
    exact (hatom s b a ha).imp_right fun he => by rw [he]; exact List.mem_singleton_self b
  | triple t1 t2 t3 ih1 ih2 ih3 =>
    intro a ha
    simp only [internHandle, hrow] at ha
    simp only [Term.atoms, List.mem_append]
    rcases ih3 _ a ha with ha | ha
    · rcases ih2 _ a ha with ha | ha
      · rcases ih1 _ a ha with ha | ha
        · exact Or.inl ha
        · exact Or.inr (Or.inl (Or.inl ha))
      · exact Or.inr (Or.inl (Or.inr ha))
    · exact Or.inr (Or.inr ha)

/-- The propositions of the operations are made of atoms of a list. -/
def MadeOf (l : List Atom) (operations : List CommitOperation) : Prop :=
  ∀ o ∈ operations, ∀ a ∈ o.proposition.term.atoms, a ∈ l

theorem operationHandles_atoms {operations : List CommitOperation} (hl : ∀ a ∈ s.atoms, a ∈ l)
    (hm : MadeOf l operations) : ∀ a ∈ (operationHandles Γ s operations).1.atoms, a ∈ l := by
  induction operations using List.reverseRecOn with
  | nil => exact hl
  | append_singleton operations o ih =>
    have hops := ih fun o' ho' => hm o' (List.mem_append_left _ ho')
    intro a ha
    rw [operationHandles_concat] at ha
    rcases internHandle_atoms Γ _ _ a ha with ha | ha
    · exact hops a ha
    · exact hm o (by simp) a ha

/-- A store that takes frames made of atoms of a list has atoms of the list only. -/
theorem appendFrames_atoms {fs : List TransactionFrame} (hl : ∀ a ∈ s.atoms, a ∈ l)
    (hm : ∀ f ∈ fs, MadeOf l f.operations) : ∀ a ∈ (appendFrames Γ s fs).atoms, a ∈ l := by
  induction fs generalizing s with
  | nil => exact hl
  | cons f fs ih =>
    rw [List.forall_mem_cons] at hm
    refine ih (s := appendValidTransaction Γ s f.sequence f.operations) ?_ hm.2
    have hrows := (appendRows_rows Γ (operationHandles Γ s f.operations).1 f.sequence
      ((f.operations.map (·.action)).zip (operationHandles Γ s f.operations).2)).2.2.1
    unfold appendValidTransaction
    dsimp only
    rw [hrows]
    exact operationHandles_atoms hl hm.1

/-- Frames read back from a store are made of its atoms. -/
theorem Represents.madeOf {frames : List TransactionFrame} (hr : Represents Γ s frames) {lower upper : Int}
    {fs : List TransactionFrame} (hf : transactionFramesBetween s lower upper = .ok fs) : ∀ f ∈ fs, MadeOf s.atoms f.operations := by
  intro f hmem o ho
  obtain ⟨row, -, hrow⟩ := ExceptList.exists_of_mem_mapM hf hmem
  unfold Fram.frameOfRow at hrow
  dsimp only at hrow
  cases hops : ((s.operations.drop row.firstOperation.toNat).take row.operationCount.toNat).mapM fun operation => do
      let proposition ← resolveTripleHandle s operation.tripleHandle
      .ok (⟨operation.action, proposition⟩ : CommitOperation) with
  | error fault =>
    rw [hops] at hrow
    cases hrow
  | ok os =>
    rw [hops] at hrow
    cases hrow
    obtain ⟨operation, hop, ho⟩ := ExceptList.exists_of_mem_mapM hops ho
    obtain ⟨e, hfor⟩ := hr.exists_rowFor (List.mem_of_mem_drop (List.mem_of_mem_take hop))
    obtain ⟨p, hp, -⟩ := hfor.proposition
    rw [hr.interned.resolveTripleHandle hp] at ho
    cases ho
    exact hp.atoms

end Atoms

/-! ## Histories that are the same -/

section Same

variable {Γ : Host} {s s' : TermStore} {frames frames' : List TransactionFrame}

theorem TransactionFrame.nonempty_same {f' : TransactionFrame} (h : f.same f') (hn : f.operations ≠ []) : f'.operations ≠ [] := by
  intro he
  have := h.2.length_eq
  rw [he, List.length_nil] at this
  exact hn (List.eq_nil_of_length_eq_zero this)

/-- A log operation of the same frames: where it stands, what it does, and the same proposition. -/
def LoggedOperation.same (e e' : LoggedOperation) : Prop :=
  e.sequence = e'.sequence ∧ e.ordinal = e'.ordinal ∧ e.action = e'.action ∧ e.proposition.same e'.proposition

theorem loggedFrom_same {q : Int} {ordinal : Nat} {os os' : List CommitOperation} (h : List.Forall₂ CommitOperation.same os os') :
    List.Forall₂ LoggedOperation.same (loggedFrom q ordinal os) (loggedFrom q ordinal os') := by
  induction h generalizing ordinal with
  | nil => exact .nil
  | cons ho _ ih => exact .cons ⟨rfl, rfl, ho.1, ho.2⟩ ih

/-- The logs of the same frames are the same. -/
theorem logOf_same (h : List.Forall₂ TransactionFrame.same frames frames') :
    List.Forall₂ LoggedOperation.same (logOf frames) (logOf frames') := by
  induction h with
  | nil => exact .nil
  | @cons f f' fs fs' hf _ ih =>
    have hlogged : List.Forall₂ LoggedOperation.same f.logged f'.logged := by
      unfold TransactionFrame.logged
      rw [hf.1]
      exact loggedFrom_same hf.2
    exact List.rel_append hlogged ih

theorem sequences_same (h : List.Forall₂ TransactionFrame.same frames frames') : frames.map (·.sequence) = frames'.map (·.sequence) := by
  induction h with
  | nil => rfl
  | cons hf _ ih => rw [List.map_cons, List.map_cons, hf.1, ih]

theorem transactionRows_same (h : List.Forall₂ TransactionFrame.same frames frames') (first : Nat) :
    transactionRows first frames = transactionRows first frames' := by
  induction h generalizing first with
  | nil => rfl
  | cons hf _ ih => rw [transactionRows, transactionRows, hf.1, hf.2.length_eq, ih]

theorem TransactionFrame.same_symm {f' : TransactionFrame} (h : f.same f') : f'.same f :=
  ⟨h.1.symm, List.Forall₂.imp (fun _ _ ho => ⟨ho.1.symm, ho.2.symm⟩) (List.Forall₂.flip h.2)⟩

/-- Each of the same frames has the one it is the same as. -/
theorem exists_same_of_mem (h : List.Forall₂ TransactionFrame.same frames frames') : ∀ f' ∈ frames', ∃ f ∈ frames, f.same f' := by
  induction h with
  | nil => simp
  | cons hff _ ih =>
    rw [List.forall_mem_cons]
    refine ⟨⟨_, List.mem_cons_self, hff⟩, fun f' hf' => ?_⟩
    obtain ⟨f, hm, hs⟩ := ih f' hf'
    exact ⟨f, List.mem_cons_of_mem _ hm, hs⟩

/-- Frames advance by their sequences and the presence of operations. -/
theorem Advances.of_same {next : Int} (h : Advances frames next) (hf : List.Forall₂ TransactionFrame.same frames frames') :
    Advances frames' next := by
  have hseq := sequences_same hf
  have hmem := exists_same_of_mem hf
  refine ⟨hseq ▸ h.sorted, fun f' hf' => ?_, fun f' hf' => ?_, ?_, fun f' hf' => ?_⟩
  · obtain ⟨f, hm, hs⟩ := hmem f' hf'
    exact hs.1 ▸ h.lower f hm
  · obtain ⟨f, hm, hs⟩ := hmem f' hf'
    exact hs.1 ▸ h.upper f hm
  · rw [h.last, ← List.getLast?_map, ← List.getLast?_map, hseq]
  · obtain ⟨f, hm, hs⟩ := hmem f' hf'
    exact TransactionFrame.nonempty_same hs (h.nonempty f hm)

/-- A store represents every history that is the same as one it represents. -/
theorem Represents.of_same (h : Represents Γ s frames) (hf : List.Forall₂ TransactionFrame.same frames frames') :
    Represents Γ s frames' := by
  have hlog := logOf_same hf
  refine ⟨⟨h.interned, h.folded, ?_, ?_⟩, h.space, h.advances.of_same hf, ?_⟩
  · have hrows := h.rows
    clear h
    generalize s.operations = rows at hrows
    generalize logOf frames = log at hlog hrows
    generalize logOf frames' = log' at hlog
    induction hlog generalizing rows with
    | nil =>
      cases hrows
      exact .nil
    | cons he _ ih =>
      cases hrows with
      | cons hr hrows =>
        obtain ⟨p, hp, hs⟩ := hr.proposition
        exact .cons ⟨hr.sequence.trans he.1, hr.ordinal.trans (congrArg _ he.2.1), hr.action.trans he.2.2.1, p, hp,
          hs.trans he.2.2.2⟩ (ih _ hrows)
  · intro i j x q hij h1 h2 h3
    rw [List.getElem?_map, Option.map_eq_some_iff] at h3
    obtain ⟨e', he', rfl⟩ := h3
    obtain ⟨hj', rfl⟩ := List.getElem?_eq_some_iff.1 he'
    have hj := hlog.length_eq ▸ hj'
    have hsame := (List.forall₂_iff_get.1 hlog).2 j hj hj'
    have := h.fresh i j x _ hij h1 h2 (by rw [List.getElem?_map, List.getElem?_eq_getElem hj]; rfl)
    rw [← this]
    exact hsame.2.2.2.hasNaN.symm
  · rw [h.transactions]
    exact transactionRows_same hf 0

/-- The rows say the same of the same proposition, each in its store. -/
def RowAlike (s s' : TermStore) (row row' : OperationRow) : Prop :=
  row'.txSequence = row.txSequence ∧ row'.ordinal = row.ordinal ∧ row'.action = row.action ∧
    resolveTripleHandle s' row'.tripleHandle = resolveTripleHandle s row.tripleHandle

/-- The rows of stores that represent one history over atoms of one list say the same. -/
theorem Represents.rowsAlike (h : Represents Γ s frames) (h' : Represents Γ s' frames) (hl : Apart l)
    (ha : ∀ a ∈ s.atoms, a ∈ l) (ha' : ∀ a ∈ s'.atoms, a ∈ l) : List.Forall₂ (RowAlike s s') s.operations s'.operations := by
  rw [List.forall₂_iff_get]
  refine ⟨h.rows.length_eq.trans h'.rows.length_eq.symm, fun i h1 h2 => ?_⟩
  have hi := h.rows.length_eq ▸ h1
  have hr := (List.forall₂_iff_get.1 h.rows).2 i h1 hi
  have hr' := (List.forall₂_iff_get.1 h'.rows).2 i h2 hi
  obtain ⟨p, hp, hs⟩ := hr.proposition
  obtain ⟨p', hp', hs'⟩ := hr'.proposition
  refine ⟨hr'.sequence.trans hr.sequence.symm, hr'.ordinal.trans hr.ordinal.symm, hr'.action.trans hr.action.symm, ?_⟩
  have heq : p.term = p'.term := Term.eq_of_same hl (fun a hm => ha a (hp.atoms a hm)) (fun a hm => ha' a (hp'.atoms a hm))
    (hs.trans hs'.symm)
  rw [h.interned.resolveTripleHandle hp, h'.interned.resolveTripleHandle hp', Triple.term_injective heq]

/-- Stores of one space that represent one history over atoms of one list show it alike. -/
theorem Represents.alike (h : Represents Γ s frames) (h' : Represents Γ s' frames) (hs : s'.spaceId = s.spaceId)
    (hl : Apart l) (ha : ∀ a ∈ s.atoms, a ∈ l) (ha' : ∀ a ∈ s'.atoms, a ∈ l) : Alike Γ s s' := by
  have hrows := h.rowsAlike h' hl ha ha'
  have hlen : s'.operations.length = s.operations.length := hrows.length_eq.symm
  have hnth : ∀ i, (nth s.operations i = nth s'.operations i ∧ ∃ e, nth s.operations i = .error e) ∨
      ∃ row row', nth s.operations i = .ok row ∧ nth s'.operations i = .ok row' ∧ RowAlike s s' row row' := by
    intro i
    unfold nth
    rcases Nat.lt_or_ge i s.operations.length with hi | hi
    · have hi' : i < s'.operations.length := hlen ▸ hi
      refine Or.inr ⟨s.operations[i], s'.operations[i], ?_, ?_, (List.forall₂_iff_get.1 hrows).2 i hi hi'⟩
      · rw [List.getElem?_eq_getElem hi]
      · rw [List.getElem?_eq_getElem hi']
    · rw [List.getElem?_eq_none hi, List.getElem?_eq_none (hlen ▸ hi)]
      exact Or.inl ⟨rfl, _, rfl⟩
  have hocc : Fram.operationOccurrenceAt s' = Fram.operationOccurrenceAt s := by
    funext i
    unfold Fram.operationOccurrenceAt occurrenceAt
    rcases hnth i with ⟨he, e, hs'⟩ | ⟨row, row', h1, h2, ⟨ha1, ha2, ha3, ha4⟩⟩
    · rw [← he, hs']
      rfl
    · rw [h1, h2]
      simp only [bind, Except.bind, ha1, ha2, ha3, ha4, hs]
  have htargets : s'.withdrawalTargets = s.withdrawalTargets := by rw [h.targets, h'.targets]
  have hlive : livePositions Γ s' = livePositions Γ s := by rw [h.livePositions, h'.livePositions]
  have htransactions : s'.transactions = s.transactions := by rw [h.transactions, h'.transactions]
  have hframe : Fram.frameOfRow s' = Fram.frameOfRow s := by
    funext row
    unfold Fram.frameOfRow
    dsimp only
    rw [ExceptList.mapM_eq_mapM]
    refine List.Forall₂.imp (fun x y hxy => ?_) (List.forall₂_take _ (List.forall₂_drop _ (List.Forall₂.flip hrows)))
    rw [hxy.2.2.2, hxy.2.2.1]
  refine ⟨hs, ?_, fun lower upper => ?_, ?_, ?_, ?_, ?_⟩
  · rw [h.currentSequence, h'.currentSequence]
  · rw [transactionFramesBetween, transactionFramesBetween, htransactions, hframe]
  · rw [Fram.occurrences, Fram.occurrences, hlen, hocc]
  · have : Fram.withdrawalAt s' = Fram.withdrawalAt s := by
      funext position
      rw [Fram.withdrawalAt, Fram.withdrawalAt, htargets, hocc]
    rw [Fram.withdrawals, Fram.withdrawals, hlen, this]
  · rw [Fram.liveOccurrences, Fram.liveOccurrences, hlive, hocc]
  · rw [Fram.livePropositions, Fram.livePropositions, hlive]
    refine ExceptList.mapM_congr fun i _ => ?_
    rcases hnth i with ⟨he, e, hs'⟩ | ⟨row, row', h1, h2, -, -, -, ha4⟩
    · rw [← he, hs']
      rfl
    · rw [h1, h2]
      exact ha4

end Same

/-! ## Replays of frames read back -/

section Rebuilt

variable {Γ : Host} {s root copy : TermStore} {frames base rest fs : List TransactionFrame} {version : Int}

/-- A frame that advances is replayed. -/
theorem Represents.replayTransaction (h : Represents Γ s frames) (hs : s.nextSequence ≤ f.sequence)
    (hn : f.operations ≠ []) : ∃ c, Fram.replayTransaction Γ s f = .ok (Fram.appendValidTransaction Γ s f.sequence f.operations, c) := by
  have hpos := h.advances.next_pos
  have hempty : f.operations.isEmpty = false := by simpa using hn
  have hspace : 0 < (Fram.appendValidTransaction Γ s f.sequence f.operations).spaceId.length := by
    rw [appendValidTransaction_spaceId]
    exact h.space
  refine ⟨⟨.str (Fram.appendValidTransaction Γ s f.sequence f.operations).spaceId, txSequence, .int f.sequence⟩, ?_⟩
  rw [Fram.replayTransaction, if_pos ⟨by omega, hempty⟩, Fram.appendTransaction, hempty, if_neg Bool.false_ne_true,
    if_neg (by omega)]
  simp only [bind, Except.bind, transactionCoordinate_ok hspace (by omega : 0 ≤ f.sequence)]

/-- Frames that advance extend the history of a store that takes them in order. -/
theorem Represents.appendAdvancing (h : Represents Γ s frames) (hs : (fs.map (·.sequence)).Pairwise (· < ·))
    (hl : ∀ f ∈ fs, s.nextSequence ≤ f.sequence) (hn : ∀ f ∈ fs, f.operations ≠ []) :
    Represents Γ (Fram.appendFrames Γ s fs) (frames ++ fs) := by
  induction fs generalizing s frames with
  | nil => simpa [Fram.appendFrames] using h
  | cons f fs ih =>
    rw [List.forall_mem_cons] at hl hn
    rw [List.map_cons, List.pairwise_cons] at hs
    have h1 := ih (h.appendValidTransaction hl.1 hn.1) hs.2 (fun g hg => ?_) hn.2
    · simpa [Fram.appendFrames, List.append_assoc] using h1
    · have := hs.1 _ (List.mem_map_of_mem hg)
      rw [appendValidTransaction_nextSequence]
      omega

/-- A walk that replays frames that advance appends them. -/
theorem Represents.foldlM_replay (h : Represents Γ s frames) (hs : (fs.map (·.sequence)).Pairwise (· < ·))
    (hl : ∀ f ∈ fs, s.nextSequence ≤ f.sequence) (hn : ∀ f ∈ fs, f.operations ≠ [])
    {step : TermStore → TransactionFrame → Except Fault TermStore}
    (hstep : ∀ s f s' c, Fram.replayTransaction Γ s f = .ok (s', c) → step s f = .ok s') :
    fs.foldlM step s = .ok (Fram.appendFrames Γ s fs) := by
  induction fs generalizing s frames with
  | nil => rfl
  | cons f fs ih =>
    rw [List.forall_mem_cons] at hl hn
    rw [List.map_cons, List.pairwise_cons] at hs
    obtain ⟨c, hc⟩ := h.replayTransaction hl.1 hn.1
    rw [List.foldlM_cons, hstep _ _ _ _ hc]
    refine ih (h.appendValidTransaction hl.1 hn.1) hs.2 (fun g hg => ?_) hn.2
    have := hs.1 _ (List.mem_map_of_mem hg)
    rw [appendValidTransaction_nextSequence]
    omega

/-- The frames that advance are replayed when none is past the greatest sequence, and else the replay fails. -/
theorem Represents.replayRemaining (h : Represents Γ s frames) (hs : (fs.map (·.sequence)).Pairwise (· < ·))
    (hl : ∀ f ∈ fs, s.nextSequence ≤ f.sequence) (hn : ∀ f ∈ fs, f.operations ≠ []) (context : ReadContext) :
    replayRemaining Γ context root s fs =
      if ∀ f ∈ fs, f.sequence ≤ maxTransactionSequence then (context, Fram.appendFrames Γ s fs)
      else (recordReadError context ⟨"rpc/native-query-failed"⟩ "native read operation failed", root) := by
  induction fs generalizing s frames with
  | nil => rfl
  | cons f fs ih =>
    rw [List.forall_mem_cons] at hl hn
    rw [List.map_cons, List.pairwise_cons] at hs
    have hpos := h.advances.next_pos
    have hempty : f.operations.isEmpty = false := by simpa using hn.1
    have hresult : replayTransactionResult Γ s f =
        if maxTransactionSequence < f.sequence then (s, transactionReplayUnclassifiedError)
        else (Fram.appendValidTransaction Γ s f.sequence f.operations, transactionReplayOk) := by
      rw [replayTransactionResult, if_pos ⟨by omega, hempty⟩, appendTransactionResult, hempty, if_neg Bool.false_ne_true,
        if_neg (by omega)]
    rw [Fram.replayRemaining, hresult]
    by_cases hmax : maxTransactionSequence < f.sequence
    · have hnot : ¬∀ g ∈ f :: fs, g.sequence ≤ maxTransactionSequence := fun hall => by
        have := hall f List.mem_cons_self
        omega
      rw [if_pos hmax, if_neg hnot]
      rfl
    · have hiff : (∀ g ∈ f :: fs, g.sequence ≤ maxTransactionSequence) ↔ ∀ g ∈ fs, g.sequence ≤ maxTransactionSequence := by
        rw [List.forall_mem_cons]
        exact and_iff_right (by omega)
      rw [if_neg hmax]
      simp only [hiff]
      refine (if_pos rfl).trans (ih (h.appendValidTransaction hl.1 hn.1) hs.2 (fun g hg => ?_) hn.2)
      have := hs.1 _ (List.mem_map_of_mem hg)
      rw [appendValidTransaction_nextSequence]
      omega

/-- A copy of a store as it was: it represents the first part of the history, over atoms of the store. -/
structure CopyOf (Γ : Host) (root : TermStore) (base : List TransactionFrame) (copy : TermStore) : Prop where
  represents : Represents Γ copy base
  space : copy.spaceId = root.spaceId
  atoms : ∀ a ∈ copy.atoms, a ∈ root.atoms

/-- Where a version ends the first part of a history of a store. -/
structure Ends (version : Int) (base rest : List TransactionFrame) : Prop where
  upper : ∀ f ∈ base, f.sequence ≤ version
  lower : ∀ f ∈ rest, version < f.sequence

/-- A store at its newest version is a copy of itself. -/
theorem Represents.copyOf_self (h : Represents Γ root (base ++ rest)) (he : Ends (Fram.currentSequence root) base rest) :
    CopyOf Γ root base root := by
  have hrest : rest = [] := by
    refine List.eq_nil_iff_forall_not_mem.2 fun f hf => ?_
    have h1 := h.advances.upper f (List.mem_append_right _ hf)
    have h2 := he.lower f hf
    unfold Fram.currentSequence at h2
    omega
  rw [hrest, List.append_nil] at h
  exact ⟨h, rfl, fun _ ha => ha⟩

/-- The frames read back up to a version, as a new store takes them: they advance from the first sequence on. -/
theorem Represents.readBack (h : Represents Γ root (base ++ rest)) (he : Ends version base rest) {lower : Int} (hlower : lower ≤ 0) :
    ∃ fs, transactionFramesBetween root lower version = .ok fs ∧ List.Forall₂ TransactionFrame.same fs base ∧
      ∃ copy, newTermStore root.spaceId = .ok copy ∧ Represents Γ copy [] ∧ (fs.map (·.sequence)).Pairwise (· < ·) ∧
        (∀ f ∈ fs, copy.nextSequence ≤ f.sequence) ∧ (∀ f ∈ fs, f.operations ≠ []) ∧
        CopyOf Γ root base (Fram.appendFrames Γ copy fs) := by
  have hall : Represents Γ root ([] ++ (base ++ rest)) := h
  have hafter : ∀ f ∈ base ++ rest, lower < f.sequence := fun f hf => by
    have := h.advances.lower f hf
    omega
  obtain ⟨fs, hfs, hsame⟩ := hall.framesBetween (List.forall_mem_nil _) hafter (by simpa using he.upper) he.lower
  obtain ⟨copy, hcopy⟩ : ∃ copy, newTermStore root.spaceId = .ok copy := by
    have hspace : validSpaceId root.spaceId = true := by simpa [validSpaceId] using h.space
    exact ⟨_, by rw [newTermStore, newTermStoreSized, if_pos hspace]⟩
  obtain ⟨hnew, hspace, -⟩ := represents_newTermStoreSized Γ hcopy
  have hnext : copy.nextSequence = 1 := hnew.advances.last
  have hmem : ∀ f ∈ fs, ∃ g ∈ base, f.same g := fun f hf => by
    have hflip : List.Forall₂ TransactionFrame.same base fs :=
      List.Forall₂.imp (fun _ _ hfg => TransactionFrame.same_symm hfg) (List.Forall₂.flip hsame)
    obtain ⟨g, hg, hs⟩ := exists_same_of_mem hflip f hf
    exact ⟨g, hg, TransactionFrame.same_symm hs⟩
  have hsorted : (fs.map (·.sequence)).Pairwise (· < ·) := by
    rw [sequences_same hsame]
    have := h.advances.sorted
    rw [List.map_append, List.pairwise_append] at this
    exact this.1
  have hlow : ∀ f ∈ fs, copy.nextSequence ≤ f.sequence := fun f hf => by
    obtain ⟨g, hg, hs⟩ := hmem f hf
    rw [hnext, hs.1]
    exact h.advances.lower g (List.mem_append_left _ hg)
  have hfull : ∀ f ∈ fs, f.operations ≠ [] := fun f hf => by
    obtain ⟨g, hg, hs⟩ := hmem f hf
    exact TransactionFrame.nonempty_same (TransactionFrame.same_symm hs) (h.advances.nonempty g (List.mem_append_left _ hg))
  have hrep := (hnew.appendAdvancing hsorted hlow hfull).of_same hsame
  refine ⟨fs, hfs, hsame, copy, hcopy, hnew, hsorted, hlow, hfull, hrep, ?_, ?_⟩
  · exact (Folds.space_eq ⟨0, 0, 0, copy, hcopy, Twin.refl _⟩)
  · refine appendFrames_atoms (fun a ha => ?_) (h.madeOf hfs)
    have hnone : copy.atoms = [] := by
      unfold newTermStore newTermStoreSized at hcopy
      split at hcopy <;> cases hcopy
      rfl
    rw [hnone] at ha
    cases ha

/-- (`historical-root!`) The store rebuilt for a version is a copy of the store as it was. -/
theorem Represents.historicalRoot (h : Represents Γ root (base ++ rest)) (he : Ends version base rest) :
    ∃ copy, Dispatch.historicalRoot Γ root version = .ok copy ∧ CopyOf Γ root base copy := by
  unfold Dispatch.historicalRoot
  by_cases hv : version = Fram.currentSequence root
  · rw [if_pos hv]
    exact ⟨root, rfl, h.copyOf_self (hv ▸ he)⟩
  · rw [if_neg hv]
    obtain ⟨fs, hfs, -, copy, hcopy, hnew, hsorted, hlow, hfull, hcopyOf⟩ := h.readBack he (le_refl 0)
    refine ⟨_, ?_, hcopyOf⟩
    simp only [hcopy, hfs, bind, Except.bind]
    exact hnew.foldlM_replay hsorted hlow hfull fun s f s' c hc => by rw [hc]

/-- (`snapshot-root!`) The store rebuilt for an earlier version is a copy of the store as it was, when no atom of the store is the
NaN and no frame up to the version is past the greatest sequence; else the read fails. -/
theorem Represents.snapshotRoot (h : Represents Γ root (base ++ rest)) (he : Ends version base rest) (hpos : 0 ≤ version)
    (hlt : version < Fram.currentSequence root) : (validAtomRows root.atoms = true ∧ (∀ f ∈ base, f.sequence ≤ maxTransactionSequence) →
      ∃ copy, CopyOf Γ root base copy ∧ ∀ context, Fram.snapshotRoot Γ context root version = .ok (context, copy)) ∧
    (¬(validAtomRows root.atoms = true ∧ ∀ f ∈ base, f.sequence ≤ maxTransactionSequence) →
      ∃ error, Fram.snapshotRoot Γ none root version = .ok (some error, root)) := by
  obtain ⟨fs, hfs, hsame, copy, hcopy, hnew, hsorted, hlow, hfull, hcopyOf⟩ := h.readBack he (by decide : (-1 : Int) ≤ 0)
  have hmax : (∀ f ∈ fs, f.sequence ≤ maxTransactionSequence) ↔ ∀ f ∈ base, f.sequence ≤ maxTransactionSequence := by
    have hseq := sequences_same hsame
    have hmap : ∀ l : List TransactionFrame, (∀ f ∈ l, f.sequence ≤ maxTransactionSequence) ↔
        ∀ q ∈ l.map (·.sequence), q ≤ maxTransactionSequence := fun l => by simp
    rw [hmap, hmap, hseq]
  have hread : ∀ context, Fram.snapshotRoot Γ context root version =
      if validAtomRows root.atoms = false then
        .ok (recordReadError context ⟨"invalid-term"⟩ "native read operation failed", root)
      else if ∀ f ∈ base, f.sequence ≤ maxTransactionSequence then .ok (context, Fram.appendFrames Γ copy fs)
      else .ok (recordReadError context ⟨"rpc/native-query-failed"⟩ "native read operation failed", root) := by
    intro context
    unfold Fram.snapshotRoot
    dsimp only
    rw [if_neg (by omega), if_neg (by omega), h.framesBetweenResult (by omega : (-1 : Int) ≤ version), hfs, hcopy]
    split
    · rfl
    · have hreplay := @Represents.replayRemaining _ _ root _ _ hnew hsorted hlow hfull context
      simp only [hmax] at hreplay
      refine (congrArg Except.ok hreplay).trans ?_
      split <;> rfl
  constructor
  · rintro ⟨hvalid, hbound⟩
    refine ⟨_, hcopyOf, fun context => ?_⟩
    rw [hread, hvalid, if_neg (by decide), if_pos hbound]
  · intro hnot
    rw [hread]
    split
    · exact ⟨_, rfl⟩
    · rename_i hvalid
      rw [if_neg fun hbound => hnot ⟨by simpa using hvalid, hbound⟩]
      exact ⟨_, rfl⟩

end Rebuilt

end Fram
