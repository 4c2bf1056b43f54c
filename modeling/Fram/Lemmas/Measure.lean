import Fram.Lemmas.Committed
import Fram.Lemmas.Twin

/-!
# How large a store is

A store that is folded from the frames of a log has no more rows than the frames have bytes, its atoms are those of the frames, and
its sequences are those that a log admits (`Folds.measured`). So the numbers that name its rows are of 64 bits when the log is of a
size that a machine can hold.
-/

namespace Fram

open LittleEndian

/-- The store has at most so many terms and operations, and its atoms and its sequence are such that a log admits. -/
structure Measured (s : TermStore) (n : Nat) : Prop where
  atoms : ∀ a ∈ s.atoms, a.Fits maxCodecCount ∧ a.Ranged
  terms : s.atoms.length + s.triples.length ≤ n
  operations : s.operations.length ≤ n
  sequence : s.nextSequence ≤ maxTransactionSequence + 1

/-- The nodes of the propositions of operations. -/
def operationsNodes (operations : List CommitOperation) : Nat := (operations.map (·.proposition.term.nodes)).sum

section Bounds

variable {Γ : Host} {s s' : TermStore} {n : Nat}

theorem Measured.mono (h : Measured s n) {m : Nat} (hm : n ≤ m) : Measured s m :=
  ⟨h.atoms, h.terms.trans hm, h.operations.trans hm, h.sequence⟩

theorem Measured.twin (h : Measured s n) (ht : Twin s s') : Measured s' n :=
  ⟨by rw [ht.atoms]; exact h.atoms, by rw [ht.atoms, ht.triples]; exact h.terms, by rw [ht.operations]; exact h.operations,
    by rw [ht.nextSequence]; exact h.sequence⟩

theorem Term.nodes_le_bytes (t : Term) : t.nodes ≤ t.bytes.length := by
  induction t with
  | atom a => exact (Term.atom a).bytes_length_pos
  | triple t1 t2 t3 h1 h2 h3 =>
    simp only [Term.nodes, Term.bytes, List.length_cons, List.length_append]
    omega

theorem operationsNodes_le_bytes (ordinal : Nat) (operations : List CommitOperation) :
    operationsNodes operations + operations.length ≤ (operationsBytes ordinal operations).length := by
  induction operations generalizing ordinal with
  | nil => simp [operationsNodes]
  | cons o operations ih =>
    have h1 := ih (ordinal + 1)
    have h2 := o.proposition.term.nodes_le_bytes
    simp only [operationsNodes, List.map_cons, List.sum_cons, List.length_cons, operationsBytes, List.length_append, length_toBytes] at h1 ⊢
    omega

/-- One term adds at most its nodes to a store. -/
theorem internHandle_terms (s : TermStore) (t : Term) : (internHandle Γ s t).1.atoms.length + (internHandle Γ s t).1.triples.length ≤
    s.atoms.length + s.triples.length + t.nodes ∧ ∀ P : Atom → Prop, (∀ a ∈ s.atoms, P a) → t.All P →
      ∀ a ∈ (internHandle Γ s t).1.atoms, P a := by
  induction t generalizing s with
  | atom a =>
    simp only [internHandle, internAtom]
    split
    · exact ⟨by simp [Term.nodes], fun P hP _ => hP⟩
    · refine ⟨by simp [Term.nodes]; omega, fun P hP ha b hb => ?_⟩
      rcases List.mem_append.1 hb with hb | hb
      · exact hP b hb
      · rw [List.mem_singleton.1 hb]
        exact ha
  | triple t1 t2 t3 h1 h2 h3 =>
    simp only [internHandle]
    obtain ⟨l1, p1⟩ := h1 s
    generalize internHandle Γ s t1 = x1 at *
    obtain ⟨l2, p2⟩ := h2 x1.1
    generalize internHandle Γ x1.1 t2 = x2 at *
    obtain ⟨l3, p3⟩ := h3 x2.1
    generalize internHandle Γ x2.1 t3 = x3 at *
    have hall : ∀ P : Atom → Prop, (∀ a ∈ s.atoms, P a) → (t1.triple t2 t3).All P → ∀ a ∈ x3.1.atoms, P a :=
      fun P hP ha => p3 P (p2 P (p1 P hP ha.1) ha.2.1) ha.2.2
    unfold internRow
    split
    · exact ⟨by simp only [Term.nodes]; omega, hall⟩
    · exact ⟨by simp only [Term.nodes, List.length_append, List.length_singleton]; omega, hall⟩

/-- The propositions of a batch add at most their nodes to a store. -/
theorem operationHandles_terms (s : TermStore) (operations : List CommitOperation) :
    (operationHandles Γ s operations).1.atoms.length + (operationHandles Γ s operations).1.triples.length ≤
      s.atoms.length + s.triples.length + operationsNodes operations ∧ ∀ P : Atom → Prop, (∀ a ∈ s.atoms, P a) →
        (∀ o ∈ operations, o.proposition.term.All P) → ∀ a ∈ (operationHandles Γ s operations).1.atoms, P a := by
  induction operations using List.reverseRecOn with
  | nil => exact ⟨by simp [operationHandles], fun P hP _ => hP⟩
  | append_singleton operations o ih =>
    obtain ⟨hl, hp⟩ := ih
    obtain ⟨hl', hp'⟩ := internHandle_terms (Γ := Γ) (operationHandles Γ s operations).1 o.proposition.term
    rw [operationHandles_concat]
    refine ⟨?_, fun P hP ho => ?_⟩
    · simp only [operationsNodes, List.map_append, List.map_singleton, List.sum_append, List.sum_singleton] at hl ⊢
      omega
    · exact hp' P (hp P hP fun o' ho' => ho o' (List.mem_append_left _ ho')) (ho o (by simp))

theorem length_operationRows (sequence : Int) (ordinal : Nat) (rows : List (Action × Int)) :
    (operationRows sequence ordinal rows).length = rows.length := by
  induction rows generalizing ordinal with
  | nil => rfl
  | cons row rows ih => simp [operationRows, ih]

theorem length_operationHandles (s : TermStore) (operations : List CommitOperation) :
    (operationHandles Γ s operations).2.length = operations.length := by
  induction operations using List.reverseRecOn with
  | nil => rfl
  | append_singleton operations o ih => rw [operationHandles_concat]; simp [ih]

/-- A transaction of a log adds at most its bytes to a store. -/
theorem Measured.appendValidTransaction (h : Measured s n) (hi : Interned Γ s) {sequence : Int}
    (hq : sequence ≤ maxTransactionSequence) {operations : List CommitOperation}
    (ho : ∀ o ∈ operations, o.proposition.term.Fits maxCodecCount ∧ o.proposition.term.Ranged) :
    Measured (appendValidTransaction Γ s sequence operations)
      (n + (TransactionFrame.payload ⟨sequence, operations⟩).length) := by
  obtain ⟨hl, hp⟩ := operationHandles_terms (Γ := Γ) s operations
  have hops : (Fram.operationHandles Γ s operations).1.operations = s.operations := by
    rw [(operationHandles_spec hi operations).2.1.frame]
  obtain ⟨-, hnext, ha, ht, -, hrows⟩ := appendRows_rows Γ (Fram.operationHandles Γ s operations).1 sequence
    ((operations.map (·.action)).zip (Fram.operationHandles Γ s operations).2)
  have hbytes := operationsNodes_le_bytes 0 operations
  have hterms := h.terms
  have hcount := h.operations
  unfold Fram.appendValidTransaction
  dsimp only [TransactionFrame.payload]
  refine ⟨?_, ?_, ?_, ?_⟩
  · rw [ha]
    intro a hm
    refine ⟨hp _ (fun b hb => (h.atoms b hb).1) (fun o hm => (ho o hm).1) a hm,
      hp _ (fun b hb => (h.atoms b hb).2) (fun o hm => (ho o hm).2) a hm⟩
  · rw [ha, ht, List.length_append, List.length_append]
    omega
  · rw [hrows, List.length_append, hops, length_operationRows, List.length_zip, List.length_map, length_operationHandles,
      List.length_append, List.length_append]
    omega
  · rw [hnext]
    omega

/-- A chain of frames adds at most its bytes to a store. -/
theorem Measured.appendFrames (h : Measured s n) (hi : Interned Γ s) {next : Int} {payloads : List Bytes}
    {frames : List TransactionFrame} (hc : Chain next payloads frames) :
    Measured (appendFrames Γ s frames) (n + (framesBytes payloads).length) := by
  induction hc generalizing s n with
  | nil => simpa [Fram.appendFrames] using h
  | @cons next payload payloads frame frames ha _ ih =>
    obtain ⟨he, hl, hr⟩ := decodeFramePayload_eq_ok_iff.1 ha.decodes
    have h1 : Measured (Fram.appendValidTransaction Γ s frame.sequence frame.operations) (n + frame.payload.length) :=
      h.appendValidTransaction hi ha.upper fun o ho => ⟨(hl.loggable o ho).fits, hr.ranged o ho⟩
    have h2 := ih h1 (interned_appendValidTransaction hi _ _)
    refine Measured.mono h2 ?_
    rw [framesBytes_cons, List.length_append, length_frameBytes, he.length_eq]
    omega

section Folding

variable {spaceId : String} {frames : List TransactionFrame}

/-- A store that is folded from the frames of a chain has no more rows than they have bytes. -/
theorem Folds.measured (h : Folds Γ spaceId frames s) {payloads : List Bytes} (hc : Chain 1 payloads frames) :
    Measured s (framesBytes payloads).length := by
  obtain ⟨a, t, b, root, hr, ht⟩ := h
  have h0 : Measured root 0 := by
    unfold newTermStoreSized at hr
    split at hr
    · cases hr
      exact ⟨by simp, by simp, by simp, by simp [maxTransactionSequence]⟩
    · cases hr
  have := (h0.appendFrames (interned_newTermStoreSized Γ hr) hc).twin ht
  rwa [Nat.zero_add] at this

end Folding

/-! ## Rows -/

/-- A number that is not negative and below the bound is of 64 bits. -/
theorem inI64_of_lt {v : Int} (h0 : 0 ≤ v) (h : v < 2 ^ 63) : InI64 v := by
  unfold InI64
  omega

/-- A handle of a store of a size that a machine can hold is of 64 bits. -/
theorem inI64_of_validPrior {m k : Nat} {handle : Int} (hv : ValidPrior m k handle) (h : m + k < 2 ^ 62) : InI64 handle := by
  rcases hv with ⟨p, rfl, hp⟩ | ⟨p, rfl, hp⟩
  · exact inI64_of_lt (atomHandle_nonneg p) (by unfold atomHandle; omega)
  · exact inI64_of_lt (tripleHandle_nonneg p) (by unfold tripleHandle; omega)

theorem ordinal_of_mem_loggedFrom {q : Int} {ordinal : Nat} {operations : List CommitOperation} {e : LoggedOperation}
    (he : e ∈ loggedFrom q ordinal operations) : e.ordinal < ordinal + operations.length := by
  induction operations generalizing ordinal with
  | nil => simp [loggedFrom] at he
  | cons o operations ih =>
    rw [List.length_cons]
    rcases List.mem_cons.1 he with rfl | he
    · dsimp only
      omega
    · have := ih he
      omega

theorem transactionRow_of_mem {first : Nat} {frames : List TransactionFrame} {row : TransactionRow}
    (hr : row ∈ transactionRows first frames) : ∃ f ∈ frames, row.sequence = f.sequence ∧ 0 ≤ row.firstOperation ∧
      row.firstOperation ≤ first + (logOf frames).length ∧ 0 ≤ row.operationCount ∧
      row.operationCount ≤ (logOf frames).length := by
  induction frames generalizing first with
  | nil => simp [transactionRows] at hr
  | cons f frames ih =>
    have hl : (logOf (f :: frames)).length = f.operations.length + (logOf frames).length := by
      simp [logOf, TransactionFrame.logged]
    rcases List.mem_cons.1 hr with rfl | hr
    · exact ⟨f, List.mem_cons_self .., rfl, by simp, by dsimp only; omega, by simp, by dsimp only; omega⟩
    · obtain ⟨g, hg, h1, h2, h3, h4, h5⟩ := ih hr
      exact ⟨g, List.mem_cons_of_mem _ hg, h1, h2, by omega, h4, by omega⟩

end Bounds

end Fram
