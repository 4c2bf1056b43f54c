import Mathlib.Tactic

/-!
# Terms, rows and occurrences

The data of `src/fram/types.bgl`: atoms, recursive terms, the physical rows of a store, and the system records (occurrences,
withdrawals) that history is read back as.

Equality in the source is the host's `=`. It is structural, but on floats it is the equality of IEEE 754: a NaN is unequal to
itself and the two zeros are equal. So the source's `=` is not Lean's. It is `eqv` here, a `Bool` on each type, and Lean's `=`
is identity of values. `canon` erases the sign of zero, and `same` is agreement after erasing it: two terms are `eqv` exactly
when they are `same` and hold no NaN (`Term.eqv_iff`).
-/

namespace Fram

variable {a b : Term} {p q : Triple}

/-- A keyword, by its spelling without the leading colon. -/
structure Keyword where
  spelling : String
  deriving DecidableEq

/-- A typed failure of the source: the `:type` of its `ex-info` and its message. -/
structure Fault where
  type : Keyword
  message : String
  deriving DecidableEq

/-! ## Floats -/

/-- The bits of the one NaN that the host keeps: the wire makes every NaN pattern this one. -/
def canonicalNaN : BitVec 64 := 0x7ff8000000000000#64

/-- A NaN pattern: all exponent bits are set and some mantissa bit is. -/
def isNaNBits (b : BitVec 64) : Bool :=
  b &&& 0x7ff0000000000000#64 == 0x7ff0000000000000#64 && b &&& 0x000fffffffffffff#64 != 0#64

/-- A double, by its bits. A NaN has one pattern only, so that no two values differ by a NaN payload. -/
structure F64 where
  bits : BitVec 64
  canonical : isNaNBits bits = true → bits = canonicalNaN
  deriving DecidableEq

namespace F64

/-- The value is not a number. -/
def isNaN (x : F64) : Bool := isNaNBits x.bits

/-- One of the two zeros. -/
def isZero (x : F64) : Bool := x.bits == 0#64 || x.bits == 0x8000000000000000#64

/-- Positive zero. -/
def zero : F64 := ⟨0#64, by decide⟩

/-- Negative zero. -/
def negZero : F64 := ⟨0x8000000000000000#64, by decide⟩

/-- The NaN. -/
def nan : F64 := ⟨canonicalNaN, fun _ => rfl⟩

/-- The host's `=` on doubles: false on a NaN, true on two zeros of either sign, else equality of bits. -/
def eqv (x y : F64) : Bool :=
  !x.isNaN && !y.isNaN && (x.bits == y.bits || (x.isZero && y.isZero))

/-- The value with the sign of zero erased. -/
def canon (x : F64) : F64 := if x.isZero then zero else x

/-- A zero is a number. -/
theorem isNaN_of_isZero {x : F64} (h : x.isZero = true) : x.isNaN = false := by
  simp only [isZero, Bool.or_eq_true, beq_iff_eq] at h
  rcases h with h | h <;> simp [isNaN, h, isNaNBits]

/-- Erasing the sign of zero does not make a NaN or remove one. -/
@[simp] theorem isNaN_canon (x : F64) : x.canon.isNaN = x.isNaN := by
  unfold canon
  split
  · rename_i h
    rw [isNaN_of_isZero h]
    decide
  · rfl

/-- The host's `=` on doubles is agreement of two numbers up to the sign of zero. -/
theorem eqv_iff (x y : F64) : x.eqv y = true ↔ x.isNaN = false ∧ x.canon = y.canon := by
  have hext : ∀ {a b : F64}, a.bits = b.bits → a = b := by
    rintro ⟨a, ha⟩ ⟨b, hb⟩ h
    cases h
    rfl
  constructor
  · intro h
    simp only [eqv, Bool.and_eq_true, Bool.not_eq_true', Bool.or_eq_true, beq_iff_eq] at h
    obtain ⟨⟨hx, -⟩, h | ⟨h1, h2⟩⟩ := h
    · exact ⟨hx, by rw [hext h]⟩
    · exact ⟨hx, by simp [canon, h1, h2]⟩
  · rintro ⟨hx, hc⟩
    have hy : y.isNaN = false := by rw [← isNaN_canon, ← hc, isNaN_canon, hx]
    simp only [eqv, hx, hy, Bool.not_false, Bool.true_and, Bool.or_eq_true, beq_iff_eq, Bool.and_eq_true]
    unfold canon at hc
    split at hc <;> split at hc
    · rename_i h1 h2
      exact Or.inr ⟨h1, h2⟩
    · rename_i h1 h2
      exact absurd (by rw [← hc]; decide) h2
    · rename_i h1 h2
      exact absurd (by rw [hc]; decide) h1
    · exact Or.inl (congrArg bits hc)

end F64

/-! ## Atoms and terms -/

/-- A point in time: whole seconds of the epoch and nanoseconds in `[0, 10^9)`. -/
structure Instant where
  epochSeconds : Int
  nanos : Nat
  canonical : nanos < 1000000000
  deriving DecidableEq

/-- The grounding vocabulary of the term model. -/
inductive Atom where
  | string (s : String)
  | int (n : Int)
  | float (x : F64)
  | bool (b : Bool)
  | keyword (k : Keyword)
  | instant (i : Instant)
  deriving DecidableEq

namespace Atom

/-- The atom is the NaN. -/
def isNaN : Atom → Bool
  | .float x => x.isNaN
  | _ => false

/-- The atom with the sign of a float zero erased. -/
def canon : Atom → Atom
  | .float x => .float x.canon
  | a => a

/-- The host's `=` on atoms. -/
def eqv : Atom → Atom → Bool
  | .float x, .float y => x.eqv y
  | a, b => a == b

/-- The host's `=` on atoms is agreement of two atoms that are not NaN, up to the sign of zero. -/
theorem eqv_iff (a b : Atom) : a.eqv b = true ↔ a.isNaN = false ∧ a.canon = b.canon := by
  cases a <;> cases b <;> simp [eqv, isNaN, canon, F64.eqv_iff]

@[simp] theorem isNaN_canon (a : Atom) : a.canon.isNaN = a.isNaN := by
  cases a <;> simp [canon, isNaN]

end Atom

/-- A term: an atom, or a triple of terms. -/
inductive Term where
  | atom (a : Atom)
  | triple (t1 t2 t3 : Term)
  deriving DecidableEq

namespace Term

/-- A string term. -/
abbrev str (s : String) : Term := .atom (.string s)

/-- An integer term. -/
abbrev int (n : Int) : Term := .atom (.int n)

/-- A keyword term, by its spelling. -/
abbrev kw (s : String) : Term := .atom (.keyword ⟨s⟩)

/-- A Boolean term. -/
abbrev bool (b : Bool) : Term := .atom (.bool b)

/-- The host's `=` on terms: the same shape, and atoms equal one by one. -/
def eqv : Term → Term → Bool
  | .atom a, .atom b => a.eqv b
  | .triple a1 a2 a3, .triple b1 b2 b3 => a1.eqv b1 && a2.eqv b2 && a3.eqv b3
  | _, _ => false

/-- Some atom of the term is the NaN. -/
def hasNaN : Term → Bool
  | .atom a => a.isNaN
  | .triple t1 t2 t3 => t1.hasNaN || t2.hasNaN || t3.hasNaN

/-- The term with the sign of every float zero erased. -/
def canon : Term → Term
  | .atom a => .atom a.canon
  | .triple t1 t2 t3 => .triple t1.canon t2.canon t3.canon

/-- The two terms differ at most in the sign of float zeros. -/
def same (a b : Term) : Prop := a.canon = b.canon

@[simp] theorem same_refl (a : Term) : a.same a := rfl

theorem same.symm (h : a.same b) : b.same a := Eq.symm h

theorem same.trans {c : Term} (h : a.same b) (h' : b.same c) : a.same c := Eq.trans h h'

/-- Two triples are the same exactly when their parts are. -/
theorem same_triple_iff {a1 a2 a3 b1 b2 b3 : Term} : (triple a1 a2 a3).same (triple b1 b2 b3) ↔ a1.same b1 ∧ a2.same b2 ∧ a3.same b3 := by
  simp [same, canon]

@[simp] theorem hasNaN_canon (a : Term) : a.canon.hasNaN = a.hasNaN := by
  induction a with
  | atom a => simp [canon, hasNaN]
  | triple t1 t2 t3 h1 h2 h3 => simp [canon, hasNaN, h1, h2, h3]

/-- Terms that are the same hold a NaN together. -/
theorem same.hasNaN (h : a.same b) : a.hasNaN = b.hasNaN := by
  rw [← hasNaN_canon a, h, hasNaN_canon]

/-- The host's `=` on terms: the same up to the sign of zeros, and free of NaN. -/
theorem eqv_iff (a b : Term) : a.eqv b = true ↔ a.hasNaN = false ∧ a.same b := by
  induction a generalizing b with
  | atom a =>
    cases b with
    | atom b => simp [eqv, hasNaN, same, canon, Atom.eqv_iff]
    | triple b1 b2 b3 => simp [eqv, same, canon]
  | triple a1 a2 a3 h1 h2 h3 =>
    cases b with
    | atom b => simp [eqv, same, canon]
    | triple b1 b2 b3 =>
      simp only [eqv, Bool.and_eq_true, h1, h2, h3, hasNaN, Bool.or_eq_false_iff, same_triple_iff]
      tauto

theorem eqv_symm (h : a.eqv b = true) : b.eqv a = true := by
  rw [eqv_iff] at h ⊢
  exact ⟨by rw [← h.2.hasNaN, h.1], h.2.symm⟩

theorem eqv_trans {c : Term} (h : a.eqv b = true) (h' : b.eqv c = true) : a.eqv c = true := by
  rw [eqv_iff] at h h' ⊢
  exact ⟨h.1, h.2.trans h'.2⟩

/-- A term is equal to itself exactly when it holds no NaN. -/
theorem eqv_self_iff (a : Term) : a.eqv a = true ↔ a.hasNaN = false := by
  simp [eqv_iff]

/-- Equality reads a term only up to the sign of zeros. -/
theorem eqv_congr {a' b' : Term} (ha : a.same a') (hb : b.same b') : a.eqv b = a'.eqv b' := by
  rw [Bool.eq_iff_iff, eqv_iff, eqv_iff, ha.hasNaN]
  exact and_congr_right fun _ => ⟨fun h => ha.symm.trans (h.trans hb), fun h => ha.trans (h.trans hb.symm)⟩

end Term

/-- A triple of terms: the content of a proposition, and the shape of a coordinate. -/
structure Triple where
  t1 : Term
  t2 : Term
  t3 : Term
  deriving DecidableEq

namespace Triple

/-- The triple as a term. -/
def term (p : Triple) : Term := .triple p.t1 p.t2 p.t3

/-- The host's `=` on triples. -/
def eqv (p q : Triple) : Bool := p.term.eqv q.term

/-- Some atom of the triple is the NaN. -/
def hasNaN (p : Triple) : Bool := p.term.hasNaN

/-- The two triples differ at most in the sign of float zeros. -/
def same (p q : Triple) : Prop := p.term.same q.term

@[simp] theorem same_refl (p : Triple) : p.same p := rfl

theorem same.symm (h : p.same q) : q.same p := Eq.symm h

theorem same.trans {r : Triple} (h : p.same q) (h' : q.same r) : p.same r := Eq.trans h h'

theorem term_injective (h : p.term = q.term) : p = q := by
  cases p
  cases q
  simpa [term] using h

theorem eqv_iff (p q : Triple) : p.eqv q = true ↔ p.hasNaN = false ∧ p.same q := Term.eqv_iff _ _

theorem eqv_self_iff (p : Triple) : p.eqv p = true ↔ p.hasNaN = false := Term.eqv_self_iff _

theorem eqv_symm (h : p.eqv q = true) : q.eqv p = true := Term.eqv_symm h

theorem eqv_trans {r : Triple} (h : p.eqv q = true) (h' : q.eqv r = true) : p.eqv r = true := Term.eqv_trans h h'

theorem eqv_congr {p' q' : Triple} (hp : p.same p') (hq : q.same q') : p.eqv q = p'.eqv q' :=
  Term.eqv_congr hp hq

end Triple

/-- (`term-as-triple`) The triple a term is, if it is one. -/
def Term.asTriple : Term → Option Triple
  | .triple t1 t2 t3 => some ⟨t1, t2, t3⟩
  | .atom _ => none

@[simp] theorem Term.asTriple_term (p : Triple) : p.term.asTriple = some p := rfl

/-! ## The host

Hash tables are keyed by the host's `hash`, which only has to respect the host's `=`. The model takes it as a parameter.
-/

/-- The host's hash functions: equal values hash alike. -/
structure Host where
  hashInt : Int → Int
  hashAtom : Atom → Int
  hashRow : Int → Int → Int → Int
  hashOne : Term → Int
  hashTwo : Term → Term → Int
  hashAtom_eqv : ∀ a b, a.eqv b = true → hashAtom a = hashAtom b
  hashOne_eqv : ∀ a b, a.eqv b = true → hashOne a = hashOne b
  hashTwo_eqv : ∀ a b c d, a.eqv c = true → b.eqv d = true → hashTwo a b = hashTwo c d

/-- A host that hashes every value to zero. -/
def Host.zero : Host where
  hashInt _ := 0
  hashAtom _ := 0
  hashRow _ _ _ := 0
  hashOne _ := 0
  hashTwo _ _ := 0
  hashAtom_eqv _ _ _ := rfl
  hashOne_eqv _ _ _ := rfl
  hashTwo_eqv _ _ _ _ _ _ := rfl

/-! ## Rows -/

/-- The two actions of an operation. -/
inductive Action where
  | assert
  | retract
  deriving DecidableEq

/-- The handles of a triple's three parts. -/
structure TripleRow where
  t1 : Int
  t2 : Int
  t3 : Int
  deriving DecidableEq

/-- One transaction: its sequence and the slice of the operations it owns. -/
structure TransactionRow where
  sequence : Int
  firstOperation : Int
  operationCount : Int
  deriving DecidableEq

/-- One operation: where it stands, what it does, and the handle of its proposition. -/
structure OperationRow where
  txSequence : Int
  ordinal : Int
  action : Action
  tripleHandle : Int
  deriving DecidableEq

/-- The positions of the live assertions of one proposition handle, oldest first. -/
structure ActiveBucket where
  tripleHandle : Int
  positions : List Nat
  deriving DecidableEq

/-- An operation to commit. -/
structure CommitOperation where
  action : Action
  proposition : Triple
  deriving DecidableEq

/-- The operations of one transaction under its sequence. -/
structure TransactionFrame where
  sequence : Int
  operations : List CommitOperation
  deriving DecidableEq

/-- An operation as history shows it: its coordinate, action and proposition. -/
structure OperationOccurrence where
  coordinate : Triple
  action : Action
  proposition : Triple
  deriving DecidableEq

/-- A retraction and the assertion it withdrew. -/
structure Withdrawal where
  retraction : OperationOccurrence
  assertion : OperationOccurrence
  deriving DecidableEq

/-! ## Coordinates -/

/-- The second part of a transaction coordinate. -/
def txSequence : Term := .kw "kernel/tx-sequence"

/-- The second part of an occurrence coordinate. -/
def opOrdinal : Term := .kw "kernel/op-ordinal"

/-- (`transaction-coordinate`) The coordinate of a transaction. -/
def transactionCoordinate (spaceId : String) (sequence : Int) : Except Fault Triple :=
  if 0 < spaceId.length ∧ 0 ≤ sequence then
    .ok ⟨.str spaceId, txSequence, .int sequence⟩
  else
    .error ⟨⟨"invalid-transaction-coordinate"⟩, "fram: transaction coordinate requires a non-empty space and non-negative sequence"⟩

/-- (`transaction-coordinate?`) The term is a transaction coordinate. -/
def isTransactionCoordinate : Term → Bool
  | .triple (.atom (.string s)) t2 (.atom (.int n)) => decide (0 < s.length) && txSequence.eqv t2 && decide (0 ≤ n)
  | _ => false

/-- (`occurrence-coordinate`) The coordinate of an operation of a transaction. -/
def occurrenceCoordinate (tx : Triple) (ordinal : Int) : Except Fault Triple :=
  if isTransactionCoordinate tx.term = true ∧ 0 ≤ ordinal then
    .ok ⟨tx.term, opOrdinal, .int ordinal⟩
  else
    .error ⟨⟨"invalid-occurrence-coordinate"⟩, "fram: occurrence coordinate requires a transaction coordinate and non-negative ordinal"⟩

/-- (`occurrence-coordinate?`) The term is an occurrence coordinate. -/
def isOccurrenceCoordinate : Term → Bool
  | .triple t1 t2 (.atom (.int n)) => isTransactionCoordinate t1 && opOrdinal.eqv t2 && decide (0 ≤ n)
  | _ => false

/-- The space, sequence and ordinal that an occurrence coordinate names. -/
def occurrenceParts : Term → Option (String × Int × Int)
  | .triple (.triple (.atom (.string s)) _ (.atom (.int n))) _ (.atom (.int k)) => some (s, n, k)
  | _ => none

/-- (`occurrence-before?`) The order of two occurrences of one space. -/
def occurrenceBefore (left right : Triple) : Except Fault Bool :=
  if isOccurrenceCoordinate left.term = true ∧ isOccurrenceCoordinate right.term = true then
    match occurrenceParts left.term, occurrenceParts right.term with
    | some (leftSpace, leftSeq, leftOrdinal), some (rightSpace, rightSeq, rightOrdinal) =>
      if leftSpace = rightSpace then
        .ok (decide (leftSeq < rightSeq ∨ (leftSeq = rightSeq ∧ leftOrdinal < rightOrdinal)))
      else
        .error ⟨⟨"incomparable-occurrence-spaces"⟩, "fram: occurrences from different spaces have no shared order"⟩
    | _, _ => .error ⟨⟨"invalid-occurrence-order"⟩, "fram: occurrence ordering requires occurrence coordinates"⟩
  else
    .error ⟨⟨"invalid-occurrence-order"⟩, "fram: occurrence ordering requires occurrence coordinates"⟩

/-- (`operation-occurrence`) An occurrence of an operation. -/
def operationOccurrence (coordinate : Triple) (action : Action) (proposition : Triple) :
    Except Fault OperationOccurrence :=
  if isOccurrenceCoordinate coordinate.term = true then
    .ok ⟨coordinate, action, proposition⟩
  else
    .error ⟨⟨"invalid-operation-occurrence"⟩, "fram: operation occurrence requires a coordinate, action, and Triple proposition"⟩

/-- (`assertion-occurrence?`) The occurrence is an assertion under an occurrence coordinate. -/
def isAssertionOccurrence (o : OperationOccurrence) : Bool :=
  isOccurrenceCoordinate o.coordinate.term && decide (o.action = .assert)

/-- (`retraction-occurrence?`) The occurrence is a retraction under an occurrence coordinate. -/
def isRetractionOccurrence (o : OperationOccurrence) : Bool :=
  isOccurrenceCoordinate o.coordinate.term && decide (o.action = .retract)

/-- The fault of a pair that is no withdrawal. -/
def invalidWithdrawal : Fault :=
  ⟨⟨"invalid-withdrawal"⟩, "fram: withdrawal requires a later retraction of the same asserted proposition"⟩

/-- (`withdrawal`) A retraction paired with the assertion it withdrew: same proposition, same space, later. -/
def withdrawal (retraction assertion : OperationOccurrence) : Except Fault Withdrawal :=
  if isRetractionOccurrence retraction = true ∧ isAssertionOccurrence assertion = true then
    match occurrenceParts retraction.coordinate.term, occurrenceParts assertion.coordinate.term with
    | some (retractionSpace, _, _), some (assertionSpace, _, _) =>
      if retraction.proposition.eqv assertion.proposition = true ∧ retractionSpace = assertionSpace then do
        if ← occurrenceBefore assertion.coordinate retraction.coordinate then
          .ok ⟨retraction, assertion⟩
        else
          .error invalidWithdrawal
      else
        .error invalidWithdrawal
    | _, _ => .error invalidWithdrawal
  else
    .error invalidWithdrawal

section Coordinates

variable {spaceId : String} {sequence ordinal : Int}

/-- The coordinate of the operation at an ordinal of a transaction of a space. -/
def coordinateOf (spaceId : String) (sequence ordinal : Int) : Triple :=
  ⟨.triple (.str spaceId) txSequence (.int sequence), opOrdinal, .int ordinal⟩

theorem transactionCoordinate_ok (hs : 0 < spaceId.length) (hq : 0 ≤ sequence) :
    transactionCoordinate spaceId sequence = .ok ⟨.str spaceId, txSequence, .int sequence⟩ := by
  simp [transactionCoordinate, hs, hq]

theorem isTransactionCoordinate_mk (hs : 0 < spaceId.length) (hq : 0 ≤ sequence) :
    isTransactionCoordinate (.triple (.str spaceId) txSequence (.int sequence)) = true := by
  simp [isTransactionCoordinate, hs, hq, txSequence, Term.eqv, Atom.eqv]

theorem isOccurrenceCoordinate_coordinateOf (hs : 0 < spaceId.length) (hq : 0 ≤ sequence) (ho : 0 ≤ ordinal) :
    isOccurrenceCoordinate (coordinateOf spaceId sequence ordinal).term = true := by
  simp [isOccurrenceCoordinate, coordinateOf, Triple.term, isTransactionCoordinate_mk hs hq, ho, opOrdinal, Term.eqv, Atom.eqv]

/-- The coordinate of an operation, built the way the source builds it. -/
theorem occurrenceCoordinate_ok (hs : 0 < spaceId.length) (hq : 0 ≤ sequence) (ho : 0 ≤ ordinal) :
    (transactionCoordinate spaceId sequence >>= fun tx => occurrenceCoordinate tx ordinal) =
      .ok (coordinateOf spaceId sequence ordinal) := by
  rw [transactionCoordinate_ok hs hq]
  simp [bind, Except.bind, occurrenceCoordinate, Triple.term, isTransactionCoordinate_mk hs hq, ho, coordinateOf]

@[simp] theorem occurrenceParts_coordinateOf :
    occurrenceParts (coordinateOf spaceId sequence ordinal).term = some (spaceId, sequence, ordinal) := rfl

theorem occurrenceBefore_coordinateOf {sequence' ordinal' : Int} (hs : 0 < spaceId.length) (hq : 0 ≤ sequence)
    (ho : 0 ≤ ordinal) (hq' : 0 ≤ sequence') (ho' : 0 ≤ ordinal') :
    occurrenceBefore (coordinateOf spaceId sequence ordinal) (coordinateOf spaceId sequence' ordinal') =
      .ok (decide (sequence < sequence' ∨ (sequence = sequence' ∧ ordinal < ordinal'))) := by
  simp [occurrenceBefore, isOccurrenceCoordinate_coordinateOf hs hq ho, isOccurrenceCoordinate_coordinateOf hs hq' ho']

end Coordinates

end Fram
