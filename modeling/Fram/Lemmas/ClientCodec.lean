import Fram.Lemmas.CommitRequest
import Fram.Lemmas.Request
import Fram.ClientCodec

/-!
# What the client writes and reads

A term that the client accepts stands for a term of the engine and is written as its bytes (`Written`). Of the bytes of a term the
client reads the term less the byte order marks in front of its texts, or fails where a keyword was nothing but a mark
(`reads_readTermAt`).
-/

namespace Fram.Client

open Database (scalars utf16 scalars_utf16 utf16_injective)
open Reader LittleEndian
open Lines (Text)

variable {label : String} {depth k : Nat} {t : JsTerm} {α β : Type} {u v : Bytes} {good : Prop} {x : Term}

/-! ## Numbers and texts -/

theorem bigIntOfText_toString (n : Int) : bigIntOfText (toString n).toList = n := by
  rw [Decimal.toList_toString_int]
  split
  · rename_i h
    have hminus : ∀ digits, Nat.toDigits 10 n.toNat ≠ '-' :: digits := by
      intro digits hd
      have := Decimal.isDigit_toDigits (n := n.toNat) (hd ▸ List.mem_cons_self)
      exact absurd this (by decide)
    have hv := Decimal.value_toDigits n.toNat
    rw [bigIntOfText.eq_def]
    split
    · rename_i digits hd
      exact absurd hd (hminus digits)
    · rw [hv]
      omega
  · rw [bigIntOfText, Decimal.value_toDigits]
    omega

/-- The text of an integer that is in range. -/
theorem decimal_eq_ok {value : JsInteger} {min max : Int} {text : Text} (h : decimal value label min max = .ok text) :
    bigIntOfText text = value.toInt ∧ min ≤ value.toInt ∧ value.toInt ≤ max := by
  simp only [decimal, ExceptList.bind_eq_ok_iff] at h
  obtain ⟨t, ht, h⟩ := h
  have hv : bigIntOfText t = value.toInt := by
    cases value with
    | bigint n =>
      cases ht
      exact bigIntOfText_toString n
    | number n =>
      simp only [integerText] at ht
      split at ht
      · cases ht
        exact bigIntOfText_toString n
      · cases ht
    | text t' =>
      simp only [integerText] at ht
      split at ht
      · cases ht
        rfl
      · cases ht
  split at h
  · cases h
  · split at h
    · cases h
    · rename_i hrange
      cases h
      exact ⟨hv, by omega, by omega⟩

theorem integerBigInt_eq_ok {value : JsInteger} {min max n : Int} (h : integerBigInt value label min max = .ok n) :
    n = value.toInt ∧ min ≤ n ∧ n ≤ max := by
  simp only [integerBigInt, ExceptList.bind_eq_ok_iff] at h
  obtain ⟨text, ht, h⟩ := h
  obtain ⟨hv, h1, h2⟩ := decimal_eq_ok ht
  cases h
  exact ⟨hv, by omega, by omega⟩

/-- The string that the units of a text are, and its bytes. -/
theorem strictUtf8_eq_ok {value : List UInt16} {maximum : Nat} {bytes : Bytes} (h : strictUtf8 value maximum label = .ok bytes) :
    ∃ s : String, scalars value = some s.toList ∧ bytes = utf8Encode s ∧ bytes.length ≤ maximum := by
  simp only [strictUtf8] at h
  cases hs : scalars value with
  | none =>
    rw [hs] at h
    cases h
  | some cs =>
    rw [hs] at h
    dsimp only at h
    split at h
    · cases h
    · rename_i hl
      cases h
      exact ⟨String.ofList cs, by rw [String.toList_ofList], rfl, by omega⟩

/-! ## Terms that are written -/

/-- The term of the engine that a tagged array stands for. -/
def JsTerm.value : JsTerm → Option Term
  | .string value => (scalars value).map fun cs => .str (String.ofList cs)
  | .integer value => some (.int value.toInt)
  | .float64 bits => some (.atom (.float (F64.ofBits (i64OfNat (Hex.value bits)))))
  | .boolean value => some (.bool value)
  | .keyword spelling => (scalars spelling).map fun cs => .kw (String.ofList cs)
  | .instant seconds nanos =>
    if h : 0 ≤ nanos.toInt ∧ nanos.toInt.toNat < 1000000000 then some (.atom (.instant ⟨seconds.toInt, nanos.toInt.toNat, h.2⟩)) else none
  | .triple t1 t2 t3 =>
    match t1.value, t2.value, t3.value with
    | some x1, some x2, some x3 => some (.triple x1 x2 x3)
    | _, _, _ => none

/-- The tagged array at a depth stands for a term within the limits, which is written as its bytes. -/
structure Written (t : JsTerm) (depth : Nat) (before after : Budget) (x : Term) : Prop where
  value : t.value = some x
  bytes : writeTermUnchecked t = .ok x.bytes
  nodes : after.nodes = before.nodes + x.nodes
  nodes_le : after.nodes ≤ MAX_TERM_NODES
  depth_le : depth + x.height ≤ MAX_TERM_DEPTH
  fits : x.Fits MAX_STRING_BYTES
  ranged : x.Ranged

theorem countTerm_eq_ok {budget budget' : Budget} (h : countTerm depth budget = .ok budget') :
    budget'.nodes = budget.nodes + 1 ∧ budget'.nodes ≤ MAX_TERM_NODES ∧ depth ≤ MAX_TERM_DEPTH := by
  simp only [countTerm] at h
  split at h
  · cases h
  · split at h
    · cases h
    · cases h
      exact ⟨rfl, by simp only; omega, by omega⟩

/-- An atom, once its node is counted. -/
theorem Written.atom {before after : Budget} (h : countTerm depth before = .ok after) {a : Atom}
    (hv : t.value = some (.atom a)) (hb : writeTermUnchecked t = .ok a.bytes) (hf : a.Fits MAX_STRING_BYTES) (hr : a.Ranged) :
    Written t depth before after (.atom a) := by
  obtain ⟨h1, h2, h3⟩ := countTerm_eq_ok h
  exact ⟨hv, hb, h1, h2, h3, hf, hr⟩

/-- A pattern that is not a NaN is the pattern of its double. -/
theorem bits_ofBits_of_not_nan {n : Nat} (hn : n < 256 ^ 8) (h : isNaNBits (BitVec.ofNat 64 n) = false) :
    (F64.ofBits (i64OfNat n)).bits.toNat = n := by
  refine bits_ofBits hn ?_
  simp only [F64.isNaN, F64.ofBits, i64OfNat, BitVec.ofInt_toInt]
  rw [dif_neg (by rw [h]; decide)]
  exact h

/-- The bits of a double that the client accepts are those of the double. -/
theorem canonicalFloatBits_eq_ok {bits bits' : Text} (h : canonicalFloatBits bits = .ok bits') :
    Hex.value bits < 256 ^ 8 ∧ (F64.ofBits (i64OfNat (Hex.value bits))).bits.toNat = Hex.value bits := by
  simp only [canonicalFloatBits] at h
  split at h
  · cases h
  rename_i htext
  split at h
  · cases h
  rename_i hnan
  simp only [Bool.not_eq_true, Bool.not_eq_false', isFloat64Text, Bool.and_eq_true, decide_eq_true_eq, List.all_eq_true] at htext
  have hlt : Hex.value bits < 256 ^ 8 := by
    have := Hex.value_lt htext.2
    rw [htext.1] at this
    norm_num at this ⊢
    exact this
  refine ⟨hlt, ?_⟩
  cases hn : isNaNBits (BitVec.ofNat 64 (Hex.value bits)) with
  | false => exact bits_ofBits_of_not_nan hlt hn
  | true =>
    have hcanonical : bits = canonicalNaNText := by simpa [hn] using hnan
    rw [hcanonical]
    with_unfolding_all decide

theorem natOfI64_of_nonneg {n : Int} (h0 : 0 ≤ n) (h : n < 4294967296) : (n % 4294967296).toNat = n.toNat := by
  rw [Int.emod_eq_of_lt h0 h]

/-- What the client accepts as a term at a depth. -/
theorem written_of_validateTerm {before after : Budget} (h : validateTerm t depth before = .ok after) :
    ∃ x, Written t depth before after x := by
  induction t generalizing depth before after with
  | string value =>
    simp only [validateTerm, ExceptList.bind_eq_ok_iff, Except.ok.injEq] at h
    obtain ⟨b, hc, bytes, ht, rfl⟩ := h
    obtain ⟨s, hs, rfl, hl⟩ := strictUtf8_eq_ok ht
    refine ⟨_, Written.atom hc (a := .string s) ?_ ?_ hl trivial⟩
    · rw [JsTerm.value, hs, Option.map_some, String.ofList_toList]
    · simp only [writeTermUnchecked, writeText, ht]
      rfl
  | integer value =>
    simp only [validateTerm, ExceptList.bind_eq_ok_iff, Except.ok.injEq] at h
    obtain ⟨b, hc, text, ht, rfl⟩ := h
    obtain ⟨-, h1, h2⟩ := decimal_eq_ok ht
    exact ⟨_, Written.atom hc (a := .int value.toInt) rfl rfl trivial ⟨h1, h2⟩⟩
  | float64 bits =>
    simp only [validateTerm, ExceptList.bind_eq_ok_iff, Except.ok.injEq] at h
    obtain ⟨b, hc, text, ht, rfl⟩ := h
    obtain ⟨-, hb⟩ := canonicalFloatBits_eq_ok ht
    refine ⟨_, Written.atom hc (a := .float (F64.ofBits (i64OfNat (Hex.value bits)))) rfl ?_ trivial trivial⟩
    rw [writeTermUnchecked, Atom.bytes, natOfI64_toBits, hb]
  | boolean value =>
    refine ⟨_, Written.atom h (a := .bool value) rfl ?_ trivial trivial⟩
    cases value <;> rfl
  | keyword spelling =>
    simp only [validateTerm, checkKeyword, ExceptList.bind_eq_ok_iff, Except.ok.injEq] at h
    obtain ⟨b, hc, _, ⟨bytes, ht, hk⟩, rfl⟩ := h
    obtain ⟨s, hs, rfl, hl⟩ := strictUtf8_eq_ok ht
    split at hk
    · cases hk
    rename_i hne
    refine ⟨_, Written.atom hc (a := .keyword ⟨s⟩) ?_ ?_ ⟨?_, hl⟩ trivial⟩
    · rw [JsTerm.value, hs, Option.map_some, String.ofList_toList]
    · simp only [writeTermUnchecked, writeText, ht]
      rfl
    · intro he
      exact hne (by rw [utf8Encode_eq_nil_iff.2 he]; rfl)
  | instant seconds nanos =>
    simp only [validateTerm, ExceptList.bind_eq_ok_iff, Except.ok.injEq] at h
    obtain ⟨b, hc, text, ht, text', ht', rfl⟩ := h
    obtain ⟨-, h1, h2⟩ := decimal_eq_ok ht
    obtain ⟨-, h3, h4⟩ := decimal_eq_ok ht'
    have hn : 0 ≤ nanos.toInt ∧ nanos.toInt.toNat < 1000000000 := ⟨h3, by omega⟩
    refine ⟨_, Written.atom hc (a := .instant ⟨seconds.toInt, nanos.toInt.toNat, hn.2⟩) ?_ ?_ trivial ⟨h1, h2⟩⟩
    · rw [JsTerm.value, dif_pos hn]
    · rw [writeTermUnchecked, natOfI64_of_nonneg h3 (by omega)]
      rfl
  | triple t1 t2 t3 ih1 ih2 ih3 =>
    simp only [validateTerm, ExceptList.bind_eq_ok_iff] at h
    obtain ⟨b, hc, b1, h1, b2, h2, h3⟩ := h
    obtain ⟨hcount, -, -⟩ := countTerm_eq_ok hc
    obtain ⟨x1, w1⟩ := ih1 h1
    obtain ⟨x2, w2⟩ := ih2 h2
    obtain ⟨x3, w3⟩ := ih3 h3
    refine ⟨.triple x1 x2 x3, ?_, ?_, ?_, w3.nodes_le, ?_, ⟨w1.fits, w2.fits, w3.fits⟩, w1.ranged, w2.ranged, w3.ranged⟩
    · rw [JsTerm.value, w1.value, w2.value, w3.value]
    · simp only [writeTermUnchecked, w1.bytes, w2.bytes, w3.bytes]
      rfl
    · rw [w3.nodes, w2.nodes, w1.nodes, hcount, Term.nodes]
      omega
    · have := w1.depth_le
      have := w2.depth_le
      have := w3.depth_le
      rw [Term.height]
      omega

/-! ## Reading -/

/-- Of the bytes, whatever follows them, the reader returns the value and counts the nodes, where the condition holds; where it does not
hold, the reader fails. -/
def Reads {α : Type} (p : ClientRead α) (used : Bytes) (good : Prop) (a : α) (nodes : Nat) : Prop :=
  ∀ rest n, n + nodes ≤ MAX_TERM_NODES →
    (good → p ⟨used ++ rest, n⟩ = .ok (a, ⟨rest, n + nodes⟩)) ∧ (¬good → ∃ e, p ⟨used ++ rest, n⟩ = .error e)

theorem Reads.bind {p : ClientRead α} {f : α → ClientRead β} {good' : Prop} {a : α} {b : β} {k' : Nat}
    (h : Reads p u good a k) (h' : Reads (f a) v good' b k') : Reads (p >>= f) (u ++ v) (good ∧ good') b (k + k') := by
  intro rest n hn
  obtain ⟨h1, h2⟩ := h (v ++ rest) n (by omega)
  obtain ⟨h3, h4⟩ := h' rest (n + k) (by omega)
  rw [List.append_assoc, ← Nat.add_assoc]
  constructor
  · intro hgood
    rw [bind_of_ok (h1 hgood.1)]
    exact h3 hgood.2
  · intro hbad
    by_cases hg : good
    · rw [bind_of_ok (h1 hg)]
      exact h4 fun hg' => hbad ⟨hg, hg'⟩
    · obtain ⟨e, he⟩ := h2 hg
      exact ⟨e, bind_of_error he⟩

theorem Reads.congr {p : ClientRead α} {u' : Bytes} {good' : Prop} {a a' : α} {k' : Nat} (h : Reads p u good a k)
    (hu : u = u') (hg : good ↔ good') (ha : a = a') (hk : k = k') : Reads p u' good' a' k' := by
  subst hu ha hk
  intro rest n hn
  rw [← hg]
  exact h rest n hn

theorem reads_pure (a : α) : Reads (pure a : ClientRead α) [] True a 0 := by
  intro rest n _
  exact ⟨fun _ => rfl, fun h => absurd trivial h⟩

/-- A value that is made of what is read. -/
theorem Reads.map {p : ClientRead α} {a : α} (h : Reads p u good a k) (f : α → β) : Reads (p >>= fun x => pure (f x)) u good (f a) k :=
  (h.bind (reads_pure (f a))).congr (List.append_nil _) (and_iff_left trivial) rfl rfl

/-- A reader behind one that always succeeds and counts nothing. -/
theorem Reads.after {p : ClientRead α} {f : α → ClientRead β} {a : α} {b : β}
    (h : Reads p u True a 0) (h' : Reads (f a) v good b k) : Reads (p >>= f) (u ++ v) good b k :=
  (h.bind h').congr rfl (and_iff_right trivial) rfl (Nat.zero_add k)

theorem reads_fail (message code : String) (a : α) (k : Nat) : Reads (readFail message code : ClientRead α) [] False a k := by
  intro rest n _
  exact ⟨fun h => h.elim, fun _ => ⟨_, rfl⟩⟩

theorem reads_takeEnsured {count : Nat} (context : String) {bytes : Bytes} (h : bytes.length = count) :
    Reads (takeEnsured count context) bytes True bytes 0 := by
  intro rest n _
  refine ⟨fun _ => ?_, fun h => absurd trivial h⟩
  subst h
  rw [takeEnsured, if_pos (by simp), List.take_left', List.drop_left'] <;> rfl

theorem reads_readUnsigned {count value : Nat} (context : String) (h : value < 256 ^ count) :
    Reads (readUnsigned count context) (toBytes count value) True value 0 :=
  ((reads_takeEnsured context (length_toBytes count value)).map ofBytes).congr rfl Iff.rfl (ofBytes_toBytes_of_lt h) rfl

theorem reads_byte (context : String) {value : Nat} (h : value < 256) : Reads (readUnsigned 1 context) [UInt8.ofNat value] True value 0 := by
  have hread := @reads_readUnsigned 1 value context (by rwa [Nat.pow_one])
  exact hread.congr (by simp [toBytes]) Iff.rfl rfl rfl

theorem reads_readI64 (context : String) {value : Int} (h : InI64 value) :
    Reads (readI64 context) (toBytes 8 (natOfI64 value)) True value 0 :=
  ((reads_readUnsigned context (natOfI64_lt value)).map i64OfNat).congr rfl Iff.rfl (i64OfNat_natOfI64 h) rfl

theorem reads_readFlag (context code : String) (b : Bool) : Reads (readFlag context code) [if b then 1 else 0] True b 0 := by
  cases b
  · exact Reads.after (reads_byte context (by decide : 0 < 256)) (reads_pure false)
  · exact Reads.after (reads_byte context (by decide : 1 < 256)) (reads_pure true)

theorem reads_readText {maximum : Nat} (context : String) {s : String} (h : (utf8Encode s).length ≤ maximum) (hm : maximum < 256 ^ 4) :
    Reads (readText maximum context) (sizedText s) True (utf16 (withoutMark s)) 0 := by
  refine Reads.after (reads_readUnsigned _ (by omega)) ?_
  rw [if_neg (by omega), ← List.append_nil (utf8Encode s)]
  refine Reads.after (reads_takeEnsured context (by rw [List.append_nil])) ?_
  rw [textDecode_utf8Encode]
  exact reads_pure _

theorem reads_countNode : Reads countNode [] True () 1 := by
  intro rest n hn
  refine ⟨fun _ => ?_, fun h => absurd trivial h⟩
  rw [countNode, if_neg (by dsimp only; omega)]
  rfl

/-! ## Terms that are read -/

/-- A text of the atom begins with no byte order mark. -/
def Unmarked : Atom → Prop
  | .string s => marked s = false
  | .keyword k => marked k.spelling = false
  | _ => True

instance : DecidablePred Unmarked
  | .string s => inferInstanceAs (Decidable (marked s = false))
  | .keyword k => inferInstanceAs (Decidable (marked k.spelling = false))
  | .int _ | .float _ | .bool _ | .instant _ => inferInstanceAs (Decidable True)

/-- A keyword is more than a byte order mark. -/
def Named : Atom → Prop
  | .keyword k => withoutMark k.spelling = "" → k.spelling = ""
  | _ => True

/-- What the client reads of an atom. -/
def seenAtom : Atom → JsTerm
  | .string s => .string (utf16 (withoutMark s))
  | .int n => .integer (.text (toString n).toList)
  | .float x => .float64 (Hex.digits 16 x.bits.toNat)
  | .bool b => .boolean b
  | .keyword k => .keyword (utf16 (withoutMark k.spelling))
  | .instant i => .instant (.text (toString i.epochSeconds).toList) (.text (toString (i.nanos : Int)).toList)

/-- What the client reads of a term. -/
def seen : Term → JsTerm
  | .atom a => seenAtom a
  | .triple t1 t2 t3 => .triple (seen t1) (seen t2) (seen t3)

theorem utf16_ne_nil {s : String} (h : s ≠ "") : utf16 s ≠ [] := by
  intro he
  exact h (utf16_injective (he.trans (by rfl)))

theorem floatTerm_bits (x : F64) : floatTerm x.bits.toNat = pure (.float64 (Hex.digits 16 x.bits.toNat)) := by
  have hcanonical : isNaNBits x.bits = true → Hex.digits 16 x.bits.toNat = canonicalNaNText := by
    intro h
    rw [x.canonical h]
    with_unfolding_all decide
  have hvalue : Hex.value (Hex.digits 16 x.bits.toNat) = x.bits.toNat := by
    rw [Hex.value_digits]
    exact Nat.mod_eq_of_lt (by have := x.bits.isLt; norm_num at this ⊢; omega)
  have htext : isFloat64Text (Hex.digits 16 x.bits.toNat) = true := by
    simp only [isFloat64Text, Bool.and_eq_true, decide_eq_true_eq, List.all_eq_true]
    exact ⟨Hex.length_digits _ _, fun c hc => Hex.isDigit_of_mem_digits hc⟩
  have hbits : canonicalFloatBits (Hex.digits 16 x.bits.toNat) = .ok (Hex.digits 16 x.bits.toNat) := by
    rw [canonicalFloatBits, if_neg (by simp [htext]), if_neg]
    rw [hvalue, BitVec.ofNat_toNat, BitVec.setWidth_eq]
    simpa using hcanonical
  rw [floatTerm, hbits]
  dsimp only
  rw [BitVec.ofNat_toNat, BitVec.setWidth_eq]
  split
  · rename_i h
    rw [hcanonical h]
  · rfl

/-- A term from its tag on. -/
theorem Reads.node {f : Nat → ClientRead JsTerm} {tag : Nat} (ht : tag < 256) (h : Reads (f tag) v good t k) : Reads (do
      countNode
      let tag ← readUnsigned 1 "Term tag"
      f tag) (UInt8.ofNat tag :: v) good t (k + 1) :=
  (Reads.bind reads_countNode (Reads.after (reads_byte "Term tag" ht) h)).congr rfl (and_iff_right trivial) rfl (Nat.add_comm 1 k)

/-- Of the bytes of an atom the client reads the atom without the mark of its text. -/
theorem reads_atom {a : Atom} (room : Nat) (hf : a.Fits MAX_STRING_BYTES) (hr : a.Ranged) :
    Reads (readTermAt (room + 1)) a.bytes (Named a) (seenAtom a) 1 := by
  unfold readTermAt
  cases a with
  | string s =>
    refine Reads.node (by decide : 1 < 256) ?_
    rw [if_pos rfl]
    exact (reads_readText _ hf (by decide)).map _
  | int n =>
    refine Reads.node (by decide : 2 < 256) ?_
    rw [if_neg (by decide), if_pos rfl]
    exact (reads_readI64 _ hr).map _
  | float x =>
    have hbits : toBytes 8 (natOfI64 x.toBits) = toBytes 8 x.bits.toNat := by rw [natOfI64_toBits]
    refine (Reads.node (by decide : 3 < 256) ?_).congr (congrArg _ hbits.symm) Iff.rfl rfl rfl
    rw [if_neg (by decide), if_neg (by decide), if_pos rfl, ← List.append_nil (toBytes _ _)]
    refine Reads.after (reads_readUnsigned _ (by have := x.bits.isLt; norm_num at this ⊢; omega)) ?_
    rw [floatTerm_bits]
    exact reads_pure _
  | bool b =>
    cases b
    · refine Reads.node (by decide : 4 < 256) ?_
      rw [if_neg (by decide), if_neg (by decide), if_neg (by decide), if_pos rfl]
      exact reads_pure _
    · refine Reads.node (by decide : 5 < 256) ?_
      rw [if_neg (by decide), if_neg (by decide), if_neg (by decide), if_neg (by decide), if_pos rfl]
      exact reads_pure _
  | keyword k =>
    refine Reads.node (by decide : 6 < 256) ?_
    rw [if_neg (by decide), if_neg (by decide), if_neg (by decide), if_neg (by decide), if_neg (by decide), if_pos rfl]
    rw [← List.append_nil (sizedText _)]
    refine Reads.after (reads_readText _ hf.2 (by decide)) ?_
    by_cases hn : withoutMark k.spelling = ""
    · rw [hn, if_pos (show utf16 "" = [] from rfl)]
      exact (reads_fail _ _ _ 0).congr rfl (by simp [Named, hn, hf.1]) rfl rfl
    · rw [if_neg (utf16_ne_nil hn)]
      exact (reads_pure _).congr rfl (by simp [Named, hn]) rfl rfl
  | instant i =>
    refine Reads.node (by decide : 8 < 256) ?_
    rw [if_neg (by decide), if_neg (by decide), if_neg (by decide), if_neg (by decide), if_neg (by decide), if_neg (by decide),
      if_neg (by decide), if_pos rfl]
    have hn := i.canonical
    refine Reads.after (reads_readI64 _ hr) ?_
    rw [← List.append_nil (toBytes 4 _)]
    refine Reads.after (reads_readUnsigned _ (by norm_num; omega)) ?_
    rw [if_neg (by omega)]
    exact reads_pure _

/-- Of the bytes of a term the client reads the term without the marks of its texts, or fails where a keyword is nothing but a mark. -/
theorem reads_readTermAt {room : Nat} (hh : x.height < room) (hf : x.Fits MAX_STRING_BYTES) (hr : x.Ranged) :
    Reads (readTermAt room) x.bytes (x.All Named) (seen x) x.nodes := by
  induction x generalizing room with
  | atom a =>
    cases room with
    | zero => cases hh
    | succ room => exact reads_atom room hf hr
  | triple t1 t2 t3 ih1 ih2 ih3 =>
    cases room with
    | zero => cases hh
    | succ room =>
      rw [Term.height] at hh
      have h1 := @ih1 room (by omega) hf.1 hr.1
      have h2 := @ih2 room (by omega) hf.2.1 hr.2.1
      have h3 := @ih3 room (by omega) hf.2.2 hr.2.2
      have hnodes : t1.nodes + (t2.nodes + t3.nodes) + 1 = (Term.triple t1 t2 t3).nodes := by
        rw [Term.nodes]
        omega
      unfold readTermAt
      refine Reads.congr (Reads.node (by decide : 7 < 256) ?_) rfl Iff.rfl rfl hnodes
      rw [if_neg (by decide), if_neg (by decide), if_neg (by decide), if_neg (by decide), if_neg (by decide), if_neg (by decide),
        if_pos rfl]
      exact h1.bind (h2.bind (h3.map _))

/-- The atom without the mark of its text. -/
def withoutMarks : Term → Term
  | .atom (.string s) => .str (withoutMark s)
  | .atom (.keyword k) => .kw (withoutMark k.spelling)
  | .atom a => .atom a
  | .triple t1 t2 t3 => .triple (withoutMarks t1) (withoutMarks t2) (withoutMarks t3)

theorem withoutMarks_eq_iff : withoutMarks x = x ↔ x.All Unmarked := by
  induction x with
  | atom a =>
    cases a with
    | string s => simp only [withoutMarks, Term.str, Term.atom.injEq, Atom.string.injEq, withoutMark_eq_iff, Term.All, Unmarked]
    | keyword k =>
      simp only [withoutMarks, Term.kw, Term.atom.injEq, Atom.keyword.injEq, Term.All, Unmarked]
      rw [← withoutMark_eq_iff]
      exact ⟨fun h => congrArg Keyword.spelling h, fun h => by rw [h]⟩
    | _ => exact iff_of_true rfl trivial
  | triple t1 t2 t3 h1 h2 h3 => simp only [withoutMarks, Term.triple.injEq, h1, h2, h3, Term.All]

/-- A keyword without a mark is more than a mark. -/
theorem named_of_unmarked {a : Atom} (h : Unmarked a) : Named a := by
  cases a with
  | keyword k =>
    intro he
    rwa [withoutMark_eq_iff.2 h] at he
  | _ => trivial

/-- What is read of a term stands for the term without its marks. -/
theorem value_seen (x : Term) : (seen x).value = some (withoutMarks x) := by
  induction x with
  | atom a =>
    cases a with
    | string s =>
      rw [seen, seenAtom, JsTerm.value, scalars_utf16, Option.map_some, String.ofList_toList]
      rfl
    | int n =>
      rw [seen, seenAtom, JsTerm.value, JsInteger.toInt, bigIntOfText_toString]
      rfl
    | float x =>
      have hvalue : Hex.value (Hex.digits 16 x.bits.toNat) = x.bits.toNat := by
        rw [Hex.value_digits]
        exact Nat.mod_eq_of_lt (by have := x.bits.isLt; norm_num at this ⊢; omega)
      rw [seen, seenAtom, JsTerm.value, hvalue, ofBits_i64OfNat_toNat]
      rfl
    | bool b => rfl
    | keyword k =>
      rw [seen, seenAtom, JsTerm.value, scalars_utf16, Option.map_some, String.ofList_toList]
      rfl
    | instant i =>
      have hn : 0 ≤ (i.nanos : Int) ∧ (i.nanos : Int).toNat < 1000000000 := ⟨by omega, by have := i.canonical; omega⟩
      simp only [seen, seenAtom, JsTerm.value, JsInteger.toInt, bigIntOfText_toString]
      rw [dif_pos hn]
      rfl
  | triple t1 t2 t3 h1 h2 h3 =>
    rw [seen, JsTerm.value, h1, h2, h3]
    rfl

/-- What is read of a term stands for it where no text of it begins with a mark. -/
theorem value_seen_iff : (seen x).value = some x ↔ x.All Unmarked := by
  rw [value_seen, Option.some.injEq, withoutMarks_eq_iff]

end Fram.Client
