import Fram.Wire

/-!
# What the wire codec reads and writes

Every writer is described by the bytes and the nodes it adds and the condition under which it succeeds (`Writes`), every reader by
the bytes it takes (`Reader.Exact`). For terms both come down to one function, `Term.bytes`: a term that fits the limits is written
as its bytes (`writes_appendTermLimited`), and what is read as a term is its bytes, but for the pattern of a NaN
(`exact_readTermAt`).
-/

namespace Fram

open Reader LittleEndian

variable {t : Term} {n maxStringBytes : Nat} {w : Write}

/-! ## The bytes of a term -/

/-- The number is one of 64 signed bits. -/
def InI64 (v : Int) : Prop := -9223372036854775808 ≤ v ∧ v ≤ 9223372036854775807

/-- The bytes of a text after its length. -/
def sizedText (s : String) : Bytes := toBytes 4 (utf8Encode s).length ++ utf8Encode s

/-- The bytes of an atom. -/
def Atom.bytes : Atom → Bytes
  | .string s => 1 :: sizedText s
  | .int n => 2 :: toBytes 8 (natOfI64 n)
  | .float x => 3 :: toBytes 8 (natOfI64 x.toBits)
  | .bool false => [4]
  | .bool true => [5]
  | .keyword k => 6 :: sizedText k.spelling
  | .instant i => 8 :: (toBytes 8 (natOfI64 i.epochSeconds) ++ toBytes 4 i.nanos)

/-- The bytes of a term. -/
def Term.bytes : Term → Bytes
  | .atom a => a.bytes
  | .triple t1 t2 t3 => 7 :: (t1.bytes ++ (t2.bytes ++ t3.bytes))

theorem Term.bytes_length_pos (t : Term) : 0 < t.bytes.length := by
  cases t with
  | atom a =>
    cases a with
    | bool b => cases b <;> exact Nat.one_pos
    | _ => exact Nat.succ_pos _
  | triple t1 t2 t3 => exact Nat.succ_pos _

/-- The nodes of a term. -/
def Term.nodes : Term → Nat
  | .atom _ => 1
  | .triple t1 t2 t3 => 1 + t1.nodes + t2.nodes + t3.nodes

theorem Term.nodes_pos (t : Term) : 1 ≤ t.nodes := by
  cases t with
  | atom a => exact Nat.le_refl 1
  | triple t1 t2 t3 =>
    rw [Term.nodes]
    omega

/-- The levels of nesting of a term. -/
def Term.height : Term → Nat
  | .atom _ => 0
  | .triple t1 t2 t3 => 1 + max t1.height (max t2.height t3.height)

/-- The texts of an atom fit a limit, and a keyword has a spelling. -/
def Atom.Fits (maxStringBytes : Nat) : Atom → Prop
  | .string s => (utf8Encode s).length ≤ maxStringBytes
  | .keyword k => k.spelling ≠ "" ∧ (utf8Encode k.spelling).length ≤ maxStringBytes
  | _ => True

/-- The numbers of an atom are of 64 bits. -/
def Atom.Ranged : Atom → Prop
  | .int n => InI64 n
  | .instant i => InI64 i.epochSeconds
  | _ => True

/-- Every atom of the term satisfies the predicate. -/
def Term.All (P : Atom → Prop) : Term → Prop
  | .atom a => P a
  | .triple t1 t2 t3 => t1.All P ∧ t2.All P ∧ t3.All P

/-- The texts of a term fit a limit. -/
def Term.Fits (maxStringBytes : Nat) (t : Term) : Prop := t.All (Atom.Fits maxStringBytes)

/-- The numbers of a term are of 64 bits. -/
def Term.Ranged (t : Term) : Prop := t.All Atom.Ranged

theorem Term.All.imp {P Q : Atom → Prop} (h : ∀ a, P a → Q a) (ht : t.All P) : t.All Q := by
  induction t with
  | atom a => exact h a ht
  | triple t1 t2 t3 h1 h2 h3 => exact ⟨h1 ht.1, h2 ht.2.1, h3 ht.2.2⟩

/-! ## Numbers of 64 bits -/

theorem natOfI64_lt (v : Int) : natOfI64 v < 256 ^ 8 := (BitVec.ofInt 64 v).isLt

theorem natOfI64_i64OfNat (h : n < 256 ^ 8) : natOfI64 (i64OfNat n) = n := by
  unfold natOfI64 i64OfNat
  rw [BitVec.ofInt_toInt, BitVec.toNat_ofNat]
  exact Nat.mod_eq_of_lt h

theorem inI64_i64OfNat (n : Nat) : InI64 (i64OfNat n) := by
  have h1 := BitVec.le_toInt (BitVec.ofNat 64 n)
  have h2 := BitVec.toInt_lt (x := BitVec.ofNat 64 n)
  unfold InI64 i64OfNat
  norm_num at h1 h2
  omega

theorem i64OfNat_natOfI64 {v : Int} (h : InI64 v) : i64OfNat (natOfI64 v) = v := by
  unfold natOfI64 i64OfNat
  unfold InI64 at h
  rw [BitVec.ofNat_toNat, BitVec.setWidth_eq, BitVec.toInt_ofInt]
  exact Int.bmod_eq_of_le (by norm_num; omega) (by norm_num; omega)

theorem natOfI64_toBits (x : F64) : natOfI64 x.toBits = x.bits.toNat := by
  unfold natOfI64 F64.toBits
  rw [BitVec.ofInt_toInt]

theorem ofBits_i64OfNat_toNat (x : F64) : F64.ofBits (i64OfNat x.bits.toNat) = x := by
  unfold F64.ofBits i64OfNat
  simp only [BitVec.ofNat_toNat, BitVec.setWidth_eq, BitVec.ofInt_toInt]
  split
  · rename_i h
    obtain ⟨b, hb⟩ := x
    have := hb h
    subst this
    rfl
  · rfl

/-- A pattern that is not a NaN is the pattern of its double. -/
theorem bits_ofBits (hn : n < 256 ^ 8) (h : (F64.ofBits (i64OfNat n)).isNaN = false) : (F64.ofBits (i64OfNat n)).bits.toNat = n := by
  unfold F64.ofBits i64OfNat at *
  split at h
  · simp [F64.isNaN, F64.nan, canonicalNaN, isNaNBits] at h
  · rename_i hb
    rw [dif_neg hb]
    simp only [BitVec.ofInt_toInt, BitVec.toNat_ofNat]
    exact Nat.mod_eq_of_lt hn

/-! ## Writers -/

/-- The writer succeeds exactly when the nodes already written satisfy the condition; then it adds the bytes and updates the nodes. -/
def Writes (w : Write) (ok : Nat → Prop) (bytes : Bytes) (nodes : Nat → Nat) : Prop :=
  ∀ e e', w e = .ok ((), e') ↔ ok e.nodes ∧ e' = ⟨e.bytes ++ bytes, nodes e.nodes⟩

theorem write_bind_eq_ok_iff {w' : Write} {e e' : Encoder} :
    (do w; w') e = .ok ((), e') ↔ ∃ e₁, w e = .ok ((), e₁) ∧ w' e₁ = .ok ((), e') := by
  simp only [bind, StateT.bind, Except.bind]
  cases h : w e with
  | error m => simp
  | ok r => simp [Prod.ext_iff]

theorem Writes.bind {w' : Write} {ok ok' : Nat → Prop} {bytes bytes' : Bytes} {nodes nodes' : Nat → Nat}
    (h : Writes w ok bytes nodes) (h' : Writes w' ok' bytes' nodes') :
    Writes (do w; w') (fun n => ok n ∧ ok' (nodes n)) (bytes ++ bytes') (fun n => nodes' (nodes n)) := by
  intro e e'
  rw [write_bind_eq_ok_iff]
  constructor
  · rintro ⟨e₁, h1, h2⟩
    obtain ⟨o1, rfl⟩ := (h e e₁).1 h1
    obtain ⟨o2, rfl⟩ := (h' _ e').1 h2
    exact ⟨⟨o1, o2⟩, by simp⟩
  · rintro ⟨⟨o1, o2⟩, rfl⟩
    exact ⟨_, (h _ _).2 ⟨o1, rfl⟩, (h' _ _).2 ⟨o2, by simp⟩⟩

theorem Writes.congr {ok ok' : Nat → Prop} {bytes bytes' : Bytes} {nodes nodes' : Nat → Nat}
    (h : Writes w ok bytes nodes) (hok : ∀ n, ok n ↔ ok' n) (hb : bytes = bytes') (hn : ∀ n, nodes n = nodes' n) :
    Writes w ok' bytes' nodes' := by
  subst hb
  intro e e'
  rw [h e e', hok, hn]

theorem writes_appendBytes (bytes : Bytes) : Writes (appendBytes bytes) (fun _ => True) bytes fun n => n := by
  intro e e'
  simp [appendBytes, eq_comm]

theorem writes_pure : Writes (pure ()) (fun _ => True) [] fun n => n := by
  intro e e'
  obtain ⟨bytes, nodes⟩ := e
  rw [show (pure () : Write) ⟨bytes, nodes⟩ = .ok ((), ⟨bytes, nodes⟩) from rfl]
  simp [eq_comm]

theorem writes_error (message : String) (bytes : Bytes) (nodes : Nat → Nat) : Writes (writeError message) (fun _ => False) bytes nodes := by
  intro e e'
  simp [writeError]

theorem writes_appendU32Le (value : Int) :
    Writes (appendU32Le value) (fun _ => 0 ≤ value ∧ value ≤ 4294967295) (toBytes 4 value.toNat) fun n => n := by
  unfold appendU32Le
  split
  · rename_i h
    exact (writes_appendBytes _).congr (fun _ => by simp [h]) rfl fun _ => rfl
  · rename_i h
    exact (writes_error _ _ _).congr (fun _ => by simp [h]) rfl fun _ => rfl

theorem writes_appendI64Le (value : Int) : Writes (appendI64Le value) (fun _ => True) (toBytes 8 (natOfI64 value)) fun n => n :=
  writes_appendBytes _

theorem writes_appendSizedText (value : String) {maximum : Nat} (hm : maximum ≤ 4294967295) (label : String) :
    Writes (appendSizedText value maximum label) (fun _ => (utf8Encode value).length ≤ maximum) (sizedText value)
      fun n => n := by
  unfold appendSizedText
  dsimp only
  split
  · rename_i h
    exact (writes_error _ _ _).congr (fun _ => by simp; omega) rfl fun _ => rfl
  · rename_i h
    refine ((writes_appendU32Le _).bind (writes_appendBytes _)).congr (fun _ => ?_) (by simp [sizedText]) fun _ => rfl
    constructor
    · intro
      omega
    · intro
      exact ⟨⟨by omega, by omega⟩, trivial⟩

theorem writes_encoderNode (depth maxNodes maxDepth : Nat) :
    Writes (encoderNode depth maxNodes maxDepth) (fun n => depth ≤ maxDepth ∧ n + 1 ≤ maxNodes) [] (· + 1) := by
  intro e e'
  unfold encoderNode
  split
  · simp
    omega
  · split
    · simp
      omega
    · rename_i h1 h2
      simp only [Except.ok.injEq, Prod.mk.injEq, true_and, List.append_nil]
      constructor
      · rintro rfl
        exact ⟨by omega, rfl⟩
      · exact fun h => h.2.symm

theorem writes_appendAtom (hm : maxStringBytes ≤ 4294967295) (a : Atom) :
    Writes (appendAtom maxStringBytes a) (fun _ => a.Fits maxStringBytes) a.bytes fun n => n := by
  cases a with
  | string s =>
    exact ((writes_appendBytes [1]).bind (writes_appendSizedText s hm _)).congr (fun _ => by simp [Atom.Fits]) rfl fun _ => rfl
  | int n => exact ((writes_appendBytes [2]).bind (writes_appendI64Le n)).congr (fun _ => by simp [Atom.Fits]) rfl fun _ => rfl
  | float x => exact ((writes_appendBytes [3]).bind (writes_appendI64Le _)).congr (fun _ => by simp [Atom.Fits]) rfl fun _ => rfl
  | bool b =>
    cases b
    · exact (writes_appendBytes [4]).congr (fun _ => by simp [Atom.Fits]) rfl fun _ => rfl
    · exact (writes_appendBytes [5]).congr (fun _ => by simp [Atom.Fits]) rfl fun _ => rfl
  | keyword k =>
    simp only [appendAtom]
    split
    · rename_i h
      exact (writes_error _ _ _).congr (fun _ => by simp [Atom.Fits, h]) rfl fun _ => rfl
    · rename_i h
      exact ((writes_appendBytes [6]).bind (writes_appendSizedText k.spelling hm _)).congr
        (fun _ => by simp [Atom.Fits, h]) rfl fun _ => rfl
  | instant i =>
    refine ((writes_appendBytes [8]).bind ((writes_appendI64Le i.epochSeconds).bind (writes_appendU32Le i.nanos))).congr
      (fun _ => ?_) (by simp [Atom.bytes]) fun _ => rfl
    have := i.canonical
    simp [Atom.Fits]
    omega

/-- A term is written as its bytes exactly when it fits the limits. -/
theorem writes_appendTermLimited (hm : maxStringBytes ≤ 4294967295) (maxNodes maxDepth : Nat) (t : Term) (depth : Nat) :
    Writes (appendTermLimited maxStringBytes maxNodes maxDepth t depth)
      (fun n => depth + t.height ≤ maxDepth ∧ n + t.nodes ≤ maxNodes ∧ t.Fits maxStringBytes) t.bytes (· + t.nodes) := by
  induction t generalizing depth with
  | atom a =>
    refine ((writes_encoderNode depth maxNodes maxDepth).bind (writes_appendAtom hm a)).congr (fun n => ?_) rfl fun _ => rfl
    simp [Term.height, Term.nodes, Term.Fits, Term.All, and_assoc]
  | triple t1 t2 t3 h1 h2 h3 =>
    refine ((writes_encoderNode depth maxNodes maxDepth).bind ((writes_appendBytes [7]).bind
      ((h1 (depth + 1)).bind ((h2 (depth + 1)).bind (h3 (depth + 1)))))).congr (fun n => ?_) (by simp [Term.bytes])
        (fun n => by simp [Term.nodes]; omega)
    have p1 := t1.nodes_pos
    have p2 := t2.nodes_pos
    have p3 := t3.nodes_pos
    simp only [Term.height, Term.nodes, Term.Fits, Term.All]
    constructor
    · rintro ⟨-, -, ⟨a1, b1, c1⟩, ⟨a2, b2, c2⟩, a3, b3, c3⟩
      exact ⟨by omega, by omega, c1, c2, c3⟩
    · rintro ⟨a, b, c1, c2, c3⟩
      exact ⟨⟨by omega, by omega⟩, trivial, ⟨by omega, by omega, c1⟩, ⟨by omega, by omega, c2⟩, by omega, by omega, c3⟩

theorem writes_appendTerm (t : Term) (depth : Nat) :
    Writes (appendTerm t depth) (fun n => depth + t.height ≤ termCodecV1MaxDepth ∧ n + t.nodes ≤ rpcV2MaxTermNodes ∧
      t.Fits rpcV2MaxStringBytes) t.bytes (· + t.nodes) :=
  writes_appendTermLimited (by decide) _ _ t depth

/-! ## Readers -/

theorem exact_readU8 (context : String) : Exact (readU8 context) fun n v used n' => used = [UInt8.ofNat v] ∧ v < 256 ∧ n' = n := by
  refine ((exact_next (endedInside context)).bind fun b : UInt8 => exact_pure b.toNat).congr fun n v used n' => ?_
  constructor
  · rintro ⟨b, u, w, m, rfl, ⟨rfl, rfl⟩, rfl, rfl, rfl⟩
    exact ⟨by simp, b.toNat_lt, rfl⟩
  · rintro ⟨rfl, hv, rfl⟩
    refine ⟨UInt8.ofNat v, _, [], _, (List.append_nil _).symm, ⟨rfl, rfl⟩, ?_, rfl, rfl⟩
    rw [UInt8.toNat_ofNat']
    omega

theorem exact_readLe (context : String) (k : Nat) :
    Exact (readLe context k) fun n v used n' => used = toBytes k v ∧ v < 256 ^ k ∧ n' = n := by
  induction k with
  | zero =>
    refine (exact_pure 0).congr fun n v used n' => ?_
    constructor
    · rintro ⟨rfl, rfl, rfl⟩
      exact ⟨rfl, by norm_num, rfl⟩
    · rintro ⟨rfl, hv, rfl⟩
      exact ⟨by omega, rfl, rfl⟩
  | succ k ih =>
    refine ((exact_readU8 context).bind fun b => ih.bind fun high => exact_pure (b + 256 * high)).congr fun n v used n' => ?_
    have hk : 0 < 256 ^ k := by positivity
    constructor
    · rintro ⟨b, u, w, m, rfl, ⟨rfl, hb, rfl⟩, high, u', w', m', rfl, ⟨rfl, hh, rfl⟩, rfl, rfl, rfl⟩
      refine ⟨?_, by rw [Nat.pow_succ']; omega, rfl⟩
      rw [toBytes, show (b + 256 * high) / 256 = high by omega, List.append_nil, List.singleton_append]
      congr 1
      apply UInt8.toNat_inj.1
      rw [UInt8.toNat_ofNat', UInt8.toNat_ofNat']
      omega
    · rintro ⟨rfl, hv, rfl⟩
      rw [Nat.pow_succ'] at hv
      refine ⟨v % 256, [UInt8.ofNat v], toBytes k (v / 256), _, rfl, ⟨?_, by omega, rfl⟩, v / 256, _, [], _,
        (List.append_nil _).symm, ⟨rfl, by omega, rfl⟩, by omega, rfl, rfl⟩
      congr 1
      apply UInt8.toNat_inj.1
      rw [UInt8.toNat_ofNat', UInt8.toNat_ofNat']
      omega

theorem exact_readI64Le (context : String) :
    Exact (readI64Le context) fun n v used n' => used = toBytes 8 (natOfI64 v) ∧ InI64 v ∧ n' = n := by
  refine ((exact_readLe context 8).bind fun n => exact_pure (i64OfNat n)).congr fun n v used n' => ?_
  constructor
  · rintro ⟨k, u, w, m, rfl, ⟨rfl, hk, rfl⟩, rfl, rfl, rfl⟩
    exact ⟨by rw [natOfI64_i64OfNat hk, List.append_nil], inI64_i64OfNat k, rfl⟩
  · rintro ⟨rfl, hv, rfl⟩
    exact ⟨natOfI64 v, _, [], _, (List.append_nil _).symm, ⟨rfl, natOfI64_lt v, rfl⟩, (i64OfNat_natOfI64 hv).symm, rfl, rfl⟩

theorem exact_takeBytes (context : String) (k : Nat) :
    Exact (takeBytes context k) fun n bytes used n' => used = bytes ∧ bytes.length = k ∧ n' = n := by
  rintro ⟨rest, aux⟩ ⟨rest', aux'⟩ bytes
  unfold takeBytes
  dsimp only
  split
  · rename_i h
    constructor
    · intro he
      simp only [Except.ok.injEq, Prod.mk.injEq, State.mk.injEq] at he
      obtain ⟨rfl, rfl, rfl⟩ := he
      exact ⟨_, (List.take_append_drop k rest).symm, rfl, by rw [List.length_take]; omega, rfl⟩
    · rintro ⟨used, rfl, rfl, rfl, rfl⟩
      simp
  · rename_i h
    constructor
    · intro he
      cases he
    · rintro ⟨used, rfl, rfl, rfl, rfl⟩
      simp at h

theorem exact_readUtf8 (length : Nat) (label : String) :
    Exact (readUtf8 length label) fun n s used n' => used = utf8Encode s ∧ used.length = length ∧ n' = n := by
  unfold readUtf8
  refine ((exact_takeBytes label length).bind (S := fun text n s used n' => text = utf8Encode s ∧ used = [] ∧ n' = n)
    fun text => ?_).congr fun n s used n' => ?_
  · cases h : utf8Decode text with
    | some s =>
      rw [utf8Decode_eq_some_iff] at h
      refine (exact_pure s).congr fun n s' used n' => and_congr_left' ?_
      exact ⟨fun he => he ▸ h, fun he => utf8Encode_injective (he.symm.trans h)⟩
    | none =>
      refine (exact_fail _).congr fun n s' used n' => ?_
      simp only [false_iff, not_and]
      intro he
      rw [utf8Decode_eq_some_iff.2 he] at h
      cases h
  constructor
  · rintro ⟨text, u, w, m, rfl, ⟨rfl, hl, rfl⟩, rfl, rfl, rfl⟩
    exact ⟨List.append_nil _, by simpa using hl, rfl⟩
  · rintro ⟨rfl, hl, rfl⟩
    exact ⟨_, _, [], _, (List.append_nil _).symm, ⟨rfl, hl, rfl⟩, rfl, rfl, rfl⟩

theorem exact_readSizedText {maximum : Nat} (hm : maximum < 256 ^ 4) (label : String) :
    Exact (readSizedText maximum label) fun n s used n' =>
      used = sizedText s ∧ (utf8Encode s).length ≤ maximum ∧ n' = n := by
  refine ((exact_readLe label 4).bind fun length => (exact_fail _).ite (exact_readUtf8 length label)).congr
    fun n s used n' => ?_
  constructor
  · rintro ⟨length, u, w, m, rfl, ⟨rfl, hl, rfl⟩, ⟨-, hf⟩ | ⟨hle, rfl, rfl, rfl⟩⟩
    · exact hf.elim
    · exact ⟨rfl, by omega, rfl⟩
  · rintro ⟨rfl, hl, rfl⟩
    exact ⟨_, _, _, _, rfl, ⟨rfl, by omega, rfl⟩, .inr ⟨by omega, rfl, rfl, rfl⟩⟩

theorem exact_countNode (maxNodes : Nat) : Exact (countNode maxNodes) fun n _ used n' => used = [] ∧ n' = n + 1 ∧ n + 1 ≤ maxNodes := by
  rintro ⟨rest, aux⟩ ⟨rest', aux'⟩ ⟨⟩
  unfold countNode
  dsimp only
  split
  · simp
    omega
  · rename_i h
    simp only [Except.ok.injEq, Prod.mk.injEq, State.mk.injEq, true_and]
    constructor
    · rintro ⟨rfl, rfl⟩
      exact ⟨[], rfl, rfl, rfl, by omega⟩
    · rintro ⟨used, rfl, rfl, rfl, -⟩
      exact ⟨rfl, rfl⟩

/-! ### Terms -/

/-- The bytes stand for the atom: its own bytes, or any pattern of a NaN. -/
def Atom.Encoded (used : Bytes) : Atom → Prop
  | .float x => ∃ n < 256 ^ 8, used = 3 :: toBytes 8 n ∧ F64.ofBits (i64OfNat n) = x
  | a => used = a.bytes

/-- The bytes stand for the term. -/
def Term.Encoded (used : Bytes) : Term → Prop
  | .atom a => a.Encoded used
  | .triple t1 t2 t3 => ∃ u1 u2 u3, used = 7 :: (u1 ++ (u2 ++ u3)) ∧ t1.Encoded u1 ∧ t2.Encoded u2 ∧ t3.Encoded u3

theorem Atom.encoded_bytes (a : Atom) : a.Encoded a.bytes := by
  cases a with
  | float x =>
    refine ⟨x.bits.toNat, x.bits.isLt, by rw [Atom.bytes, natOfI64_toBits], ofBits_i64OfNat_toNat x⟩
  | _ => rfl

theorem Term.encoded_bytes (t : Term) : t.Encoded t.bytes := by
  induction t with
  | atom a => exact a.encoded_bytes
  | triple t1 t2 t3 h1 h2 h3 => exact ⟨_, _, _, rfl, h1, h2, h3⟩

theorem Term.Encoded.length_eq {used : Bytes} (h : t.Encoded used) : used.length = t.bytes.length := by
  induction t generalizing used with
  | atom a =>
    cases a with
    | float x =>
      obtain ⟨n, -, rfl, -⟩ := h
      simp [Term.bytes, Atom.bytes]
    | _ => rw [show used = _ from h, Term.bytes]
  | triple t1 t2 t3 h1 h2 h3 =>
    obtain ⟨u1, u2, u3, rfl, e1, e2, e3⟩ := h
    simp [Term.bytes, h1 e1, h2 e2, h3 e3]

/-- Which terms some bytes stand for, by the first byte. -/
theorem Term.encoded_cons_iff {b : UInt8} {used : Bytes} : t.Encoded (b :: used) ↔
    (b = 1 ∧ ∃ s, t = .str s ∧ used = sizedText s) ∨
    (b = 2 ∧ ∃ n, t = .int n ∧ used = toBytes 8 (natOfI64 n)) ∨
    (b = 3 ∧ ∃ n < 256 ^ 8, t = .atom (.float (F64.ofBits (i64OfNat n))) ∧ used = toBytes 8 n) ∨
    (b = 4 ∧ t = .bool false ∧ used = []) ∨
    (b = 5 ∧ t = .bool true ∧ used = []) ∨
    (b = 6 ∧ ∃ s, t = .kw s ∧ used = sizedText s) ∨
    (b = 7 ∧ ∃ t1 t2 t3 u1 u2 u3, t = .triple t1 t2 t3 ∧ used = u1 ++ (u2 ++ u3) ∧ t1.Encoded u1 ∧ t2.Encoded u2 ∧ t3.Encoded u3) ∨
    (b = 8 ∧ ∃ i : Instant, t = .atom (.instant i) ∧ used = toBytes 8 (natOfI64 i.epochSeconds) ++ toBytes 4 i.nanos) := by
  constructor
  · intro h
    cases t with
    | atom a =>
      cases a with
      | string s =>
        obtain ⟨rfl, rfl⟩ := List.cons.inj h
        exact .inl ⟨rfl, s, rfl, rfl⟩
      | int n =>
        obtain ⟨rfl, rfl⟩ := List.cons.inj h
        exact .inr (.inl ⟨rfl, n, rfl, rfl⟩)
      | float x =>
        obtain ⟨n, hn, he, rfl⟩ := h
        obtain ⟨rfl, rfl⟩ := List.cons.inj he
        exact .inr (.inr (.inl ⟨rfl, n, hn, rfl, rfl⟩))
      | bool v =>
        cases v
        · obtain ⟨rfl, rfl⟩ := List.cons.inj h
          exact .inr (.inr (.inr (.inl ⟨rfl, rfl, rfl⟩)))
        · obtain ⟨rfl, rfl⟩ := List.cons.inj h
          exact .inr (.inr (.inr (.inr (.inl ⟨rfl, rfl, rfl⟩))))
      | keyword k =>
        obtain ⟨rfl, rfl⟩ := List.cons.inj h
        exact .inr (.inr (.inr (.inr (.inr (.inl ⟨rfl, k.spelling, rfl, rfl⟩)))))
      | instant i =>
        obtain ⟨rfl, rfl⟩ := List.cons.inj h
        exact .inr (.inr (.inr (.inr (.inr (.inr (.inr ⟨rfl, i, rfl, rfl⟩))))))
    | triple t1 t2 t3 =>
      obtain ⟨u1, u2, u3, he, e1, e2, e3⟩ := h
      obtain ⟨rfl, rfl⟩ := List.cons.inj he
      exact .inr (.inr (.inr (.inr (.inr (.inr (.inl ⟨rfl, t1, t2, t3, u1, u2, u3, rfl, rfl, e1, e2, e3⟩))))))
  · rintro (⟨rfl, s, rfl, rfl⟩ | ⟨rfl, n, rfl, rfl⟩ | ⟨rfl, n, hn, rfl, rfl⟩ | ⟨rfl, rfl, rfl⟩ | ⟨rfl, rfl, rfl⟩ |
      ⟨rfl, s, rfl, rfl⟩ | ⟨rfl, t1, t2, t3, u1, u2, u3, rfl, rfl, e1, e2, e3⟩ | ⟨rfl, i, rfl, rfl⟩)
    · rfl
    · rfl
    · exact ⟨n, hn, rfl, rfl⟩
    · rfl
    · rfl
    · rfl
    · exact ⟨u1, u2, u3, rfl, e1, e2, e3⟩
    · rfl

theorem exact_readInstant : Exact (do
      let seconds ← readI64Le "Instant atom"
      let nanos ← readU32Le "Instant nanos"
      if h : nanos < 1000000000 then pure (.atom (.instant ⟨seconds, nanos, h⟩))
      else fail "Instant nanoseconds are outside the canonical range" : Read Term) fun n t used n' =>
        ∃ i : Instant, t = .atom (.instant i) ∧ used = toBytes 8 (natOfI64 i.epochSeconds) ++ toBytes 4 i.nanos ∧
          InI64 i.epochSeconds ∧ n' = n := by
  have hmake : ∀ (seconds : Int) (nanos : Nat), Exact (if h : nanos < 1000000000 then
      pure (Term.atom (.instant ⟨seconds, nanos, h⟩)) else fail "Instant nanoseconds are outside the canonical range" : Read Term)
      fun n t used n' => (∃ h, t = .atom (.instant ⟨seconds, nanos, h⟩)) ∧ used = [] ∧ n' = n := by
    intro seconds nanos
    split
    · rename_i h
      exact (exact_pure _).congr fun n t used n' => by simp [h]
    · rename_i h
      exact (exact_fail _).congr fun n t used n' => by simp [h]
  refine ((exact_readI64Le _).bind fun seconds => (exact_readLe _ 4).bind (hmake seconds)).congr fun n t used n' => ?_
  constructor
  · rintro ⟨seconds, u, w, m, rfl, ⟨rfl, hs, rfl⟩, nanos, u', w', m', rfl, ⟨rfl, -, rfl⟩, ⟨hn, rfl⟩, rfl, rfl⟩
    exact ⟨⟨seconds, nanos, hn⟩, rfl, by simp, hs, rfl⟩
  · rintro ⟨⟨seconds, nanos, hn⟩, rfl, rfl, hs, rfl⟩
    refine ⟨seconds, _, _, _, rfl, ⟨rfl, hs, rfl⟩, nanos, _, [], _, (List.append_nil _).symm, ⟨rfl, ?_, rfl⟩, ⟨hn, rfl⟩, rfl, rfl⟩
    omega

theorem ofNat_eq_literal_iff {v k : Nat} (hv : v < 256) (hk : k < 256) : UInt8.ofNat v = UInt8.ofNat k ↔ v = k := by
  rw [← UInt8.toNat_inj, UInt8.toNat_ofNat', UInt8.toNat_ofNat']
  omega

/-- An atom is one node within the limits when its texts fit and its numbers are of 64 bits. -/
theorem atom_within_iff {maxNodes room n' : Nat} {a : Atom} :
    (n' + 1 = n + (Term.atom a).nodes ∧ (n < n' → n' ≤ maxNodes) ∧ (Term.atom a).height ≤ room ∧
      (Term.atom a).Fits maxStringBytes ∧ (Term.atom a).Ranged) ↔ n' = n ∧ a.Fits maxStringBytes ∧ a.Ranged := by
  simp only [Term.nodes, Term.height, Term.Fits, Term.Ranged, Term.All]
  constructor
  · rintro ⟨h, -, -, hf, hr⟩
    exact ⟨by omega, hf, hr⟩
  · rintro ⟨rfl, hf, hr⟩
    exact ⟨rfl, fun h => absurd h (lt_irrefl _), Nat.zero_le _, hf, hr⟩

/-- What is read as a term: bytes that stand for it, within the limits. -/
theorem exact_readTermAt (hm : maxStringBytes < 256 ^ 4) (maxNodes room : Nat) :
    Exact (readTermAt maxStringBytes maxNodes room) fun n t used n' =>
      t.Encoded used ∧ n' = n + t.nodes ∧ n' ≤ maxNodes ∧ t.height < room ∧ t.Fits maxStringBytes ∧ t.Ranged := by
  induction room with
  | zero => exact (exact_fail _).congr fun n t used n' => by simp
  | succ room ih =>
    unfold readTermAt
    refine ((exact_countNode maxNodes).bind fun _ => (exact_readU8 "Term tag").bind (S := fun tag n t used n' =>
      t.Encoded (UInt8.ofNat tag :: used) ∧ tag < 256 ∧ n' + 1 = n + t.nodes ∧ (n < n' → n' ≤ maxNodes) ∧ t.height ≤ room ∧
        t.Fits maxStringBytes ∧ t.Ranged) fun tag => ?_).congr fun n t used n' => ?_
    · -- The branches follow the tag; each takes what may follow its tag.
      split
      · rename_i h
        subst h
        refine ((exact_readSizedText hm _).bind fun s => exact_pure (Term.str s)).congr fun n t used n' => ?_
        simp [Term.encoded_cons_iff]
        constructor
        · rintro ⟨s, rfl, hs, rfl, rfl⟩
          exact ⟨⟨s, rfl, rfl⟩, atom_within_iff.2 ⟨rfl, hs, trivial⟩⟩
        · rintro ⟨⟨s, rfl, rfl⟩, h⟩
          obtain ⟨rfl, hs, -⟩ := atom_within_iff.1 h
          exact ⟨s, rfl, hs, rfl, rfl⟩
      split
      · rename_i h
        subst h
        refine ((exact_readI64Le _).bind fun n => exact_pure (Term.int n)).congr fun n t used n' => ?_
        simp [Term.encoded_cons_iff]
        constructor
        · rintro ⟨v, rfl, hv, rfl, rfl⟩
          exact ⟨⟨v, rfl, rfl⟩, atom_within_iff.2 ⟨rfl, trivial, hv⟩⟩
        · rintro ⟨⟨v, rfl, rfl⟩, h⟩
          obtain ⟨rfl, -, hv⟩ := atom_within_iff.1 h
          exact ⟨v, rfl, hv, rfl, rfl⟩
      split
      · rename_i h
        subst h
        refine ((exact_readI64Le _).bind fun n => exact_pure (Term.atom (.float (F64.ofBits n)))).congr fun n t used n' => ?_
        simp [Term.encoded_cons_iff]
        constructor
        · rintro ⟨v, rfl, hv, rfl, rfl⟩
          exact ⟨⟨natOfI64 v, natOfI64_lt v, by rw [i64OfNat_natOfI64 hv], rfl⟩, atom_within_iff.2 ⟨rfl, trivial, trivial⟩⟩
        · rintro ⟨⟨v, hv, rfl, rfl⟩, h⟩
          obtain ⟨rfl, -, -⟩ := atom_within_iff.1 h
          exact ⟨i64OfNat v, by rw [natOfI64_i64OfNat hv], inI64_i64OfNat v, rfl, rfl⟩
      split
      · rename_i h
        subst h
        refine (exact_pure (Term.bool false)).congr fun n t used n' => ?_
        simp [Term.encoded_cons_iff]
        constructor
        · rintro ⟨rfl, rfl, rfl⟩
          exact ⟨⟨rfl, rfl⟩, atom_within_iff.2 ⟨rfl, trivial, trivial⟩⟩
        · rintro ⟨⟨rfl, rfl⟩, h⟩
          exact ⟨rfl, rfl, (atom_within_iff.1 h).1⟩
      split
      · rename_i h
        subst h
        refine (exact_pure (Term.bool true)).congr fun n t used n' => ?_
        simp [Term.encoded_cons_iff]
        constructor
        · rintro ⟨rfl, rfl, rfl⟩
          exact ⟨⟨rfl, rfl⟩, atom_within_iff.2 ⟨rfl, trivial, trivial⟩⟩
        · rintro ⟨⟨rfl, rfl⟩, h⟩
          exact ⟨rfl, rfl, (atom_within_iff.1 h).1⟩
      split
      · rename_i h
        subst h
        refine ((exact_readSizedText hm _).bind fun s => Exact.ite (c := s = "") (exact_fail _)
          (exact_pure (Term.kw s))).congr fun n t used n' => ?_
        simp [Term.encoded_cons_iff]
        constructor
        · rintro ⟨s, rfl, hs, hne, rfl, rfl⟩
          exact ⟨⟨s, rfl, rfl⟩, atom_within_iff.2 ⟨rfl, ⟨hne, hs⟩, trivial⟩⟩
        · rintro ⟨⟨s, rfl, rfl⟩, h⟩
          obtain ⟨rfl, ⟨hne, hs⟩, -⟩ := atom_within_iff.1 h
          exact ⟨s, rfl, hs, hne, rfl, rfl⟩
      split
      · rename_i h
        subst h
        refine (ih.bind fun t1 => ih.bind fun t2 => ih.bind fun t3 => exact_pure (Term.triple t1 t2 t3)).congr
          fun n t used n' => ?_
        simp [Term.encoded_cons_iff]
        constructor
        · rintro ⟨t1, u1, t2, u2, t3, u3, rfl, ⟨e1, l1, g1, f1, r1⟩, ⟨e2, l2, g2, f2, r2⟩, ⟨e3, l3, g3, f3, r3⟩, rfl, rfl⟩
          refine ⟨⟨t1, t2, t3, rfl, u1, u2, u3, rfl, e1, e2, e3⟩, ?_, fun _ => l3, ?_, ⟨f1, f2, f3⟩, r1, r2, r3⟩
          · rw [Term.nodes]
            omega
          · rw [Term.height]
            omega
        · rintro ⟨⟨t1, t2, t3, rfl, u1, u2, u3, rfl, e1, e2, e3⟩, hn, hl, hg, ⟨f1, f2, f3⟩, r1, r2, r3⟩
          rw [Term.nodes] at hn
          rw [Term.height] at hg
          have p1 := t1.nodes_pos
          have p2 := t2.nodes_pos
          have p3 := t3.nodes_pos
          have := hl (by omega)
          exact ⟨t1, u1, t2, u2, t3, u3, rfl, ⟨e1, by omega, by omega, f1, r1⟩, ⟨e2, by omega, by omega, f2, r2⟩,
            ⟨e3, by omega, by omega, f3, r3⟩, rfl, by omega⟩
      split
      · rename_i h
        subst h
        refine exact_readInstant.congr fun n t used n' => ?_
        simp [Term.encoded_cons_iff]
        constructor
        · rintro ⟨i, rfl, rfl, hi, rfl⟩
          exact ⟨⟨i, rfl, rfl⟩, atom_within_iff.2 ⟨rfl, trivial, hi⟩⟩
        · rintro ⟨⟨i, rfl, rfl⟩, h⟩
          obtain ⟨rfl, -, hi⟩ := atom_within_iff.1 h
          exact ⟨i, rfl, rfl, hi, rfl⟩
      · -- No term has any other tag.
        rename_i h1 h2 h3 h4 h5 h6 h7 h8
        refine (exact_fail _).congr fun n t used n' => ?_
        rw [false_iff]
        rintro ⟨he, ht, -⟩
        rw [Term.encoded_cons_iff] at he
        have hlit := fun k (hk : k < 256) => (ofNat_eq_literal_iff ht hk).1
        rcases he with ⟨h, -⟩ | ⟨h, -⟩ | ⟨h, -⟩ | ⟨h, -⟩ | ⟨h, -⟩ | ⟨h, -⟩ | ⟨h, -⟩ | ⟨h, -⟩
        · exact h1 (hlit 1 (by decide) h)
        · exact h2 (hlit 2 (by decide) h)
        · exact h3 (hlit 3 (by decide) h)
        · exact h4 (hlit 4 (by decide) h)
        · exact h5 (hlit 5 (by decide) h)
        · exact h6 (hlit 6 (by decide) h)
        · exact h7 (hlit 7 (by decide) h)
        · exact h8 (hlit 8 (by decide) h)
    · constructor
      · rintro ⟨_, u, w, m, rfl, ⟨rfl, rfl, hn⟩, tag, u', w', m', rfl, ⟨rfl, hv, rfl⟩, he, -, hm, hl, hg, hf, hr⟩
        refine ⟨by simpa using he, by omega, ?_, by omega, hf, hr⟩
        rcases Nat.lt_or_ge (n + 1) n' with h | h
        · exact hl h
        · omega
      · rintro ⟨he, rfl, hl, hg, hf, hr⟩
        have hp := t.nodes_pos
        obtain ⟨b, rest, rfl⟩ : ∃ b rest, used = b :: rest := by
          cases used with
          | nil => exact absurd he.length_eq (by simpa using t.bytes_length_pos.ne)
          | cons b rest => exact ⟨b, rest, rfl⟩
        exact ⟨(), [], _, _, rfl, ⟨rfl, rfl, by omega⟩, b.toNat, [b], rest, _, rfl, ⟨by simp, b.toNat_lt, rfl⟩,
          by simpa using he, b.toNat_lt, by omega, fun _ => hl, by omega, hf, hr⟩

end Fram
