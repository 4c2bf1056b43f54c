import Fram.Framrpc
import Fram.Lemmas.Wire
import Fram.Lib.ExceptList

/-!
# The two wire codecs

The JVM reads terms as the native codec does (`agree_decodeTermCore`), whatever the limits, and writes a term within the limits as its
bytes (`writeTermCodecV1_ok_iff`).
-/

namespace Fram.Framrpc

open Reader LittleEndian

variable {context label : String} {maxNodes maxDepth maximum n : Nat} {bytes : Bytes} {t : Term}

/-! ## Reading -/

section Reading

variable {α : Type}

/-- A check that enough bytes are left changes nothing where the read takes as many. -/
theorem agree_codecEnsure {count : Nat} {p : BufferRead α} {q : Read α} (h : Agree p q)
    (hq : ∀ d r, q d = .ok r → count ≤ d.rest.length) : Agree (codecEnsure count context >>= fun _ => p) q := by
  intro d r
  rw [bind_apply]
  unfold codecEnsure
  by_cases hlt : d.rest.length < count
  · rw [if_pos hlt]
    constructor
    · intro he
      cases he
    · intro he
      have := hq d r he
      omega
  · rw [if_neg hlt]
    exact h d r

theorem agree_getBytes (context : String) (count : Nat) : Agree (getBytes count) (takeBytes context count) := by
  intro d r
  unfold getBytes takeBytes
  split <;> simp

theorem exact_getUnsigned (count : Nat) :
    Exact (getUnsigned count) fun n v used n' => used = toBytes count v ∧ v < 256 ^ count ∧ n' = n := by
  refine (((agree_getBytes "" count).exact (exact_takeBytes "" count)).bind fun bytes =>
    exact_pure (ofBytes bytes)).congr fun n v used n' => ?_
  constructor
  · rintro ⟨bytes, u, w, m, rfl, ⟨rfl, rfl, rfl⟩, rfl, rfl, rfl⟩
    exact ⟨by rw [toBytes_ofBytes, List.append_nil], ofBytes_lt u, rfl⟩
  · rintro ⟨rfl, hv, rfl⟩
    exact ⟨toBytes count v, _, [], _, (List.append_nil _).symm, ⟨rfl, length_toBytes count v, rfl⟩,
      (ofBytes_toBytes_of_lt hv).symm, rfl, rfl⟩

theorem agree_getUnsigned (context : String) (count : Nat) : Agree (getUnsigned count) (readLe context count) :=
  (exact_getUnsigned count).agree (exact_readLe context count)

theorem agree_getLong (context : String) : Agree getLong (readI64Le context) :=
  (agree_getUnsigned context 8).bind fun n => agree_pure (i64OfNat n)

/-- What a number takes. -/
theorem readLe_length {count : Nat} {d : Decoder} {r : Nat × Decoder} (h : readLe context count d = .ok r) : count ≤ d.rest.length := by
  obtain ⟨used, hr, rfl, -⟩ := (exact_readLe context count d r.2 r.1).1 h
  rw [hr, List.length_append, length_toBytes]
  omega

theorem readI64Le_length {d : Decoder} {r : Int × Decoder} (h : readI64Le context d = .ok r) : 8 ≤ d.rest.length := by
  obtain ⟨n, d1, h1, -⟩ := bind_eq_ok_iff.1 h
  exact readLe_length h1

theorem agree_codecReadU8 (context context' : String) : Agree (codecReadU8 context) (readU8 context') := by
  refine agree_codecEnsure ((exact_getUnsigned 1).agree ((exact_readU8 context').congr fun n v used n' => ?_)) fun d r h => ?_
  · rw [show (256 : Nat) ^ 1 = 256 from rfl]
    exact Iff.rfl
  · obtain ⟨used, hr, rfl, -⟩ := (exact_readU8 context' d r.2 r.1).1 h
    simp [hr]

theorem agree_codecReadU32Le (context context' : String) : Agree (codecReadU32Le context) (readU32Le context') :=
  agree_codecEnsure (agree_getUnsigned context' 4) fun _ _ h => readLe_length h

theorem agree_strictUtf8String (bytes : Bytes) (label label' : String) : Agree (strictUtf8String bytes label) (match utf8Decode bytes with
      | some s => pure s
      | none => fail (label' ++ " is not valid UTF-8") : Read String) := by
  unfold strictUtf8String
  cases utf8Decode bytes with
  | some s => exact agree_pure s
  | none => exact agree_fail _ _

theorem agree_readSizedTextCore (maxStringBytes : Nat) (context : String) :
    Agree (readSizedTextCore maxStringBytes context) (readSizedText maxStringBytes context) := by
  refine (agree_codecReadU32Le context context).bind fun length => (agree_fail _ _).ite ?_
  refine agree_codecEnsure ((agree_getBytes context length).bind fun bytes => agree_strictUtf8String bytes context context) ?_
  intro d r h
  obtain ⟨text, d1, h1, -⟩ := bind_eq_ok_iff.1 h
  obtain ⟨used, hr, rfl, hl, -⟩ := (exact_takeBytes context length d d1 text).1 h1
  rw [hr, List.length_append, hl]
  omega

theorem agree_countCodecNode (maximum : Nat) : Agree (countCodecNode maximum) (countNode maximum) := by
  intro d r
  unfold countCodecNode countNode codecNode
  split <;> simp [Except.map]

/-- The JVM reads a term as the native codec does. -/
theorem agree_decodeTermCore (maxStringBytes maxNodes room : Nat) :
    Agree (decodeTermCore maxStringBytes maxNodes room) (readTermAt maxStringBytes maxNodes room) := by
  induction room with
  | zero => exact agree_fail _ _
  | succ room ih =>
    unfold decodeTermCore readTermAt
    refine (agree_countCodecNode maxNodes).bind fun _ => (agree_codecReadU8 _ _).bind fun tag => ?_
    refine Agree.ite ((agree_readSizedTextCore _ _).bind fun s => agree_pure _) ?_
    refine Agree.ite ?_ ?_
    · refine agree_codecEnsure ((agree_getLong "Int atom").bind fun n => agree_pure _) fun d r h => ?_
      obtain ⟨n, d1, h1, -⟩ := bind_eq_ok_iff.1 h
      exact readI64Le_length h1
    refine Agree.ite ?_ ?_
    · refine agree_codecEnsure ((agree_getLong "Float atom").bind fun n => agree_pure _) fun d r h => ?_
      obtain ⟨n, d1, h1, -⟩ := bind_eq_ok_iff.1 h
      exact readI64Le_length h1
    refine (agree_pure _).ite ((agree_pure _).ite ?_)
    refine Agree.ite ((agree_readSizedTextCore _ _).bind fun s => (agree_fail _ _).ite (agree_pure _)) ?_
    refine Agree.ite (ih.bind fun t1 => ih.bind fun t2 => ih.bind fun t3 => agree_pure _) ?_
    refine Agree.ite ?_ (agree_fail _ _)
    refine agree_codecEnsure ((agree_getLong "Instant atom").bind fun seconds =>
      (agree_codecReadU32Le _ "Instant nanos").bind fun nanos => ?_) fun d r h => ?_
    · split
      · exact agree_pure _
      · exact agree_fail _ _
    · obtain ⟨used, hr, i, -, rfl, -⟩ := (exact_readInstant d r.2 r.1).1 h
      rw [hr]
      simp only [List.length_append, length_toBytes]
      omega

/-- What the JVM reads as a term, and the nodes it has; the count beside the buffer is another. -/
theorem exact_decodeTermCodecV1 {maxStringBytes : Nat} (hs : 0 < maxStringBytes) (hm : maxStringBytes < 256 ^ 4)
    (hd : 0 < maxDepth ∧ maxDepth ≤ 256) : Exact (decodeTermCodecV1 maxStringBytes maxNodes maxDepth) fun n r used n' =>
      r.1.Encoded used ∧ r.2 = r.1.nodes ∧ r.1.nodes ≤ maxNodes ∧ r.1.height ≤ maxDepth ∧ r.1.Fits maxStringBytes ∧
        r.1.Ranged ∧ n' = n := by
  rintro ⟨rest, aux⟩ ⟨rest', aux'⟩ ⟨t, nodes⟩
  have hcore := (agree_decodeTermCore maxStringBytes maxNodes (maxDepth + 1)).exact (exact_readTermAt hm maxNodes (maxDepth + 1))
  unfold decodeTermCodecV1 requireCodecLimits
  by_cases hn : 0 < maxNodes
  · rw [if_pos ⟨hs, hn, hd⟩]
    cases hc : decodeTermCore maxStringBytes maxNodes (maxDepth + 1) ⟨rest, 0⟩ with
    | error e =>
      simp only [bind, Except.bind, reduceCtorEq, false_iff]
      rintro ⟨used, rfl, he, rfl, h1, h2, h3, h4, -⟩
      rw [(hcore ⟨used ++ rest', 0⟩ ⟨rest', t.nodes⟩ t).2 ⟨used, rfl, he, by simp, h1, by omega, h3, h4⟩] at hc
      cases hc
    | ok r =>
      obtain ⟨t', rest1, nodes'⟩ := r
      obtain ⟨used, hr, he, hnodes, hmax, hh, hf, hran⟩ := (hcore _ _ _).1 hc
      dsimp only at hr hnodes hmax
      simp only [bind, Except.bind, Except.ok.injEq, Prod.mk.injEq, State.mk.injEq]
      constructor
      · rintro ⟨⟨rfl, rfl⟩, rfl, rfl⟩
        exact ⟨used, hr, he, by omega, by omega, by omega, hf, hran, rfl⟩
      · rintro ⟨used', hr', he', rfl, h1, h2, h3, h4, rfl⟩
        have := (hcore ⟨rest, 0⟩ ⟨rest', t.nodes⟩ t).2 ⟨used', hr', he', by simp, h1, by omega, h3, h4⟩
        rw [hc] at this
        cases this
        exact ⟨⟨rfl, rfl⟩, rfl, rfl⟩
  · rw [if_neg (by omega)]
    simp only [bind, Except.bind, reduceCtorEq, false_iff]
    rintro ⟨used, -, -, -, h, -⟩
    have := t.nodes_pos
    omega

end Reading

/-! ## Writing -/

section Writing

variable {maxStringBytes : Nat}

theorem utf8Width_eq (c : Char) : utf8Width c = (String.utf8EncodeChar c).length := by
  rw [String.length_utf8EncodeChar]
  unfold utf8Width Char.utf8Size
  simp only [UInt32.le_iff_toNat_le, UInt32.toNat_ofNatLT]
  split_ifs <;> omega

theorem utf8LengthFrom_ok_iff {total : Nat} {cs : List Char} (ht : total ≤ maximum) : utf8LengthFrom maximum label cs total = .ok n ↔
      n = total + (cs.flatMap String.utf8EncodeChar).length ∧ n ≤ maximum := by
  induction cs generalizing total with
  | nil =>
    simp only [utf8LengthFrom, Except.ok.injEq, List.flatMap_nil, List.length_nil]
    omega
  | cons c cs ih =>
    unfold utf8LengthFrom
    rw [List.flatMap_cons, List.length_append, ← utf8Width_eq]
    split
    · simp only [reduceCtorEq, false_iff]
      omega
    · rw [ih (by omega)]
      omega

theorem utf8Length_ok_iff {value : String} : utf8Length value maximum label = .ok n ↔ n = (utf8Encode value).length ∧ n ≤ maximum := by
  unfold utf8Length utf8Encode
  rw [utf8LengthFrom_ok_iff (Nat.zero_le _), Nat.zero_add]

theorem strictUtf8Bytes_ok_iff {value : String} :
    strictUtf8Bytes value maximum label = .ok bytes ↔ bytes = utf8Encode value ∧ bytes.length ≤ maximum := by
  unfold strictUtf8Bytes
  rw [ExceptList.bind_eq_ok_iff]
  constructor
  · rintro ⟨n, hn, h⟩
    obtain ⟨rfl, hle⟩ := utf8Length_ok_iff.1 hn
    rw [if_pos rfl] at h
    cases h
    exact ⟨rfl, hle⟩
  · rintro ⟨rfl, hle⟩
    exact ⟨_, utf8Length_ok_iff.2 ⟨rfl, hle⟩, by rw [if_pos rfl]⟩

theorem codecWriteU32Le_ok_iff {value : Int} :
    codecWriteU32Le value = .ok bytes ↔ bytes = toBytes 4 value.toNat ∧ 0 ≤ value ∧ value ≤ 4294967295 := by
  unfold codecWriteU32Le
  exact ExceptList.guarded_eq_ok_iff

theorem writeSizedTextCore_ok_iff {value : String} (hm : maxStringBytes ≤ 4294967295) :
    writeSizedTextCore value maxStringBytes label = .ok bytes ↔
      bytes = sizedText value ∧ (utf8Encode value).length ≤ maxStringBytes := by
  unfold writeSizedTextCore sizedText
  simp only [ExceptList.bind_eq_ok_iff, strictUtf8Bytes_ok_iff, codecWriteU32Le_ok_iff]
  constructor
  · rintro ⟨text, ⟨rfl, hle⟩, length, ⟨rfl, -, -⟩, h⟩
    cases h
    exact ⟨by rw [Int.toNat_natCast], hle⟩
  · rintro ⟨rfl, hle⟩
    exact ⟨_, ⟨rfl, hle⟩, _, ⟨rfl, by omega, by omega⟩, by rw [Int.toNat_natCast]⟩

/-- The measure of an atom is the length of its bytes, where its texts fit. -/
theorem measureAtom_ok_iff {a : Atom} : measureAtom maxStringBytes a = .ok n ↔ n = a.bytes.length ∧ a.Fits maxStringBytes := by
  have hsized : ∀ s : String, (sizedText s).length = 4 + (utf8Encode s).length := fun s => by simp [sizedText]
  cases a with
  | string s =>
    unfold measureAtom Atom.bytes Atom.Fits
    rw [ExceptList.bind_eq_ok_iff, List.length_cons, hsized]
    constructor
    · rintro ⟨k, hk, he⟩
      obtain ⟨rfl, hle⟩ := utf8Length_ok_iff.1 hk
      cases he
      exact ⟨by omega, hle⟩
    · rintro ⟨rfl, hle⟩
      exact ⟨_, utf8Length_ok_iff.2 ⟨rfl, hle⟩, by rw [Except.ok.injEq]; omega⟩
  | keyword k =>
    unfold measureAtom Atom.bytes Atom.Fits
    dsimp only
    rw [List.length_cons, hsized]
    by_cases h : k.spelling = ""
    · simp [h]
    · rw [if_neg h, ExceptList.bind_eq_ok_iff]
      constructor
      · rintro ⟨m, hm, he⟩
        obtain ⟨rfl, hle⟩ := utf8Length_ok_iff.1 hm
        cases he
        exact ⟨by omega, h, hle⟩
      · rintro ⟨rfl, -, hle⟩
        exact ⟨_, utf8Length_ok_iff.2 ⟨rfl, hle⟩, by rw [Except.ok.injEq]; omega⟩
  | bool b => cases b <;> simp [measureAtom, Atom.bytes, Atom.Fits, eq_comm]
  | int v => simp [measureAtom, Atom.bytes, Atom.Fits, eq_comm]
  | float x => simp [measureAtom, Atom.bytes, Atom.Fits, eq_comm]
  | instant i => simp [measureAtom, Atom.bytes, Atom.Fits, eq_comm]

theorem codecNode_ok_iff {nodes nodes' : Nat} {u : Unit} :
    codecNode maximum nodes = .ok (u, nodes') ↔ nodes' = nodes + 1 ∧ nodes + 1 ≤ maximum := by
  unfold codecNode
  split
  · simp only [reduceCtorEq, false_iff]
    omega
  · simp only [Except.ok.injEq, Prod.mk.injEq, true_and]
    omega

/-- The measure of a term is the length of its bytes, where it is within the limits. -/
theorem measureTermCore_ok_iff {depth nodes nodes' : Nat} :
    measureTermCore maxStringBytes maxNodes maxDepth t depth nodes = .ok (n, nodes') ↔
      n = t.bytes.length ∧ nodes' = nodes + t.nodes ∧ nodes' ≤ maxNodes ∧ depth + t.height ≤ maxDepth ∧
        t.Fits maxStringBytes := by
  induction t generalizing depth nodes n nodes' with
  | atom a =>
    unfold measureTermCore
    rw [Term.height, Term.nodes, Term.bytes]
    split
    · simp only [reduceCtorEq, false_iff]
      omega
    · rw [ExceptList.stateT_bind_eq_ok_iff]
      constructor
      · rintro ⟨u, nodes1, h1, h2⟩
        obtain ⟨rfl, hle⟩ := codecNode_ok_iff.1 h1
        cases hm : measureAtom maxStringBytes a with
        | error e =>
          rw [hm] at h2
          cases h2
        | ok m =>
          rw [hm] at h2
          cases h2
          obtain ⟨rfl, hf⟩ := measureAtom_ok_iff.1 hm
          exact ⟨rfl, rfl, hle, by omega, hf⟩
      · rintro ⟨rfl, rfl, hle, -, hf⟩
        exact ⟨(), _, codecNode_ok_iff.2 ⟨rfl, hle⟩, by rw [measureAtom_ok_iff.2 ⟨rfl, hf⟩]; rfl⟩
  | triple t1 t2 t3 ih1 ih2 ih3 =>
    unfold measureTermCore
    rw [Term.height, Term.nodes, Term.bytes]
    split
    · simp only [reduceCtorEq, false_iff]
      omega
    · simp only [ExceptList.stateT_bind_eq_ok_iff, ih1, ih2, ih3, codecNode_ok_iff, List.length_cons, List.length_append]
      constructor
      · rintro ⟨u, _, ⟨rfl, -⟩, _, _, ⟨rfl, rfl, -, h1, f1⟩, _, _, ⟨rfl, rfl, -, h2, f2⟩, _, _, ⟨rfl, rfl, hle, h3, f3⟩, he⟩
        cases he
        exact ⟨by omega, by omega, hle, by omega, f1, f2, f3⟩
      · rintro ⟨rfl, rfl, hle, hh, f1, f2, f3⟩
        refine ⟨(), _, ⟨rfl, by omega⟩, _, _, ⟨rfl, rfl, by omega, by omega, f1⟩, _, _, ⟨rfl, rfl, by omega, by omega, f2⟩, _, _,
          ⟨rfl, rfl, by omega, by omega, f3⟩, ?_⟩
        show Except.ok _ = Except.ok _
        rw [Except.ok.injEq, Prod.mk.injEq]
        omega

theorem measureTermCodecV1_ok_iff {m : TermCodecMeasure} (hs : 0 < maxStringBytes) (hd : 0 < maxDepth ∧ maxDepth ≤ 256) :
    measureTermCodecV1 t maxStringBytes maxNodes maxDepth = .ok m ↔
      m = ⟨t.bytes.length, t.nodes⟩ ∧ t.nodes ≤ maxNodes ∧ t.height ≤ maxDepth ∧ t.Fits maxStringBytes := by
  have hpos := t.nodes_pos
  unfold measureTermCodecV1 requireCodecLimits
  simp only [ExceptList.bind_eq_ok_iff]
  constructor
  · rintro ⟨u, -, ⟨n, nodes⟩, h, he⟩
    obtain ⟨rfl, rfl, hle, hh, hf⟩ := measureTermCore_ok_iff.1 h
    cases he
    exact ⟨by simp, by omega, by omega, hf⟩
  · rintro ⟨rfl, hle, hh, hf⟩
    exact ⟨(), by rw [if_pos ⟨hs, by omega, hd⟩], ⟨_, _⟩, measureTermCore_ok_iff.2 ⟨rfl, rfl, by omega, by omega, hf⟩, by simp⟩

/-- The bytes written of a term are its bytes, where its texts fit. -/
theorem writeTermCore_eq_ok (hm : maxStringBytes ≤ 4294967295) (hf : t.Fits maxStringBytes) :
    writeTermCore maxStringBytes t = .ok t.bytes := by
  induction t with
  | triple t1 t2 t3 ih1 ih2 ih3 =>
    unfold writeTermCore
    rw [ih1 hf.1, ih2 hf.2.1, ih3 hf.2.2]
    rfl
  | atom a =>
    cases a with
    | string s =>
      unfold writeTermCore
      rw [(writeSizedTextCore_ok_iff hm).2 ⟨rfl, hf⟩]
      rfl
    | keyword k =>
      unfold writeTermCore
      rw [(writeSizedTextCore_ok_iff hm).2 ⟨rfl, hf.2⟩]
      rfl
    | instant i =>
      unfold writeTermCore
      rw [codecWriteU32Le_ok_iff.2 ⟨rfl, by omega, by have := i.canonical; omega⟩, Int.toNat_natCast]
      rfl
    | bool b => cases b <;> rfl
    | int v => rfl
    | float x => rfl

/-- A term is written exactly when it is within the limits, as its bytes. -/
theorem writeTermCodecV1_ok_iff {r : Bytes × Nat} (hs : 0 < maxStringBytes)
    (hm : maxStringBytes ≤ 4294967295) (hd : 0 < maxDepth ∧ maxDepth ≤ 256) : writeTermCodecV1 t maxStringBytes maxNodes maxDepth = .ok r ↔
      r = (t.bytes, t.nodes) ∧ t.nodes ≤ maxNodes ∧ t.height ≤ maxDepth ∧ t.Fits maxStringBytes := by
  unfold writeTermCodecV1
  simp only [ExceptList.bind_eq_ok_iff, measureTermCodecV1_ok_iff hs hd]
  constructor
  · rintro ⟨m, ⟨rfl, hn, hh, hf⟩, bytes, hw, he⟩
    rw [writeTermCore_eq_ok hm hf] at hw
    cases hw
    cases he
    exact ⟨rfl, hn, hh, hf⟩
  · rintro ⟨rfl, hn, hh, hf⟩
    exact ⟨_, ⟨rfl, hn, hh, hf⟩, _, writeTermCore_eq_ok hm hf, rfl⟩

end Writing

end Fram.Framrpc
