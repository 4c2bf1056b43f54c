import Fram.Types
import Mathlib.Tactic

/-!
# UTF-8

The text check of `read-utf8!` in `src/fram/native_wire_codec.bgl`: it walks the bytes scalar by scalar and refuses overlong forms,
surrogates and code points past the last one. It accepts exactly the encodings of strings (`utf8Decode_eq_some_iff`).

The decoder of `src/fram/native_wire_codec.bgl` with its cells, as `read-utf8!` uses it: bytes with a limit, the position of the next
read, and the first error. The text is walked one scalar after the other, and each byte of a scalar is read from the decoder. What is
read is nothing past the announced range, although the bytes of the decoder go on.
-/

namespace Fram

variable {b0 b1 : Nat} {c : Char} {text : Bytes} {s : String}

/-- A byte string. -/
abbrev Bytes := List UInt8

/-- (`utf8-encode`) The bytes of a string. -/
def utf8Encode (s : String) : Bytes := s.toList.flatMap String.utf8EncodeChar

/-- (`continuation?`) The byte is `10xxxxxx`. -/
def isContinuation (value : Nat) : Bool := value / 64 == 2

/-- The width of the scalar that a first byte opens; `0` for a byte that opens none. -/
def scalarWidth (b0 : Nat) : Nat :=
  if b0 ≤ 127 then 1
  else if 194 ≤ b0 ∧ b0 ≤ 223 then 2
  else if 224 ≤ b0 ∧ b0 ≤ 239 then 3
  else if 240 ≤ b0 ∧ b0 ≤ 244 then 4
  else 0

/-- The code point of the bytes of a scalar of a width. -/
def codePoint (width b0 b1 b2 b3 : Nat) : Nat :=
  if width = 1 then b0
  else if width = 2 then b0 % 32 * 64 + b1 % 64
  else if width = 3 then b0 % 16 * 4096 + (b1 % 64 * 64 + b2 % 64)
  else b0 % 8 * 262144 + (b1 % 64 * 4096 + (b2 % 64 * 64 + b3 % 64))

/-- The bytes of a scalar of a width are well formed: continuations where they must be, nothing overlong, no surrogate, nothing past
the last code point. -/
def scalarValid (width b0 b1 b2 b3 : Nat) : Bool :=
  (decide (width = 1) || isContinuation b1) &&
    ((decide (width < 3) || isContinuation b2) && (decide (width < 4) || isContinuation b3)) &&
    ((decide (width ≠ 3) || ((decide (b0 ≠ 224) || decide (160 ≤ b1)) && (decide (b0 ≠ 237) || decide (b1 ≤ 159)))) &&
      ((decide (width ≠ 4) || ((decide (b0 ≠ 240) || decide (144 ≤ b1)) && (decide (b0 ≠ 244) || decide (b1 ≤ 143)))) &&
        (!(decide (55296 ≤ codePoint width b0 b1 b2 b3) && decide (codePoint width b0 b1 b2 b3 ≤ 57343)) &&
          decide (codePoint width b0 b1 b2 b3 ≤ 1114111))))

/-- The scalar of a width, if its bytes are well formed. -/
def scalarOf (width b0 b1 b2 b3 : Nat) : Option Char :=
  if scalarValid width b0 b1 b2 b3 then some (Char.ofNat (codePoint width b0 b1 b2 b3)) else none

/-- The first scalar of a text and what follows it. -/
def utf8Next : Bytes → Option (Char × Bytes)
  | [] => none
  | b0 :: rest =>
    match scalarWidth b0.toNat, rest with
    | 1, rest => (scalarOf 1 b0.toNat 0 0 0).map (·, rest)
    | 2, b1 :: rest => (scalarOf 2 b0.toNat b1.toNat 0 0).map (·, rest)
    | 3, b1 :: b2 :: rest => (scalarOf 3 b0.toNat b1.toNat b2.toNat 0).map (·, rest)
    | 4, b1 :: b2 :: b3 :: rest => (scalarOf 4 b0.toNat b1.toNat b2.toNat b3.toNat).map (·, rest)
    | _, _ => none

/-- The scalars of a text, in at most `fuel` steps. -/
def utf8Chars : Nat → Bytes → Option (List Char)
  | _, [] => some []
  | 0, _ => none
  | fuel + 1, text =>
    match utf8Next text with
    | none => none
    | some (c, rest) => (utf8Chars fuel rest).map (c :: ·)

/-- (`utf8-decode`, after the check of `read-utf8!`) The string of a text, if it is UTF-8. -/
def utf8Decode (text : Bytes) : Option String := (utf8Chars text.length text).map String.ofList

/-! ## One scalar -/

theorem utf8Next_append (c : Char) (rest : Bytes) : utf8Next (String.utf8EncodeChar c ++ rest) = some (c, rest) := by
  have hv := c.valid
  have hc : Char.ofNat c.val.toNat = c := Char.ofNat_toNat c
  have hrange : c.val.toNat < 55296 ∨ (57343 < c.val.toNat ∧ c.val.toNat < 1114112) := hv
  unfold String.utf8EncodeChar
  generalize c.val.toNat = v at *
  dsimp only
  have m : ∀ n : Nat, n < 256 → (UInt8.ofNat n).toNat = n := fun n hn => by
    rw [UInt8.toNat_ofNat', Nat.mod_eq_of_lt hn]
  split
  · rename_i h
    have h' : v ≤ 127 := h
    have hb := m v (by omega)
    have hw : scalarWidth v = 1 := by simp [scalarWidth, h']
    have hs : scalarValid 1 v 0 0 0 = true := by
      simp [scalarValid, codePoint]
      omega
    simp [utf8Next, scalarOf, hb, hw, hs, codePoint, hc]
  · rename_i h1
    have h1' : ¬v ≤ 127 := h1
    split
    · rename_i h2
      have h2' : v ≤ 2047 := h2
      have hb0 := m (v / 64 % 32 + 192) (by omega)
      have hb1 := m (v % 64 + 128) (by omega)
      have hw : scalarWidth (v / 64 % 32 + 192) = 2 := by
        unfold scalarWidth
        rw [if_neg (by omega), if_pos (by omega)]
      have hp : codePoint 2 (v / 64 % 32 + 192) (v % 64 + 128) 0 0 = v := by
        simp [codePoint]
        omega
      have hs : scalarValid 2 (v / 64 % 32 + 192) (v % 64 + 128) 0 0 = true := by
        simp [scalarValid, hp, isContinuation]
        omega
      generalize UInt8.ofNat (v / 64 % 32 + 192) = b0 at hb0 ⊢
      generalize UInt8.ofNat (v % 64 + 128) = b1 at hb1 ⊢
      simp [utf8Next, scalarOf, hb0, hb1, hw, hs, hp, hc]
    · rename_i h2
      have h2' : ¬v ≤ 2047 := h2
      split
      · rename_i h3
        have h3' : v ≤ 65535 := h3
        have hb0 := m (v / 4096 % 16 + 224) (by omega)
        have hb1 := m (v / 64 % 64 + 128) (by omega)
        have hb2 := m (v % 64 + 128) (by omega)
        have hw : scalarWidth (v / 4096 % 16 + 224) = 3 := by
          unfold scalarWidth
          rw [if_neg (by omega), if_neg (by omega), if_pos (by omega)]
        have hp : codePoint 3 (v / 4096 % 16 + 224) (v / 64 % 64 + 128) (v % 64 + 128) 0 = v := by
          simp [codePoint]
          omega
        have hs : scalarValid 3 (v / 4096 % 16 + 224) (v / 64 % 64 + 128) (v % 64 + 128) 0 = true := by
          simp [scalarValid, hp, isContinuation]
          omega
        generalize UInt8.ofNat (v / 4096 % 16 + 224) = b0 at hb0 ⊢
        generalize UInt8.ofNat (v / 64 % 64 + 128) = b1 at hb1 ⊢
        generalize UInt8.ofNat (v % 64 + 128) = b2 at hb2 ⊢
        simp [utf8Next, scalarOf, hb0, hb1, hb2, hw, hs, hp, hc]
      · rename_i h3
        have h3' : ¬v ≤ 65535 := h3
        have hb0 := m (v / 262144 % 8 + 240) (by omega)
        have hb1 := m (v / 4096 % 64 + 128) (by omega)
        have hb2 := m (v / 64 % 64 + 128) (by omega)
        have hb3 := m (v % 64 + 128) (by omega)
        have hw : scalarWidth (v / 262144 % 8 + 240) = 4 := by
          unfold scalarWidth
          rw [if_neg (by omega), if_neg (by omega), if_neg (by omega), if_pos (by omega)]
        have hp : codePoint 4 (v / 262144 % 8 + 240) (v / 4096 % 64 + 128) (v / 64 % 64 + 128) (v % 64 + 128) = v := by
          simp [codePoint]
          omega
        have hs : scalarValid 4 (v / 262144 % 8 + 240) (v / 4096 % 64 + 128) (v / 64 % 64 + 128) (v % 64 + 128) = true := by
          simp [scalarValid, hp, isContinuation]
          omega
        generalize UInt8.ofNat (v / 262144 % 8 + 240) = b0 at hb0 ⊢
        generalize UInt8.ofNat (v / 4096 % 64 + 128) = b1 at hb1 ⊢
        generalize UInt8.ofNat (v / 64 % 64 + 128) = b2 at hb2 ⊢
        generalize UInt8.ofNat (v % 64 + 128) = b3 at hb3 ⊢
        simp [utf8Next, scalarOf, hb0, hb1, hb2, hb3, hw, hs, hp, hc]

theorem toNat_val_ofNat {v : Nat} (hv : v < 55296 ∨ (57343 < v ∧ v < 1114112)) : (Char.ofNat v).val.toNat = v := by
  unfold Char.ofNat
  rw [dif_pos hv]
  rfl

/-- A scalar of one byte. -/
theorem scalarOf_one (hb : b0 ≤ 127) (h : scalarOf 1 b0 0 0 0 = some c) : c.val.toNat = b0 := by
  unfold scalarOf at h
  split at h
  · cases h
    rw [toNat_val_ofNat] <;> simp [codePoint]
    omega
  · cases h

/-- A scalar of two bytes. -/
theorem scalarOf_two (h : scalarOf 2 b0 b1 0 0 = some c) : b1 / 64 = 2 ∧ c.val.toNat = b0 % 32 * 64 + b1 % 64 := by
  unfold scalarOf at h
  split at h
  · rename_i hs
    cases h
    simp [scalarValid, isContinuation] at hs
    refine ⟨hs.1, ?_⟩
    rw [toNat_val_ofNat] <;> simp [codePoint]
    omega
  · cases h

/-- A scalar of three bytes. -/
theorem scalarOf_three {b2 : Nat} (hb : 224 ≤ b0 ∧ b0 ≤ 239) (h : scalarOf 3 b0 b1 b2 0 = some c) :
    b1 / 64 = 2 ∧ b2 / 64 = 2 ∧ (b0 = 224 → 160 ≤ b1) ∧ c.val.toNat = b0 % 16 * 4096 + (b1 % 64 * 64 + b2 % 64) := by
  unfold scalarOf at h
  split at h
  · rename_i hs
    cases h
    simp [scalarValid, isContinuation, codePoint] at hs
    have h1 : b0 = 224 → 160 ≤ b1 := by omega
    refine ⟨by omega, by omega, h1, ?_⟩
    rw [toNat_val_ofNat] <;> simp [codePoint]
    omega
  · cases h

/-- A scalar of four bytes. -/
theorem scalarOf_four {b2 b3 : Nat} (h : scalarOf 4 b0 b1 b2 b3 = some c) :
    b1 / 64 = 2 ∧ b2 / 64 = 2 ∧ b3 / 64 = 2 ∧ (b0 = 240 → 144 ≤ b1) ∧ (b0 = 244 → b1 ≤ 143) ∧
      c.val.toNat = b0 % 8 * 262144 + (b1 % 64 * 4096 + (b2 % 64 * 64 + b3 % 64)) := by
  unfold scalarOf at h
  split at h
  · rename_i hs
    cases h
    simp [scalarValid, isContinuation, codePoint] at hs
    refine ⟨by omega, by omega, by omega, by omega, by omega, ?_⟩
    rw [toNat_val_ofNat] <;> simp [codePoint]
    omega
  · cases h

/-- What the check takes as a scalar is the encoding of a scalar. -/
theorem utf8Next_eq_some {rest : Bytes} (h : utf8Next text = some (c, rest)) : text = String.utf8EncodeChar c ++ rest := by
  have hbyte : ∀ (b : UInt8) (n : Nat), n = b.toNat → UInt8.ofNat n = b := by
    rintro b n rfl
    exact UInt8.ofNat_toNat
  cases text with
  | nil => simp [utf8Next] at h
  | cons b0 tail =>
    have h0 := b0.toNat_lt
    have hwidth : scalarWidth b0.toNat = 0 ∨ scalarWidth b0.toNat = 1 ∧ b0.toNat ≤ 127 ∨
        scalarWidth b0.toNat = 2 ∧ 194 ≤ b0.toNat ∧ b0.toNat ≤ 223 ∨
        scalarWidth b0.toNat = 3 ∧ 224 ≤ b0.toNat ∧ b0.toNat ≤ 239 ∨
        scalarWidth b0.toNat = 4 ∧ 240 ≤ b0.toNat ∧ b0.toNat ≤ 244 := by
      unfold scalarWidth
      split_ifs <;> simp_all
    rcases hwidth with hw | ⟨hw, hr⟩ | ⟨hw, hr⟩ | ⟨hw, hr⟩ | ⟨hw, hr⟩
    · simp [utf8Next, hw] at h
    · simp only [utf8Next, hw, Option.map_eq_some_iff, Prod.mk.injEq] at h
      obtain ⟨c, hs, rfl, rfl⟩ := h
      have hv := scalarOf_one hr hs
      unfold String.utf8EncodeChar
      rw [hv, if_pos hr, hbyte b0 b0.toNat rfl]
      rfl
    · rcases tail with _ | ⟨b1, tail⟩
      · simp [utf8Next, hw] at h
      simp only [utf8Next, hw, Option.map_eq_some_iff, Prod.mk.injEq] at h
      obtain ⟨c, hs, rfl, rfl⟩ := h
      have h1 := b1.toNat_lt
      obtain ⟨c1, hv⟩ := scalarOf_two hs
      unfold String.utf8EncodeChar
      rw [hv, if_neg (show ¬_ ≤ 127 by omega), if_pos (show _ ≤ 2047 by omega)]
      rw [hbyte b0 _ (by omega), hbyte b1 _ (by omega)]
      rfl
    · rcases tail with _ | ⟨b1, _ | ⟨b2, tail⟩⟩
      · simp [utf8Next, hw] at h
      · simp [utf8Next, hw] at h
      simp only [utf8Next, hw, Option.map_eq_some_iff, Prod.mk.injEq] at h
      obtain ⟨c, hs, rfl, rfl⟩ := h
      have h1 := b1.toNat_lt
      have h2 := b2.toNat_lt
      obtain ⟨c1, c2, e0, hv⟩ := scalarOf_three hr hs
      unfold String.utf8EncodeChar
      rw [hv, if_neg (show ¬_ ≤ 127 by omega), if_neg (show ¬_ ≤ 2047 by omega), if_pos (show _ ≤ 65535 by omega)]
      rw [hbyte b0 _ (by omega), hbyte b1 _ (by omega), hbyte b2 _ (by omega)]
      rfl
    · rcases tail with _ | ⟨b1, _ | ⟨b2, _ | ⟨b3, tail⟩⟩⟩
      · simp [utf8Next, hw] at h
      · simp [utf8Next, hw] at h
      · simp [utf8Next, hw] at h
      simp only [utf8Next, hw, Option.map_eq_some_iff, Prod.mk.injEq] at h
      obtain ⟨c, hs, rfl, rfl⟩ := h
      have h1 := b1.toNat_lt
      have h2 := b2.toNat_lt
      have h3 := b3.toNat_lt
      obtain ⟨c1, c2, c3, e0, -, hv⟩ := scalarOf_four hs
      unfold String.utf8EncodeChar
      rw [hv, if_neg (show ¬_ ≤ 127 by omega), if_neg (show ¬_ ≤ 2047 by omega), if_neg (show ¬_ ≤ 65535 by omega)]
      rw [hbyte b0 _ (by omega), hbyte b1 _ (by omega), hbyte b2 _ (by omega), hbyte b3 _ (by omega)]
      rfl

/-! ## Whole texts -/

theorem utf8EncodeChar_length_pos (c : Char) : 0 < (String.utf8EncodeChar c).length :=
  List.length_pos_of_ne_nil String.utf8EncodeChar_ne_nil

theorem utf8Chars_flatMap (cs : List Char) {fuel : Nat} (hf : cs.length ≤ fuel) :
    utf8Chars fuel (cs.flatMap String.utf8EncodeChar) = some cs := by
  induction cs generalizing fuel with
  | nil => cases fuel <;> rfl
  | cons c cs ih =>
    obtain ⟨fuel, rfl⟩ : ∃ n, fuel = n + 1 := ⟨fuel - 1, by simp at hf; omega⟩
    rw [List.flatMap_cons]
    have hne : String.utf8EncodeChar c ++ cs.flatMap String.utf8EncodeChar ≠ [] := by
      simp [String.utf8EncodeChar_ne_nil]
    obtain ⟨b, bs, hb⟩ := List.exists_cons_of_ne_nil hne
    have hnext := utf8Next_append c (cs.flatMap String.utf8EncodeChar)
    rw [hb] at hnext ⊢
    simp only [utf8Chars, hnext, ih (by simpa using hf), Option.map_some]

theorem utf8Chars_eq_some {fuel : Nat} {cs : List Char} (h : utf8Chars fuel text = some cs) : text = cs.flatMap String.utf8EncodeChar := by
  induction fuel generalizing text cs with
  | zero =>
    cases text with
    | nil =>
      cases h
      rfl
    | cons b bs => cases h
  | succ fuel ih =>
    cases text with
    | nil =>
      cases h
      rfl
    | cons b bs =>
      simp only [utf8Chars] at h
      split at h
      · cases h
      · rename_i c rest hn
        rw [Option.map_eq_some_iff] at h
        obtain ⟨cs, hr, rfl⟩ := h
        rw [utf8Next_eq_some hn, ih hr, List.flatMap_cons]

/-- The check accepts the encodings of strings and nothing else, and gives the string back. -/
theorem utf8Decode_eq_some_iff : utf8Decode text = some s ↔ text = utf8Encode s := by
  unfold utf8Decode utf8Encode
  constructor
  · intro h
    rw [Option.map_eq_some_iff] at h
    obtain ⟨cs, hcs, rfl⟩ := h
    rw [utf8Chars_eq_some hcs, String.toList_ofList]
  · rintro rfl
    have hle : s.toList.length ≤ (s.toList.flatMap String.utf8EncodeChar).length := by
      generalize s.toList = cs
      induction cs with
      | nil => simp
      | cons c cs ih =>
        have := utf8EncodeChar_length_pos c
        simp only [List.flatMap_cons, List.length_append, List.length_cons]
        omega
    rw [utf8Chars_flatMap _ hle, Option.map_some, String.ofList_toList]

@[simp] theorem utf8Decode_utf8Encode (s : String) : utf8Decode (utf8Encode s) = some s := utf8Decode_eq_some_iff.2 rfl

theorem utf8Encode_injective {s' : String} (h : utf8Encode s = utf8Encode s') : s = s' := by
  have := utf8Decode_utf8Encode s
  rw [h, utf8Decode_utf8Encode] at this
  exact (Option.some.inj this).symm

/-- Only the empty string has an empty encoding. -/
theorem utf8Encode_eq_nil_iff : utf8Encode s = [] ↔ s = "" := by
  constructor
  · intro h
    exact utf8Encode_injective (h.trans rfl)
  · rintro rfl
    rfl

/-! ## Reading from a decoder -/

namespace Utf8

/-- (`Decoder`) The position is an Int that a read leaves where it is or moves on. -/
structure Decoder where
  bytes : Bytes
  position : Nat
  limit : Nat
  error : Option String
  /-- The limit is within the bytes. -/
  bounded : limit ≤ bytes.length

namespace Decoder

/-- (`decoder-error!`) The first error stays. -/
def fail (d : Decoder) (message : String) : Decoder := { d with error := d.error.or (some message) }

/-- (`decoder-remaining`) -/
def remaining (d : Decoder) : Int := d.limit - d.position

/-- (`ensure-bytes!`) -/
def ensureBytes (d : Decoder) (amount : Int) (context : String) : Bool × Decoder :=
  if 0 ≤ amount ∧ amount ≤ d.remaining then (true, d) else (false, d.fail ("FRAMRPC ended inside " ++ context))

/-- (`read-byte-at`) -/
def readByteAt (bytes : Bytes) (position : Nat) : Nat := (bytes.getD position 0).toNat

/-- (`read-u8!`) The next byte, or `0` with an error. -/
def readU8 (d : Decoder) (context : String) : Nat × Decoder :=
  match d.ensureBytes 1 context with
  | (true, d) => (readByteAt d.bytes d.position, { d with position := d.position + 1 })
  | (false, d) => (0, d)

/-- The next byte when the scalar has one more. -/
def readWhen (d : Decoder) (test : Bool) (context : String) : Nat × Decoder := if test then d.readU8 context else (0, d)

/-- The loop of `read-utf8!`, up to the end of the range. Nothing when the fuel runs out. -/
def utf8Loop (label : String) (start stop : Nat) : Nat → Decoder → Option (String × Decoder)
  | 0, _ => none
  | fuel + 1, d =>
    if stop ≤ d.position then some ((utf8Decode ((d.bytes.take stop).drop start)).getD "", d)
    else
      let (b0, d₁) := d.readU8 label
      let width := scalarWidth b0
      if width = 0 ∨ stop < d.position + width then some ("", d₁.fail (label ++ " is not valid UTF-8"))
      else
        let (b1, d₂) := d₁.readWhen (1 < width) label
        let (b2, d₃) := d₂.readWhen (2 < width) label
        let (b3, d₄) := d₃.readWhen (3 < width) label
        if scalarValid width b0 b1 b2 b3 then utf8Loop label start stop fuel d₄
        else some ("", d₄.fail (label ++ " is not valid UTF-8"))

/-- (`read-utf8!`) The text of the next `length` bytes, or the empty text with an error. Each round of the loop reads a byte, so one more
round than bytes is enough. -/
def readUtf8 (d : Decoder) (length : Int) (label : String) : Option (String × Decoder) :=
  match d.ensureBytes length label with
  | (true, d) => utf8Loop label d.position (d.position + length.toNat) (length.toNat + 1) d
  | (false, d) => some ("", d)

end Decoder

end Utf8

end Fram
