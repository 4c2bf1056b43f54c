import Mathlib.Tactic

/-!
# Cyclic redundancy checks

A reflected check of `w` bits over a polynomial: each byte is mixed into the register, which is then stepped once a bit. When the
polynomial has its top bit set a step loses nothing, so two runs over lists that differ in one byte end apart (`run_ne_of_byte`). Bit by
bit, as many bits as the register has may be mixed in at once, so lists that differ only within that many consecutive bits have different
checks (`checksum_ne_of_window`).
-/

namespace Crc

variable {w : Nat}

/-- One bit of the register. -/
def bitStep (polynomial crc : BitVec w) : BitVec w :=
  if crc.getLsbD 0 then (crc >>> 1) ^^^ polynomial else crc >>> 1

/-- Some bits of the register. -/
def bitSteps (polynomial : BitVec w) : Nat → BitVec w → BitVec w
  | 0, crc => crc
  | n + 1, crc => bitSteps polynomial n (bitStep polynomial crc)

/-- One byte. -/
def byteStep (polynomial crc : BitVec w) (b : UInt8) : BitVec w :=
  bitSteps polynomial 8 (crc ^^^ b.toBitVec.setWidth w)

/-- A list of bytes. -/
def run (polynomial : BitVec w) (crc : BitVec w) (bytes : List UInt8) : BitVec w := bytes.foldl (byteStep polynomial) crc

/-- The check of a list of bytes. -/
def checksum (polynomial : BitVec w) (bytes : List UInt8) : BitVec w :=
  run polynomial (BitVec.allOnes w) bytes ^^^ BitVec.allOnes w

theorem xor_left_injective (x : BitVec w) : Function.Injective fun y => y ^^^ x := by
  intro a b h
  have h : a ^^^ x = b ^^^ x := h
  calc a = (a ^^^ x) ^^^ x := by rw [BitVec.xor_assoc, BitVec.xor_self, BitVec.xor_zero]
    _ = (b ^^^ x) ^^^ x := by rw [h]
    _ = b := by rw [BitVec.xor_assoc, BitVec.xor_self, BitVec.xor_zero]

section Injective

variable {polynomial : BitVec w}

/-- The top bit after a step is the low bit before it. -/
theorem top_bitStep (hp : polynomial.getLsbD (w - 1) = true) (x : BitVec w) : (bitStep polynomial x).getLsbD (w - 1) = x.getLsbD 0 := by
  have hw : 0 < w := by
    by_contra h
    obtain rfl : w = 0 := by omega
    simp at hp
  have hs : (x >>> 1).getLsbD (w - 1) = false := by
    rw [BitVec.getLsbD_ushiftRight]
    exact BitVec.getLsbD_of_ge _ _ (by omega)
  unfold bitStep
  split
  · rename_i h
    rw [BitVec.getLsbD_xor, hs, hp, h]
    rfl
  · rename_i h
    rw [hs]
    simpa using h

theorem bitStep_injective (hp : polynomial.getLsbD (w - 1) = true) : Function.Injective (bitStep polynomial) := by
  intro x y h
  have h0 : x.getLsbD 0 = y.getLsbD 0 := by rw [← top_bitStep hp x, h, top_bitStep hp y]
  have h1 : x >>> 1 = y >>> 1 := by
    unfold bitStep at h
    rw [h0] at h
    split at h
    · exact xor_left_injective _ h
    · exact h
  apply BitVec.eq_of_getLsbD_eq
  intro i hi
  cases i with
  | zero => exact h0
  | succ i =>
    have := congrArg (·.getLsbD i) h1
    simpa [BitVec.getLsbD_ushiftRight, Nat.add_comm] using this

theorem bitSteps_injective (hp : polynomial.getLsbD (w - 1) = true) (n : Nat) : Function.Injective (bitSteps polynomial n) := by
  induction n with
  | zero => exact fun x y h => h
  | succ n ih => exact fun x y h => bitStep_injective hp (ih h)

theorem run_injective (hp : polynomial.getLsbD (w - 1) = true) (bytes : List UInt8) :
    Function.Injective fun crc => run polynomial crc bytes := by
  induction bytes with
  | nil => exact fun x y h => h
  | cons b bytes ih => exact fun x y h => xor_left_injective _ (bitSteps_injective hp 8 (ih h))

/-- A changed byte changes the register for good. -/
theorem run_ne_of_byte (hp : polynomial.getLsbD (w - 1) = true) (hw : 8 ≤ w) (crc : BitVec w) (pre post : List UInt8)
    {b b' : UInt8} (hb : b ≠ b') : run polynomial crc (pre ++ b :: post) ≠ run polynomial crc (pre ++ b' :: post) := by
  intro h
  simp only [run, List.foldl_append, List.foldl_cons] at h
  have h2 := bitSteps_injective hp 8 (run_injective hp post h)
  generalize List.foldl (byteStep polynomial) crc pre = s at h2
  rw [BitVec.xor_comm s, BitVec.xor_comm s] at h2
  have h3 := xor_left_injective _ h2
  apply hb
  apply UInt8.toBitVec_inj.1
  apply BitVec.eq_of_getLsbD_eq
  intro i hi
  have := congrArg (·.getLsbD i) h3
  simpa [BitVec.getLsbD_setWidth, show i < w by omega] using this

/-- A changed byte changes the check. -/
theorem checksum_ne_of_byte (hp : polynomial.getLsbD (w - 1) = true) (hw : 8 ≤ w) (pre post : List UInt8) {b b' : UInt8}
    (hb : b ≠ b') : checksum polynomial (pre ++ b :: post) ≠ checksum polynomial (pre ++ b' :: post) :=
  fun h => run_ne_of_byte hp hw _ pre post hb (xor_left_injective _ h)

end Injective

/-! ## Bursts -/

/-- A list of bits, the first one lowest. -/
def packed (w : Nat) : List Bool → BitVec w
  | [] => 0#w
  | b :: bits => (packed w bits <<< 1) ^^^ BitVec.setWidth w (BitVec.ofBool b)

/-- One bit of data. -/
def feed (polynomial crc : BitVec w) (b : Bool) : BitVec w := bitStep polynomial (crc ^^^ BitVec.setWidth w (BitVec.ofBool b))

/-- A list of bits of data. -/
def feeds (polynomial crc : BitVec w) (bits : List Bool) : BitVec w := bits.foldl (feed polynomial) crc

/-- The bits of a byte, in the order in which they are taken: the lowest first. -/
def bitsOf (b : UInt8) : List Bool := (List.range 8).map b.toBitVec.getLsbD

theorem getLsbD_packed (bits : List Bool) {i : Nat} (hi : i < w) : (packed w bits).getLsbD i = bits[i]?.getD false := by
  induction bits generalizing i with
  | nil => simp [packed]
  | cons b bits ih =>
    cases i with
    | zero => simp [packed, hi]
    | succ i =>
      rw [packed, BitVec.getLsbD_xor, BitVec.getLsbD_shiftLeft, BitVec.getLsbD_setWidth, List.getElem?_cons_succ, ← ih (by omega)]
      simp [hi]

/-- Data that is not yet due does not change the step. -/
theorem bitStep_xor_shifted (polynomial crc : BitVec w) {y : BitVec w} (hy : y.getLsbD (w - 1) = false) :
    bitStep polynomial (crc ^^^ (y <<< 1)) = bitStep polynomial crc ^^^ y := by
  have hlow : (crc ^^^ (y <<< 1)).getLsbD 0 = crc.getLsbD 0 := by simp
  have hshift : (crc ^^^ (y <<< 1)) >>> 1 = (crc >>> 1) ^^^ y := by
    apply BitVec.eq_of_getLsbD_eq
    intro i hi
    rw [BitVec.getLsbD_ushiftRight, BitVec.getLsbD_xor, BitVec.getLsbD_xor, BitVec.getLsbD_ushiftRight, BitVec.getLsbD_shiftLeft]
    by_cases h : 1 + i < w
    · simp [h]
    · obtain rfl : i = w - 1 := by omega
      simp [h, hy]
  unfold bitStep
  rw [hlow, hshift]
  split
  · rw [BitVec.xor_assoc, BitVec.xor_comm y, ← BitVec.xor_assoc]
  · rfl

/-- Bits fed one after the other are as good as bits mixed in at once. -/
theorem feeds_eq (polynomial : BitVec w) {bits : List Bool} (h : bits.length ≤ w) (crc : BitVec w) :
    feeds polynomial crc bits = bitSteps polynomial bits.length (crc ^^^ packed w bits) := by
  induction bits generalizing crc with
  | nil => simp [feeds, packed, bitSteps]
  | cons b bits ih =>
    rw [List.length_cons] at h
    have hstep : bitStep polynomial (crc ^^^ packed w (b :: bits)) = feed polynomial crc b ^^^ packed w bits := by
      rw [packed, BitVec.xor_comm (packed w bits <<< 1), ← BitVec.xor_assoc, bitStep_xor_shifted]
      · rfl
      · rw [getLsbD_packed bits (by omega), List.getElem?_eq_none (by omega), Option.getD_none]
    rw [List.length_cons, bitSteps, hstep, ← ih (by omega)]
    rfl

theorem packed_bitsOf (b : UInt8) : packed w (bitsOf b) = b.toBitVec.setWidth w := by
  apply BitVec.eq_of_getLsbD_eq
  intro i hi
  rw [getLsbD_packed _ hi, BitVec.getLsbD_setWidth, bitsOf]
  by_cases h8 : i < 8
  · simp [h8, hi]
  · rw [List.getElem?_eq_none (by simpa using h8), BitVec.getLsbD_of_ge b.toBitVec i (by omega)]
    simp

/-- A byte is its bits. -/
theorem byteStep_eq (hw : 8 ≤ w) (polynomial crc : BitVec w) (b : UInt8) : byteStep polynomial crc b = feeds polynomial crc (bitsOf b) := by
  rw [feeds_eq polynomial (by simpa [bitsOf] using hw), packed_bitsOf, byteStep]
  simp [bitsOf]

/-- A list of bytes is the bits of the bytes. -/
theorem run_eq_feeds (hw : 8 ≤ w) (polynomial crc : BitVec w) (bytes : List UInt8) :
    run polynomial crc bytes = feeds polynomial crc (bytes.flatMap bitsOf) := by
  induction bytes generalizing crc with
  | nil => rfl
  | cons b bytes ih =>
    rw [run, List.foldl_cons, List.flatMap_cons, feeds, List.foldl_append, ← run, ih, byteStep_eq hw]
    rfl

theorem packed_injective {bits bits' : List Bool} (hlen : bits.length = bits'.length) (hw : bits.length ≤ w)
    (h : packed w bits = packed w bits') : bits = bits' := by
  apply List.ext_getElem hlen
  intro i hi hi'
  have hbit := congrArg (·.getLsbD i) h
  simp only [getLsbD_packed _ (hi.trans_le hw)] at hbit
  rwa [List.getElem?_eq_getElem hi, List.getElem?_eq_getElem hi'] at hbit

theorem feeds_append (polynomial crc : BitVec w) (bits bits' : List Bool) :
    feeds polynomial crc (bits ++ bits') = feeds polynomial (feeds polynomial crc bits) bits' := List.foldl_append

theorem bitsOf_injective {b b' : UInt8} (h : bitsOf b = bitsOf b') : b = b' := by
  apply UInt8.toBitVec_inj.1
  have hpacked := congrArg (packed 8) h
  rwa [packed_bitsOf, packed_bitsOf, BitVec.setWidth_eq, BitVec.setWidth_eq] at hpacked

theorem flatMap_bitsOf_injective {left right : List UInt8} (h : left.flatMap bitsOf = right.flatMap bitsOf) : left = right := by
  induction left generalizing right with
  | nil =>
    cases right with
    | nil => rfl
    | cons b right => simp [bitsOf] at h
  | cons b left ih =>
    cases right with
    | nil => simp [bitsOf] at h
    | cons b' right =>
      rw [List.flatMap_cons, List.flatMap_cons] at h
      obtain ⟨hb, hrest⟩ := List.append_inj h (by simp [bitsOf])
      rw [bitsOf_injective hb, ih hrest]

section Window

variable {polynomial : BitVec w}

theorem feed_injective (hp : polynomial.getLsbD (w - 1) = true) (b : Bool) : Function.Injective fun crc => feed polynomial crc b :=
  fun _ _ h => xor_left_injective _ (bitStep_injective hp h)

theorem feeds_injective (hp : polynomial.getLsbD (w - 1) = true) (bits : List Bool) :
    Function.Injective fun crc => feeds polynomial crc bits := by
  induction bits with
  | nil => exact fun x y h => h
  | cons b bits ih => exact fun x y h => feed_injective hp b (ih h)

/-- Different data of no more bits than the register has leave different registers, whatever comes after. -/
theorem feeds_ne (hp : polynomial.getLsbD (w - 1) = true) (crc : BitVec w) (pre post : List Bool) {bits bits' : List Bool}
    (hlen : bits.length = bits'.length) (hw : bits.length ≤ w) (hne : bits ≠ bits') :
    feeds polynomial crc (pre ++ bits ++ post) ≠ feeds polynomial crc (pre ++ bits' ++ post) := by
  intro h
  rw [feeds_append, feeds_append, feeds_append, feeds_append] at h
  have hmiddle := feeds_injective hp post h
  generalize feeds polynomial crc pre = crc at hmiddle
  rw [feeds_eq polynomial hw, feeds_eq polynomial (hlen ▸ hw), hlen] at hmiddle
  have hxor := bitSteps_injective hp _ hmiddle
  rw [BitVec.xor_comm _ (packed w bits), BitVec.xor_comm _ (packed w bits')] at hxor
  exact hne (packed_injective hlen hw (xor_left_injective _ hxor))

/-- Two lists that differ only within a window. -/
def WithinWindow {α : Type} (size first : Nat) (left right : List α) : Prop :=
  ∀ i, left[i]? ≠ right[i]? → first ≤ i ∧ i < first + size

/-- Lists that differ only within a window are the same before and after it. -/
theorem WithinWindow.split {α : Type} {size first : Nat} {left right : List α} (h : WithinWindow size first left right) :
    left.take first = right.take first ∧ left.drop (first + size) = right.drop (first + size) := by
  have hsame : ∀ i, i < first ∨ first + size ≤ i → left[i]? = right[i]? := by
    intro i hi
    by_contra hne
    have := h i hne
    omega
  constructor
  · apply List.ext_getElem?
    intro i
    rw [List.getElem?_take, List.getElem?_take]
    split
    · rename_i hi
      exact hsame i (Or.inl hi)
    · rfl
  · apply List.ext_getElem?
    intro i
    rw [List.getElem?_drop, List.getElem?_drop]
    exact hsame _ (Or.inr (by omega))

/-- **A burst changes the check.** Two lists of bytes of one length that differ only within as many consecutive bits as the register has
have different checks. -/
theorem checksum_ne_of_window (hp : polynomial.getLsbD (w - 1) = true) (hw : 8 ≤ w) {left right : List UInt8}
    (hlen : left.length = right.length) (hne : left ≠ right) {first : Nat}
    (h : WithinWindow w first (left.flatMap bitsOf) (right.flatMap bitsOf)) : checksum polynomial left ≠ checksum polynomial right := by
  have hbits : (left.flatMap bitsOf).length = (right.flatMap bitsOf).length := by simp [List.length_flatMap, bitsOf, hlen]
  have hdiff : left.flatMap bitsOf ≠ right.flatMap bitsOf := fun he => hne (flatMap_bitsOf_injective he)
  obtain ⟨hpre, hpost⟩ := h.split
  intro hcheck
  have hrun := xor_left_injective _ hcheck
  rw [run_eq_feeds hw, run_eq_feeds hw] at hrun
  generalize left.flatMap bitsOf = x at hbits hdiff hpre hpost hrun
  generalize right.flatMap bitsOf = y at hbits hdiff hpre hpost hrun
  -- Each list is its part before the window, its part in the window and its part after it.
  have hcut : ∀ bits : List Bool, bits = bits.take first ++ (bits.drop first).take w ++ bits.drop (first + w) := by
    intro bits
    rw [List.append_assoc, ← List.drop_drop, List.take_append_drop, List.take_append_drop]
  rw [hcut x, hcut y, hpre, hpost] at hrun
  refine feeds_ne hp _ _ _ (by simp [hbits]) (by simp) (fun he => hdiff ?_) hrun
  rw [hcut x, hcut y, hpre, hpost, he]

end Window

end Crc
