import Fram.Checksum

/-!
# The checksums agree, and bursts change them

Every variant gives the checksum of the bytes that it walks, so they agree on every byte string and every range of it, and a walk may be
taken up where another has ended. Two byte strings of one length that differ only within thirty-two consecutive bits have different
checksums.
-/

namespace Fram

namespace Checksum

/-- A register of the source: thirty-two bits in a word. -/
def register (crc : BitVec 32) : BitVec 64 := crc.setWidth 64

theorem mask_and_register (crc : BitVec 32) : crc32Mask &&& register crc = register crc := by
  apply BitVec.eq_of_getLsbD_eq
  intro i hi
  have hmask : crc32Mask = BitVec.setWidth 64 (BitVec.allOnes 32) := by decide
  rw [hmask, register, BitVec.getLsbD_and, BitVec.getLsbD_setWidth, BitVec.getLsbD_setWidth, BitVec.getLsbD_allOnes]
  by_cases h : i < 32
  · simp [hi, h]
  · simp [BitVec.getLsbD_of_ge crc i (by omega)]

theorem register_xor (a b : BitVec 32) : register a ^^^ register b = register (a ^^^ b) := by
  rw [register, register, register, BitVec.setWidth_xor]

theorem register_shift (a : BitVec 32) : register a >>> 1 = register (a >>> 1) := by
  rw [register, register, BitVec.setWidth_ushiftRight (by omega)]

theorem register_byte (b : UInt8) : b.toBitVec.setWidth 64 = register (b.toBitVec.setWidth 32) := by
  apply BitVec.eq_of_toNat_eq
  have hlt : b.toNat < 256 := UInt8.toNat_lt b
  simp only [register, BitVec.toNat_setWidth, UInt8.toNat_toBitVec]
  omega

/-- The test of the lowest bit. -/
theorem register_low (a : BitVec 32) : register a &&& 1 = 1 ↔ a.getLsbD 0 = true := by
  have hlow : register a &&& 1 = BitVec.setWidth 64 (BitVec.ofBool ((register a).getLsbD 0)) :=
    BitVec.and_one_eq_setWidth_ofBool_getLsbD
  have hbit : (register a).getLsbD 0 = a.getLsbD 0 := by rw [register, BitVec.getLsbD_setWidth]; simp
  rw [hlow, hbit]
  cases a.getLsbD 0 <;> decide

/-- The loop over bits is that of the check. -/
theorem bitLoop_register (left : Nat) (crc : BitVec 32) :
    bitLoop left (register crc) = register (Crc.bitSteps Fram.crc32Polynomial left crc) := by
  induction left generalizing crc with
  | zero => rfl
  | succ left ih =>
    have hstep : (if register crc &&& 1 = 1 then register crc >>> 1 ^^^ crc32Polynomial else register crc >>> 1) =
        register (Crc.bitStep Fram.crc32Polynomial crc) := by
      have hpolynomial : crc32Polynomial = register Fram.crc32Polynomial := by decide
      unfold Crc.bitStep
      rw [hpolynomial, register_shift, register_xor, if_congr (register_low crc) rfl rfl]
      split <;> rfl
    rw [bitLoop, hstep, ih]
    rfl

/-- The walk over positions of a byte string gives the check of the bytes there. -/
theorem byteLoop_eq (bytes : Bytes) {start left : Nat} (h : start + left ≤ bytes.length) (crc : BitVec 32) :
    byteLoop (nth bytes) left start (register crc) =
      .ok (register (Crc.run Fram.crc32Polynomial crc ((bytes.drop start).take left))) := by
  induction left generalizing start crc with
  | zero => rfl
  | succ left ih =>
    have hlt : start < bytes.length := by omega
    have hread : nth bytes start = .ok (register (bytes[start].toBitVec.setWidth 32)) := by
      rw [nth, List.getElem?_eq_getElem hlt, ← register_byte]
    rw [byteLoop, hread]
    change byteLoop (nth bytes) left (start + 1) (crc32Mask &&& bitLoop 8 (register crc ^^^ register (bytes[start].toBitVec.setWidth 32))) = _
    rw [register_xor, bitLoop_register, mask_and_register, @ih (start + 1) (by omega), List.drop_eq_getElem_cons hlt, List.take_succ_cons]
    rfl

/-- What a variant gives for a range. -/
theorem checksumOf_eq (bytes : Bytes) {start stop : Nat} (h : start ≤ stop) (h' : stop ≤ bytes.length) :
    checksumOf (nth bytes) start stop = .ok (Fram.crc32 ((bytes.drop start).take (stop - start))) := by
  have hmask : crc32Mask = register (BitVec.allOnes 32) := by decide
  have hwalk := @byteLoop_eq bytes start (stop - start) (by omega) (BitVec.allOnes 32)
  rw [← hmask] at hwalk
  rw [checksumOf, hwalk]
  change Except.ok (crc32Mask &&& (register _ ^^^ crc32Mask)).toNat = _
  rw [show register _ ^^^ crc32Mask = register (_ ^^^ BitVec.allOnes 32) from by rw [hmask, register_xor], mask_and_register, register,
    BitVec.toNat_setWidth_of_le (by omega)]
  rfl

/-- A walk may be taken up where another has ended. -/
theorem byteLoop_append (read : Nat → Except Fault (BitVec 64)) (left more start : Nat) (crc : BitVec 64) :
    byteLoop read (left + more) start crc = byteLoop read left start crc >>= byteLoop read more (start + left) := by
  induction left generalizing start crc with
  | zero => rw [Nat.zero_add, byteLoop, Nat.add_zero]; rfl
  | succ left ih =>
    rw [Nat.add_right_comm, byteLoop, byteLoop]
    cases read start with
    | error fault => rfl
    | ok b =>
      change byteLoop read (left + more) (start + 1) (crc32Mask &&& bitLoop 8 (crc ^^^ b)) =
        byteLoop read left (start + 1) (crc32Mask &&& bitLoop 8 (crc ^^^ b)) >>= byteLoop read more (start + (left + 1))
      rw [ih, Nat.add_assoc start 1 left, Nat.add_comm 1 left]

/-- The bits of a byte string in the order in which the checksum takes them: those of the first byte before those of the second, and of
each byte the lowest first. -/
def bits (bytes : Bytes) : List Bool := bytes.flatMap Crc.bitsOf

/-- **The checksums.** The variants have a value for every byte string and every range of it, and it is the same: that of the bytes walked.
A walk from one position to another and then from there to a third is the walk from the first to the third. And two byte strings of one
length that differ, but only within thirty-two consecutive bits, have different checksums. -/
theorem checksums (bytes : Bytes) : (∃ value, crc32 bytes = .ok value ∧ crc32Source bytes = .ok value) ∧
    (∀ start stop, start ≤ stop → stop ≤ bytes.length → ∃ value, crc32 ((bytes.drop start).take (stop - start)) = .ok value ∧
      crc32Range bytes start stop = .ok value ∧ crc32RangeSource bytes start stop = .ok value) ∧
    (∀ start middle stop, start ≤ middle → middle ≤ stop → ∀ crc, byteLoop (nth bytes) (stop - start) start crc =
      byteLoop (nth bytes) (middle - start) start crc >>= byteLoop (nth bytes) (stop - middle) middle) ∧
    ∀ other : Bytes, other.length = bytes.length → other ≠ bytes → (∃ first, Crc.WithinWindow 32 first (bits other) (bits bytes)) →
      crc32 other ≠ crc32 bytes := by
  have hwhole : ∀ b : Bytes, crc32 b = .ok (Fram.crc32 b) := by
    intro b
    have h := checksumOf_eq b (Nat.zero_le _) le_rfl
    rwa [List.drop_zero, Nat.sub_zero, List.take_length] at h
  refine ⟨⟨_, hwhole bytes, hwhole bytes⟩, fun start stop h h' => ?_, fun start middle stop h h' crc => ?_, fun other hlen hne hwindow => ?_⟩
  · exact ⟨_, hwhole _, checksumOf_eq bytes h h', checksumOf_eq bytes h h'⟩
  · have hsplit := byteLoop_append (nth bytes) (middle - start) (stop - middle) start crc
    rwa [show middle - start + (stop - middle) = stop - start by omega, show start + (middle - start) = middle by omega] at hsplit
  · obtain ⟨first, hfirst⟩ := hwindow
    rw [hwhole, hwhole]
    intro heq
    refine @Crc.checksum_ne_of_window _ Fram.crc32Polynomial (by decide) (by decide) _ _ hlen hne _ hfirst ?_
    exact BitVec.eq_of_toNat_eq (Except.ok.inj heq)

/-- The range of the last two bytes of three, and strings that differ in bits 6 to 9. -/
theorem checksums_three : crc32Range [1, 2, 3] 1 3 = crc32 [2, 3] ∧ crc32 [0x41, 1, 3] ≠ crc32 [1, 2, 3] := by
  obtain ⟨-, hrange, -, hburst⟩ := checksums [1, 2, 3]
  obtain ⟨value, hwhole, hpart, -⟩ := hrange 1 3 (by decide) (by decide)
  refine ⟨hpart.trans hwhole.symm, hburst _ rfl (by decide) ⟨6, fun i hi => ?_⟩⟩
  by_cases h : i < 24
  · interval_cases i <;> first | omega | exact absurd rfl hi
  · have hend : ∀ l : List Bool, l.length = 24 → l[i]? = none := fun l hl => List.getElem?_eq_none (by omega)
    exact absurd ((hend _ rfl).trans (hend _ rfl).symm) hi

end Checksum

end Fram
