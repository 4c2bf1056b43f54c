import Fram.Log

/-!
# The variants of the checksum

The four checksums of `src/fram/log_codec.bgl`, of a byte vector or a byte source, whole or over a range. Each walks positions with the
same two loops; they differ in what is read and in where the walk starts and ends. An Int of the source is a word of 64 bits.
-/

namespace Fram

namespace Checksum

/-- (`crc32-mask`) -/
def crc32Mask : BitVec 64 := 4294967295#64

/-- (`crc32-polynomial`) -/
def crc32Polynomial : BitVec 64 := 3988292384#64

/-- (`nth` of a byte vector) -/
def nth (bytes : Bytes) (position : Nat) : Except Fault (BitVec 64) :=
  match bytes[position]? with
  | some b => .ok (b.toBitVec.setWidth 64)
  | none => .error ⟨⟨"java.lang.IndexOutOfBoundsException"⟩, ""⟩

/-- (`read-byte-at`) -/
def readByteAt (bytes : Bytes) (position : Nat) : Except Fault (BitVec 64) := nth bytes position

/-- The loop over the bits of a byte, for the bits that are left. -/
def bitLoop : Nat → BitVec 64 → BitVec 64
  | 0, value => value
  | left + 1, value =>
    let shifted := value >>> 1
    bitLoop left (if value &&& 1 = 1 then shifted ^^^ crc32Polynomial else shifted)

/-- The loop over positions, for the positions that are left. -/
def byteLoop (read : Nat → Except Fault (BitVec 64)) : Nat → Nat → BitVec 64 → Except Fault (BitVec 64)
  | 0, _, crc => .ok crc
  | left + 1, position, crc => do
    let mixed := crc ^^^ (← read position)
    byteLoop read left (position + 1) (crc32Mask &&& bitLoop 8 mixed)

/-- What is left of the positions from `start` to `stop`, walked from the initial register. -/
def checksumOf (read : Nat → Except Fault (BitVec 64)) (start stop : Nat) : Except Fault Nat := do
  let crc ← byteLoop read (stop - start) start crc32Mask
  .ok (crc32Mask &&& (crc ^^^ crc32Mask)).toNat

/-- (`crc32`) -/
def crc32 (bytes : Bytes) : Except Fault Nat := checksumOf (nth bytes) 0 bytes.length

/-- (`crc32-source`) -/
def crc32Source (bytes : Bytes) : Except Fault Nat := checksumOf (readByteAt bytes) 0 bytes.length

/-- (`crc32-range-source`) -/
def crc32RangeSource (bytes : Bytes) (start stop : Nat) : Except Fault Nat := checksumOf (readByteAt bytes) start stop

/-- (`crc32-range`) -/
def crc32Range (bytes : Bytes) (start stop : Nat) : Except Fault Nat := checksumOf (nth bytes) start stop

end Checksum

end Fram
