import Mathlib.Tactic

/-!
# Little-endian numbers

`toBytes k n` is the `k` bytes of a number, least significant first, and `ofBytes` reads them back. Both directions are inverse:
on the numbers below `256 ^ k` one way, on every list of bytes the other.
-/

namespace LittleEndian

/-- The `k` low bytes of a number, least significant first. -/
def toBytes : Nat → Nat → List UInt8
  | 0, _ => []
  | k + 1, n => UInt8.ofNat n :: toBytes k (n / 256)

/-- The number of a list of bytes, least significant first. -/
def ofBytes : List UInt8 → Nat
  | [] => 0
  | b :: bs => b.toNat + 256 * ofBytes bs

@[simp] theorem length_toBytes (k n : Nat) : (toBytes k n).length = k := by
  induction k generalizing n with
  | zero => rfl
  | succ k ih => simp [toBytes, ih]

theorem ofBytes_toBytes (k n : Nat) : ofBytes (toBytes k n) = n % 256 ^ k := by
  induction k generalizing n with
  | zero => simp [toBytes, ofBytes, Nat.mod_one]
  | succ k ih =>
    have hb : (UInt8.ofNat n).toNat = n % 256 := UInt8.toNat_ofNat'
    rw [toBytes, ofBytes, ih, hb, Nat.pow_succ', Nat.mod_mul]

theorem ofBytes_toBytes_of_lt {k n : Nat} (h : n < 256 ^ k) : ofBytes (toBytes k n) = n := by
  rw [ofBytes_toBytes, Nat.mod_eq_of_lt h]

theorem ofBytes_lt (bs : List UInt8) : ofBytes bs < 256 ^ bs.length := by
  induction bs with
  | nil => simp [ofBytes]
  | cons b bs ih =>
    have := b.toNat_lt
    simp only [ofBytes, List.length_cons, Nat.pow_succ']
    omega

@[simp] theorem toBytes_ofBytes (bs : List UInt8) : toBytes bs.length (ofBytes bs) = bs := by
  induction bs with
  | nil => rfl
  | cons b bs ih =>
    have hb := b.toNat_lt
    simp only [List.length_cons, toBytes, ofBytes]
    rw [show (b.toNat + 256 * ofBytes bs) / 256 = ofBytes bs by omega, ih]
    congr 1
    apply UInt8.toNat_inj.1
    rw [UInt8.toNat_ofNat']
    omega

/-- Bytes inside a list are those of their number. -/
theorem toBytes_ofBytes_take {bytes : List UInt8} {k p : Nat} (h : p + k ≤ bytes.length) :
    toBytes k (ofBytes ((bytes.drop p).take k)) = (bytes.drop p).take k := by
  have hl : ((bytes.drop p).take k).length = k := by
    rw [List.length_take, List.length_drop]
    omega
  calc toBytes k (ofBytes ((bytes.drop p).take k))
      = toBytes ((bytes.drop p).take k).length (ofBytes ((bytes.drop p).take k)) := by rw [hl]
    _ = _ := toBytes_ofBytes _

end LittleEndian
