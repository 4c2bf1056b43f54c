import Fram.Types

/-!
# Doubles and numbers in text

The host's arithmetic on doubles, exactly: the operands are read as rational numbers, and the exact result is rounded to the nearest
double, to the even one of two. The host's `parse-long` and `parse-double` read a number from a text.

A query compares doubles by the host's `=`, which does not see the sign of a zero. So what matters of each operation here is that
its result is the same, up to the sign of a zero, when its operands are (`add_canon` and its siblings).
-/

namespace Fram

namespace F64

/-- The exponent and mantissa bits of infinity. -/
def infinityMagnitude : Nat := 2047 * 2 ^ 52

/-- The exponent and mantissa bits of a double. -/
def magnitude (x : F64) : Nat := x.bits.toNat % 2 ^ 63

/-- The sign bit of a double. -/
def isNegative (x : F64) : Bool := x.bits.msb

/-- One of the two infinities. -/
def isInfinite (x : F64) : Bool := x.magnitude == infinityMagnitude

/-- The double of a sign and a magnitude. -/
def ofMagnitude (negative : Bool) (magnitude : Nat) : F64 :=
  let bits : BitVec 64 := BitVec.ofNat 64 ((if negative then 2 ^ 63 else 0) + magnitude)
  if h : isNaNBits bits = true then nan else ⟨bits, fun hn => absurd hn h⟩

/-- An infinity. -/
def infinity (negative : Bool) : F64 := ofMagnitude negative infinityMagnitude

/-- The number a finite double stands for; both zeros stand for zero. -/
def toRat (x : F64) : ℚ :=
  let exponent : Nat := x.magnitude / 2 ^ 52
  let mantissa : Nat := x.magnitude % 2 ^ 52
  let size : ℚ := if exponent = 0 then mantissa * 2 ^ (-1074 : ℤ) else (2 ^ 52 + mantissa) * 2 ^ ((exponent : ℤ) - 1075)
  if x.isNegative then -size else size

/-- The integer nearest to a number, the even one of two. -/
def roundEven (q : ℚ) : ℤ :=
  let below := ⌊q⌋
  if q - below < 1 / 2 then below
  else if 1 / 2 < q - below then below + 1
  else if below % 2 = 0 then below
  else below + 1

/-- The greatest power of two that is not above a positive number, by its exponent. -/
def exponentOf (q : ℚ) : ℤ :=
  let guess : ℤ := (Nat.log2 q.num.toNat : ℤ) - Nat.log2 q.den
  if (2 : ℚ) ^ guess ≤ q then guess else guess - 1

/-- The magnitude of the double nearest to a positive number: a full mantissa where there is one, else the least exponent. The
carry of the rounding goes into the exponent, and what passes the greatest finite double is infinity. -/
def roundedMagnitude (q : ℚ) : Nat :=
  let exponent := max (-1074) (exponentOf q - 52)
  min infinityMagnitude ((exponent + 1074) * 2 ^ 52 + roundEven (q / 2 ^ exponent)).toNat

/-- The double nearest to a number. A zero takes the given sign. -/
def round (negativeZero : Bool) (q : ℚ) : F64 :=
  if q = 0 then (if negativeZero then negZero else zero) else ofMagnitude (decide (q < 0)) (roundedMagnitude |q|)

/-- The double nearest to an integer. -/
def ofInt (n : Int) : F64 := round false n

/-- The double with the other sign. -/
def neg (x : F64) : F64 := if x.isNaN then nan else ofMagnitude (!x.isNegative) x.magnitude

/-- The sum of two doubles. -/
def add (x y : F64) : F64 :=
  if x.isNaN || y.isNaN then nan
  else if x.isInfinite then (if y.isInfinite && x.isNegative != y.isNegative then nan else x)
  else if y.isInfinite then y
  else round (x.isNegative && y.isNegative) (x.toRat + y.toRat)

/-- The difference of two doubles. -/
def sub (x y : F64) : F64 := add x y.neg

/-- The product of two doubles. -/
def mul (x y : F64) : F64 :=
  let negative := x.isNegative != y.isNegative
  if x.isNaN || y.isNaN then nan
  else if x.isInfinite || y.isInfinite then (if x.isZero || y.isZero then nan else infinity negative)
  else round negative (x.toRat * y.toRat)

/-- The quotient of two doubles. -/
def div (x y : F64) : F64 :=
  let negative := x.isNegative != y.isNegative
  if x.isNaN || y.isNaN then nan
  else if x.isInfinite then (if y.isInfinite then nan else infinity negative)
  else if y.isInfinite then (if negative then negZero else zero)
  else if y.isZero then (if x.isZero then nan else infinity negative)
  else round negative (x.toRat / y.toRat)

/-- The place of a double in the order of doubles: the magnitude under the sign, so both zeros stand at zero. -/
def place (x : F64) : Int := if x.isNegative then -x.magnitude else x.magnitude

/-- The host's `<` on doubles: false when either is the NaN. -/
def lt (x y : F64) : Bool := !x.isNaN && !y.isNaN && decide (x.place < y.place)

/-- The host's `<=` on doubles: false when either is the NaN. -/
def le (x y : F64) : Bool := !x.isNaN && !y.isNaN && decide (x.place ≤ y.place)

end F64

/-! ## Numbers in text -/

/-- The decimal digits a text starts with, as a number, how many they are, and the rest. -/
def leadingDigits : List Char → Nat → Nat → Nat × Nat × List Char
  | [], n, k => (n, k, [])
  | c :: rest, n, k => if c.isDigit then leadingDigits rest (10 * n + (c.toNat - '0'.toNat)) (k + 1) else (n, k, c :: rest)

/-- The value of a hexadecimal digit. -/
def hexDigit (c : Char) : Option Nat :=
  if c.isDigit then some (c.toNat - '0'.toNat)
  else if 'a' ≤ c ∧ c ≤ 'f' then some (c.toNat - 'a'.toNat + 10)
  else if 'A' ≤ c ∧ c ≤ 'F' then some (c.toNat - 'A'.toNat + 10)
  else none

/-- The digits in a base that a text starts with, as a number, how many they are, and the rest. -/
def leadingDigitsIn (base : Nat) (digit : Char → Option Nat) : List Char → Nat → Nat → Nat × Nat × List Char
  | [], n, k => (n, k, [])
  | c :: rest, n, k =>
    match digit c with
    | some d => leadingDigitsIn base digit rest (base * n + d) (k + 1)
    | none => (n, k, c :: rest)

/-- The hexadecimal digits a text starts with, as a number, how many they are, and the rest. -/
def leadingHexDigits : List Char → Nat → Nat → Nat × Nat × List Char := leadingDigitsIn 16 hexDigit

/-- Where the ten decimal digits of each script start. The digits of a script past the first plane are two units each, and no digit to the
host. -/
def digitZeros : List Nat :=
  [0x0030, 0x0660, 0x06f0, 0x07c0, 0x0966, 0x09e6, 0x0a66, 0x0ae6, 0x0b66, 0x0be6, 0x0c66, 0x0ce6, 0x0d66, 0x0de6, 0x0e50,
    0x0ed0, 0x0f20, 0x1040, 0x1090, 0x17e0, 0x1810, 0x1946, 0x19d0, 0x1a80, 0x1a90, 0x1b50, 0x1bb0, 0x1c40, 0x1c50, 0xa620,
    0xa8d0, 0xa900, 0xa9d0, 0xa9f0, 0xaa50, 0xabf0, 0xff10]

/-- The value of a decimal digit of any script. -/
def decimalDigit (c : Char) : Option Nat :=
  (digitZeros.find? fun first => decide (first ≤ c.toNat ∧ c.toNat < first + 10)).map (c.toNat - ·)

/-- An optional sign a text starts with: whether it is a minus, and the rest. -/
def leadingSign : List Char → Bool × List Char
  | '-' :: rest => (true, rest)
  | '+' :: rest => (false, rest)
  | text => (false, text)

/-- (`parse-long`) The 64-bit integer that a text of decimal digits, of any scripts, with an optional sign is. -/
def parseLong (text : String) : Option Int :=
  let (negative, unsigned) := leadingSign text.toList
  let (n, count, rest) := leadingDigitsIn 10 decimalDigit unsigned 0 0
  let value : Int := if negative then -n else n
  if 0 < count ∧ rest = [] ∧ -2 ^ 63 ≤ value ∧ value < 2 ^ 63 then some value else none

/-- The end of a floating-point literal: nothing, or the letter of a float type. -/
def literalEnds : List Char → Bool
  | [] => true
  | [c] => c == 'f' || c == 'F' || c == 'd' || c == 'D'
  | _ => false

/-- An exponent after one of two letters: the signed integer and the rest, or `none` when the letter stands without digits. -/
def exponentPart (lower upper : Char) : List Char → Option (Option Int × List Char)
  | [] => some (none, [])
  | c :: rest =>
    if c == lower || c == upper then
      let (negative, unsigned) := leadingSign rest
      let (n, count, rest) := leadingDigits unsigned 0 0
      if 0 < count then some (some (if negative then -n else n), rest) else none
    else some (none, c :: rest)

/-- The fraction after the point of a literal: the digits read on, how many they are, and the rest. -/
def fractionPart (digits : List Char → Nat → Nat → Nat × Nat × List Char) (whole : Nat) : List Char → Nat × Nat × List Char
  | '.' :: rest => digits rest whole 0
  | text => (whole, 0, text)

/-- An unsigned decimal literal. -/
def decimalLiteral (text : List Char) : Option ℚ := do
  let (whole, wholeCount, rest) := leadingDigits text 0 0
  let (n, fractionCount, rest) := fractionPart leadingDigits whole rest
  let (exponent, rest) ← exponentPart 'e' 'E' rest
  if 0 < wholeCount + fractionCount ∧ literalEnds rest = true then some (n * 10 ^ (exponent.getD 0 - fractionCount)) else none

/-- An unsigned hexadecimal literal after its `0x`: the binary exponent is not optional. -/
def hexadecimalLiteral (text : List Char) : Option ℚ := do
  let (whole, wholeCount, rest) := leadingHexDigits text 0 0
  let (n, fractionCount, rest) := fractionPart leadingHexDigits whole rest
  let (exponent, rest) ← exponentPart 'p' 'P' rest
  let exponent ← exponent
  if 0 < wholeCount + fractionCount ∧ literalEnds rest = true then some (n * 2 ^ (exponent - 4 * fractionCount)) else none

/-- The text without the blanks and controls at its two ends. -/
def trimmed (text : List Char) : List Char :=
  let blank := fun c : Char => decide (c.toNat ≤ 32)
  ((text.dropWhile blank).reverse.dropWhile blank).reverse

/-- (`parse-double`) The double nearest to the number that a text spells: a decimal or hexadecimal literal, an infinity or the NaN,
with an optional sign and blanks around it. -/
def parseDouble (text : String) : Option F64 :=
  let (negative, unsigned) := leadingSign (trimmed text.toList)
  match unsigned with
  | ['N', 'a', 'N'] => some F64.nan
  | ['I', 'n', 'f', 'i', 'n', 'i', 't', 'y'] => some (F64.infinity negative)
  | '0' :: 'x' :: rest | '0' :: 'X' :: rest => (hexadecimalLiteral rest).map fun q => F64.round negative (if negative then -q else q)
  | _ => (decimalLiteral unsigned).map fun q => F64.round negative (if negative then -q else q)

/-! ## The sign of a zero -/

namespace F64

variable {x x' y y' : F64}

/-- Two doubles are the same up to the sign of zero when they are one double, or both are zeros. -/
theorem canon_eq_iff : x.canon = x'.canon ↔ x = x' ∨ (x.isZero = true ∧ x'.isZero = true) := by
  have hzero : zero.isZero = true := by decide
  unfold canon
  split <;> rename_i hx <;> split <;> rename_i hx'
  · exact ⟨fun _ => Or.inr ⟨hx, hx'⟩, fun _ => rfl⟩
  · refine ⟨fun h => absurd (h ▸ hzero) hx', ?_⟩
    rintro (rfl | ⟨-, h⟩)
    · exact absurd hx hx'
    · exact absurd h hx'
  · refine ⟨fun h => absurd (h ▸ hzero) hx, ?_⟩
    rintro (rfl | ⟨h, -⟩)
    · exact absurd hx' hx
    · exact absurd h hx
  · refine ⟨Or.inl, ?_⟩
    rintro (rfl | ⟨h, -⟩)
    · rfl
    · exact absurd h hx

/-- A double is a zero exactly when its magnitude is. -/
theorem isZero_cases (h : x.isZero = true) : x = zero ∨ x = negZero := by
  rcases x with ⟨b, hb⟩
  simp only [isZero, Bool.or_eq_true, beq_iff_eq] at h
  rcases h with rfl | rfl
  · exact Or.inl rfl
  · exact Or.inr rfl

theorem isInfinite_of_isZero (h : x.isZero = true) : x.isInfinite = false := by
  rcases isZero_cases h with rfl | rfl <;> decide

theorem toRat_of_isZero (h : x.isZero = true) : x.toRat = 0 := by
  rcases isZero_cases h with rfl | rfl
  · have hm : zero.magnitude = 0 := by decide
    simp [toRat, hm]
  · have hm : negZero.magnitude = 0 := by decide
    simp [toRat, hm]

theorem place_of_isZero (h : x.isZero = true) : x.place = 0 := by
  rcases isZero_cases h with rfl | rfl <;> decide

theorem isZero_neg (h : x.isZero = true) : x.neg.isZero = true := by
  rcases isZero_cases h with rfl | rfl <;> decide

/-- Rounding gives the same whichever sign a zero takes. -/
theorem canon_round (s s' : Bool) (q : ℚ) : (round s q).canon = (round s' q).canon := by
  unfold round
  split
  · rw [canon_eq_iff]
    exact Or.inr ⟨by cases s <;> decide, by cases s' <;> decide⟩
  · rfl

theorem neg_canon (hx : x.canon = x'.canon) : x.neg.canon = x'.neg.canon := by
  rcases canon_eq_iff.1 hx with rfl | ⟨h, h'⟩
  · rfl
  · exact canon_eq_iff.2 (Or.inr ⟨isZero_neg h, isZero_neg h'⟩)

theorem add_canon (hx : x.canon = x'.canon) (hy : y.canon = y'.canon) : (x.add y).canon = (x'.add y').canon := by
  rcases canon_eq_iff.1 hx with rfl | ⟨h, h'⟩ <;> rcases canon_eq_iff.1 hy with rfl | ⟨k, k'⟩
  · rfl
  · simp only [add, isNaN_of_isZero, isInfinite_of_isZero, toRat_of_isZero, k, k']
    split
    · rfl
    · split
      · rfl
      · exact canon_round _ _ _
  · simp only [add, isNaN_of_isZero, isInfinite_of_isZero, toRat_of_isZero, h, h']
    split
    · rfl
    · split
      · contradiction
      · split
        · rfl
        · exact canon_round _ _ _
  · simp only [add, isNaN_of_isZero, isInfinite_of_isZero, toRat_of_isZero, h, h', k, k']
    exact canon_round _ _ _

theorem sub_canon (hx : x.canon = x'.canon) (hy : y.canon = y'.canon) : (x.sub y).canon = (x'.sub y').canon :=
  add_canon hx (neg_canon hy)

theorem mul_canon (hx : x.canon = x'.canon) (hy : y.canon = y'.canon) : (x.mul y).canon = (x'.mul y').canon := by
  rcases canon_eq_iff.1 hx with rfl | ⟨h, h'⟩ <;> rcases canon_eq_iff.1 hy with rfl | ⟨k, k'⟩
  · rfl
  · simp only [mul, isNaN_of_isZero, isInfinite_of_isZero, toRat_of_isZero, k, k', Bool.or_true, if_true]
    split
    · rfl
    · split
      · rfl
      · exact canon_round _ _ _
  · simp only [mul, isNaN_of_isZero, isInfinite_of_isZero, toRat_of_isZero, h, h', Bool.true_or, if_true]
    split
    · rfl
    · split
      · rfl
      · exact canon_round _ _ _
  · simp only [mul, isNaN_of_isZero, isInfinite_of_isZero, toRat_of_isZero, h, h', k, k']
    exact canon_round _ _ _

/-- A quotient by a double that is no zero. Dividing by the two zeros gives the two infinities, which differ. -/
theorem div_canon (hx : x.canon = x'.canon) (hy : y.canon = y'.canon) (hz : y.isZero = false) : (x.div y).canon = (x'.div y').canon := by
  rcases canon_eq_iff.1 hy with rfl | ⟨k, -⟩
  · rcases canon_eq_iff.1 hx with rfl | ⟨h, h'⟩
    · rfl
    · simp only [div, isNaN_of_isZero, isInfinite_of_isZero, toRat_of_isZero, h, h', hz]
      split
      · rfl
      · split
        · contradiction
        · split
          · split <;> split <;> decide
          · exact canon_round _ _ _
  · exact absurd k (by simp [hz])

theorem place_canon (hx : x.canon = x'.canon) : x.place = x'.place := by
  rcases canon_eq_iff.1 hx with rfl | ⟨h, h'⟩
  · rfl
  · rw [place_of_isZero h, place_of_isZero h']

theorem isNaN_congr (hx : x.canon = x'.canon) : x.isNaN = x'.isNaN := by
  rw [← isNaN_canon x, hx, isNaN_canon]

theorem isZero_congr (hx : x.canon = x'.canon) : x.isZero = x'.isZero := by
  rcases canon_eq_iff.1 hx with rfl | ⟨h, h'⟩
  · rfl
  · rw [h, h']

theorem lt_canon (hx : x.canon = x'.canon) (hy : y.canon = y'.canon) : x.lt y = x'.lt y' := by
  simp only [lt, isNaN_congr hx, isNaN_congr hy, place_canon hx, place_canon hy]

theorem le_canon (hx : x.canon = x'.canon) (hy : y.canon = y'.canon) : x.le y = x'.le y' := by
  simp only [le, isNaN_congr hx, isNaN_congr hy, place_canon hx, place_canon hy]

end F64

end Fram
