import Fram.Numbers

/-!
# Rounding keeps the order

A greater number rounds to a double that is not less (`place_round_le`), so doubles order the integers that do not round to one double
as the integers are ordered (`place_ofInt_lt_iff`).
-/

namespace Fram

namespace F64

variable {q p : ℚ} {a b : Int}

/-! ## Rounding to an integer -/

theorem le_roundEven {n : ℤ} (h : (n : ℚ) ≤ q) : n ≤ roundEven q := by
  have hfloor : n ≤ ⌊q⌋ := Int.le_floor.2 h
  unfold roundEven
  dsimp only
  split_ifs <;> omega

theorem roundEven_le {n : ℤ} (h : q ≤ n) : roundEven q ≤ n := by
  have hbelow : (⌊q⌋ : ℚ) ≤ q := Int.floor_le q
  rcases eq_or_lt_of_le (show ⌊q⌋ ≤ n by exact_mod_cast hbelow.trans h) with he | hlt
  · have hq : q - (⌊q⌋ : ℚ) < 1 / 2 := by
      rw [he]
      linarith
    unfold roundEven
    dsimp only
    rw [if_pos hq, he]
  · unfold roundEven
    dsimp only
    split_ifs <;> omega

theorem roundEven_mono (h : p ≤ q) : roundEven p ≤ roundEven q := by
  rcases lt_or_eq_of_le (Int.floor_mono h) with hlt | he
  · have hp : roundEven p ≤ ⌊p⌋ + 1 := roundEven_le (by push_cast; exact (Int.lt_floor_add_one p).le)
    have hq : ⌊q⌋ ≤ roundEven q := le_roundEven (Int.floor_le q)
    omega
  · unfold roundEven
    dsimp only
    rw [he]
    have hle : p - (⌊q⌋ : ℚ) ≤ q - (⌊q⌋ : ℚ) := by linarith
    split_ifs <;> first | omega | (exfalso; linarith)

/-! ## The exponent -/

/-- The exponent of a number is that of the greatest power of two that is not above it. -/
theorem exponentOf_spec (hq : 0 < q) : (2 : ℚ) ^ exponentOf q ≤ q ∧ q < (2 : ℚ) ^ (exponentOf q + 1) := by
  have hnum : 0 < q.num := Rat.num_pos.2 hq
  have hden : 0 < q.den := q.den_pos
  obtain ⟨n, hn⟩ : ∃ n : Nat, q.num = n := ⟨q.num.toNat, by omega⟩
  have hn0 : n ≠ 0 := by omega
  have heq : q = (n : ℚ) / q.den := by
    have := Rat.num_div_den q
    rw [hn] at this
    simpa using this.symm
  have hnlo : ((2 : ℚ) ^ (Nat.log2 n : ℤ)) ≤ n := by
    rw [zpow_natCast]
    exact_mod_cast Nat.log2_self_le hn0
  have hnhi : (n : ℚ) < (2 : ℚ) ^ ((Nat.log2 n : ℤ) + 1) := by
    rw [show ((Nat.log2 n : ℤ) + 1) = ((Nat.log2 n + 1 : ℕ) : ℤ) by push_cast; rfl, zpow_natCast]
    exact_mod_cast Nat.lt_log2_self
  have hdlo : ((2 : ℚ) ^ (Nat.log2 q.den : ℤ)) ≤ q.den := by
    rw [zpow_natCast]
    exact_mod_cast Nat.log2_self_le hden.ne'
  have hdhi : (q.den : ℚ) < (2 : ℚ) ^ ((Nat.log2 q.den : ℤ) + 1) := by
    rw [show ((Nat.log2 q.den : ℤ) + 1) = ((Nat.log2 q.den + 1 : ℕ) : ℤ) by push_cast; rfl, zpow_natCast]
    exact_mod_cast Nat.lt_log2_self
  have hdpos : (0 : ℚ) < q.den := by exact_mod_cast hden
  have htwo : (2 : ℚ) ≠ 0 := by norm_num
  have hguess : exponentOf q = if (2 : ℚ) ^ ((Nat.log2 n : ℤ) - Nat.log2 q.den) ≤ q then (Nat.log2 n : ℤ) - Nat.log2 q.den
      else (Nat.log2 n : ℤ) - Nat.log2 q.den - 1 := by
    unfold exponentOf
    rw [hn, Int.toNat_natCast]
  generalize hg : (Nat.log2 n : ℤ) - Nat.log2 q.den = guess at hguess
  -- The guess is never too small, and it is too great by one at most.
  have hupper : q < (2 : ℚ) ^ (guess + 1) := by
    have hprod : (2 : ℚ) ^ (guess + 1) * (2 : ℚ) ^ (Nat.log2 q.den : ℤ) = (2 : ℚ) ^ ((Nat.log2 n : ℤ) + 1) := by
      rw [← zpow_add₀ htwo]
      congr 1
      omega
    rw [heq, div_lt_iff₀ hdpos]
    calc (n : ℚ) < (2 : ℚ) ^ ((Nat.log2 n : ℤ) + 1) := hnhi
      _ = (2 : ℚ) ^ (guess + 1) * (2 : ℚ) ^ (Nat.log2 q.den : ℤ) := hprod.symm
      _ ≤ (2 : ℚ) ^ (guess + 1) * q.den := mul_le_mul_of_nonneg_left hdlo (by positivity)
  have hlower : (2 : ℚ) ^ (guess - 1) ≤ q := by
    have hprod : (2 : ℚ) ^ (guess - 1) * (2 : ℚ) ^ ((Nat.log2 q.den : ℤ) + 1) = (2 : ℚ) ^ (Nat.log2 n : ℤ) := by
      rw [← zpow_add₀ htwo]
      congr 1
      omega
    rw [heq, le_div_iff₀ hdpos]
    calc (2 : ℚ) ^ (guess - 1) * q.den ≤ (2 : ℚ) ^ (guess - 1) * (2 : ℚ) ^ ((Nat.log2 q.den : ℤ) + 1) :=
          mul_le_mul_of_nonneg_left hdhi.le (by positivity)
      _ = (2 : ℚ) ^ (Nat.log2 n : ℤ) := hprod
      _ ≤ n := hnlo
  rw [hguess]
  split
  · rename_i hle
    exact ⟨hle, hupper⟩
  · rename_i hle
    exact ⟨hlower, by rw [sub_add_cancel]; exact not_le.1 hle⟩

theorem exponentOf_mono (hp : 0 < p) (h : p ≤ q) : exponentOf p ≤ exponentOf q := by
  have hlt : (2 : ℚ) ^ exponentOf p < (2 : ℚ) ^ (exponentOf q + 1) :=
    ((exponentOf_spec hp).1.trans h).trans_lt (exponentOf_spec (hp.trans_le h)).2
  have := (zpow_lt_zpow_iff_right₀ (by norm_num : (1 : ℚ) < 2)).1 hlt
  omega

/-! ## Rounding to a double -/

/-- A greater number has a magnitude that is not less. -/
theorem roundedMagnitude_mono (hp : 0 < p) (h : p ≤ q) : roundedMagnitude p ≤ roundedMagnitude q := by
  have hexp := exponentOf_mono hp h
  have hspecp := exponentOf_spec hp
  have hspecq := exponentOf_spec (hp.trans_le h)
  unfold roundedMagnitude
  dsimp only
  generalize he : max (-1074) (exponentOf p - 52) = e
  generalize hf : max (-1074) (exponentOf q - 52) = f
  have hef : e ≤ f := by omega
  refine min_le_min_left _ (Int.toNat_le_toNat ?_)
  rcases lt_or_eq_of_le hef with hlt | rfl
  · -- The carry of the lesser number reaches the least mantissa of the greater exponent, and no further.
    have hsmall : roundEven (p / 2 ^ e) ≤ 2 ^ 53 := by
      refine roundEven_le ?_
      rw [div_le_iff₀ (by positivity)]
      have hle : (2 : ℚ) ^ (exponentOf p + 1) ≤ (2 : ℚ) ^ ((53 : ℤ) + e) := zpow_le_zpow_right₀ (by norm_num) (by omega)
      have hpow : (2 : ℚ) ^ ((53 : ℤ) + e) = ((2 ^ 53 : ℤ) : ℚ) * 2 ^ e := by
        rw [zpow_add₀ (by norm_num)]
        norm_num
      exact hpow ▸ hspecp.2.le.trans hle
    have hlarge : 2 ^ 52 ≤ roundEven (q / 2 ^ f) := by
      refine le_roundEven ?_
      rw [le_div_iff₀ (by positivity)]
      have hle : (2 : ℚ) ^ ((52 : ℤ) + f) ≤ (2 : ℚ) ^ exponentOf q := zpow_le_zpow_right₀ (by norm_num) (by omega)
      have hpow : (2 : ℚ) ^ ((52 : ℤ) + f) = ((2 ^ 52 : ℤ) : ℚ) * 2 ^ f := by
        rw [zpow_add₀ (by norm_num)]
        norm_num
      exact hpow ▸ hle.trans hspecq.1
    omega
  · have hround : roundEven (p / 2 ^ e) ≤ roundEven (q / 2 ^ e) :=
      roundEven_mono (div_le_div_of_nonneg_right h (by positivity))
    omega

theorem roundedMagnitude_le (q : ℚ) : roundedMagnitude q ≤ infinityMagnitude := min_le_left _ _

/-- A pattern is a NaN exactly when its magnitude is past infinity. -/
theorem isNaNBits_iff (b : BitVec 64) : isNaNBits b = true ↔ infinityMagnitude < b.toNat % 2 ^ 63 := by
  have hlt : b.toNat < 2 ^ 64 := b.isLt
  have hmantissa : (b &&& 0x000fffffffffffff#64).toNat = b.toNat % 2 ^ 52 := by
    rw [BitVec.toNat_and, show (0x000fffffffffffff#64).toNat = 2 ^ 52 - 1 by decide, Nat.and_two_pow_sub_one_eq_mod]
  have hexponent : (b &&& 0x7ff0000000000000#64).toNat = 2 ^ 52 * (b.toNat / 2 ^ 52 % 2048) := by
    rw [BitVec.toNat_and, show (0x7ff0000000000000#64).toNat = 0x7ff0000000000000 by decide]
    have hdiv := Nat.and_div_two_pow (a := b.toNat) (b := 0x7ff0000000000000) (n := 52)
    have hmod := Nat.and_mod_two_pow (a := b.toNat) (b := 0x7ff0000000000000) (n := 52)
    rw [show (0x7ff0000000000000 / 2 ^ 52 : Nat) = 2 ^ 11 - 1 by norm_num, Nat.and_two_pow_sub_one_eq_mod] at hdiv
    rw [show (0x7ff0000000000000 % 2 ^ 52 : Nat) = 0 by norm_num, Nat.and_zero] at hmod
    omega
  have he : (b &&& 0x7ff0000000000000#64 == 0x7ff0000000000000#64) = true ↔ 2 ^ 52 * (b.toNat / 2 ^ 52 % 2048) = 2047 * 2 ^ 52 := by
    rw [beq_iff_eq, ← BitVec.toNat_inj, hexponent]
    norm_num
  have hm : (b &&& 0x000fffffffffffff#64 != 0#64) = true ↔ b.toNat % 2 ^ 52 ≠ 0 := by
    rw [bne_iff_ne, ne_eq, ← BitVec.toNat_inj, hmantissa]
    norm_num
  unfold isNaNBits infinityMagnitude
  rw [Bool.and_eq_true, he, hm]
  omega

/-- The double of a sign and a magnitude up to infinity has this place, and is a number. -/
theorem place_ofMagnitude {negative : Bool} {m : Nat} (h : m ≤ infinityMagnitude) :
    (ofMagnitude negative m).place = (if negative then -(m : Int) else m) ∧ (ofMagnitude negative m).isNaN = false := by
  have hbound : infinityMagnitude < 2 ^ 63 := by decide
  generalize hb : BitVec.ofNat 64 ((if negative then 2 ^ 63 else 0) + m) = b
  have hnat : b.toNat = (if negative then 2 ^ 63 else 0) + m := by
    rw [← hb, BitVec.toNat_ofNat]
    split <;> omega
  have hmod : b.toNat % 2 ^ 63 = m := by
    rw [hnat]
    split <;> omega
  have hnan : isNaNBits b = false := by
    rw [← Bool.not_eq_true, isNaNBits_iff, hmod]
    omega
  have hof : (ofMagnitude negative m).bits = b := by
    unfold ofMagnitude
    dsimp only
    rw [dif_neg (by rw [hb, hnan]; exact Bool.false_ne_true)]
    exact hb
  refine ⟨?_, by rw [isNaN, hof, hnan]⟩
  have hsign : b.msb = negative := by
    rw [BitVec.msb_eq_decide, hnat]
    cases negative
    · simp only [Bool.false_eq_true, if_false, decide_eq_false_iff_not]
      omega
    · simp only [if_true, decide_eq_true_eq]
      omega
  rw [place, isNegative, magnitude, hof, hmod, hsign]

/-- Rounding gives a number, and a greater one has a place that is not less. -/
theorem isNaN_round (s : Bool) (q : ℚ) : (round s q).isNaN = false := by
  unfold round
  split
  · cases s <;> decide
  · exact (place_ofMagnitude (roundedMagnitude_le _)).2

theorem place_round (s : Bool) (q : ℚ) :
    (round s q).place = if q = 0 then 0 else if q < 0 then -(roundedMagnitude |q| : Int) else roundedMagnitude |q| := by
  unfold round
  split
  · cases s <;> decide
  · rw [(place_ofMagnitude (roundedMagnitude_le _)).1]
    simp only [decide_eq_true_eq]

theorem place_round_le {s : Bool} (h : p ≤ q) : (round s p).place ≤ (round s q).place := by
  rw [place_round, place_round]
  rcases lt_trichotomy q 0 with hq | rfl | hq
  · have hp : p < 0 := h.trans_lt hq
    have := roundedMagnitude_mono (abs_pos.2 hq.ne) (by rw [abs_of_neg hq, abs_of_neg hp]; linarith : |q| ≤ |p|)
    rw [if_neg hp.ne, if_pos hp, if_neg hq.ne, if_pos hq]
    omega
  · rw [if_pos rfl]
    split_ifs <;> first | omega | (exfalso; order)
  · rw [if_neg hq.ne', if_neg hq.not_gt]
    rcases lt_trichotomy p 0 with hp | rfl | hp
    · rw [if_neg hp.ne, if_pos hp]
      omega
    · rw [if_pos rfl]
      omega
    · have := roundedMagnitude_mono (abs_pos.2 hp.ne') (by rw [abs_of_pos hp, abs_of_pos hq]; exact h : |p| ≤ |q|)
      rw [if_neg hp.ne', if_neg hp.not_gt]
      omega

/-! ## Doubles of integers -/

theorem isNaN_ofInt (n : Int) : (ofInt n).isNaN = false := isNaN_round false n

theorem place_ofInt_le (h : a ≤ b) : (ofInt a).place ≤ (ofInt b).place :=
  place_round_le (by exact_mod_cast h)

theorem roundedMagnitude_pos (h : 1 ≤ q) : 0 < roundedMagnitude q := by
  have hone : 0 < roundedMagnitude 1 := by
    have hexp : exponentOf 1 = 0 := by simp [exponentOf]
    have hround : roundEven (1 / (2 : ℚ) ^ (-52 : ℤ)) = 2 ^ 52 := by
      refine le_antisymm (roundEven_le ?_) (le_roundEven ?_) <;> norm_num
    unfold roundedMagnitude
    rw [hexp]
    dsimp only
    rw [show max (-1074) ((0 : ℤ) - 52) = -52 by norm_num, hround]
    decide
  exact hone.trans_le (roundedMagnitude_mono one_pos h)

/-- The double of an integer has the sign of the integer and its magnitude rounded. -/
theorem ofInt_of_ne {n : Int} (h : n ≠ 0) :
    ofInt n = ofMagnitude (decide (n < 0)) (roundedMagnitude |(n : ℚ)|) ∧ 0 < roundedMagnitude |(n : ℚ)| ∧
      (ofInt n).place = if n < 0 then -(roundedMagnitude |(n : ℚ)| : Int) else roundedMagnitude |(n : ℚ)| := by
  have hn : (n : ℚ) ≠ 0 := by exact_mod_cast h
  have hneg : (n : ℚ) < 0 ↔ n < 0 := by exact_mod_cast Iff.rfl
  refine ⟨?_, roundedMagnitude_pos (by exact_mod_cast Int.one_le_abs h), ?_⟩
  · unfold ofInt round
    rw [if_neg hn]
    simp only [hneg]
  · unfold ofInt
    rw [place_round, if_neg hn]
    simp only [hneg]

/-- Two integers round to one double exactly when their doubles stand at one place. -/
theorem ofInt_eq_iff : ofInt a = ofInt b ↔ (ofInt a).place = (ofInt b).place := by
  refine ⟨fun h => by rw [h], fun h => ?_⟩
  have hzero : (ofInt 0).place = 0 := by decide
  by_cases ha : a = 0 <;> by_cases hb : b = 0
  · rw [ha, hb]
  · obtain ⟨-, hpos, hplace⟩ := ofInt_of_ne hb
    rw [ha, hzero, hplace] at h
    split_ifs at h <;> omega
  · obtain ⟨-, hpos, hplace⟩ := ofInt_of_ne ha
    rw [hb, hzero, hplace] at h
    split_ifs at h <;> omega
  · obtain ⟨hofa, hposa, hplacea⟩ := ofInt_of_ne ha
    obtain ⟨hofb, hposb, hplaceb⟩ := ofInt_of_ne hb
    rw [hplacea, hplaceb] at h
    have hsign : a < 0 ↔ b < 0 := by
      split_ifs at h <;> omega
    have hmagnitude : roundedMagnitude |(a : ℚ)| = roundedMagnitude |(b : ℚ)| := by
      split_ifs at h <;> omega
    rw [hofa, hofb, hmagnitude]
    simp only [hsign]

/-- Doubles order the integers that do not round to one double as they are ordered. -/
theorem place_ofInt_lt_iff (h : ofInt a ≠ ofInt b) : (ofInt a).place < (ofInt b).place ↔ a < b := by
  have hne : (ofInt a).place ≠ (ofInt b).place := fun he => h (ofInt_eq_iff.2 he)
  constructor
  · intro hlt
    by_contra hba
    have := place_ofInt_le (not_lt.1 hba)
    omega
  · intro hlt
    have := place_ofInt_le hlt.le
    omega

end F64

end Fram
