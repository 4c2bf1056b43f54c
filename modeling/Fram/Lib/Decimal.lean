import Mathlib.Tactic

/-!
# Numbers in text, and texts after their count

A number is read back from its decimal digits, and a text that starts with digits and then a mark that is no digit splits in one way.
So a text written after its count and a mark is read back, whatever follows it.
-/

namespace Decimal

variable {rest rest' : List Char} {mark c : Char}

/-- The number that decimal digits stand for. -/
def value (digits : List Char) : Nat := digits.foldl (fun n c => 10 * n + (c.toNat - 48)) 0

theorem value_toDigits (n : Nat) : value (Nat.toDigits 10 n) = n := by
  induction n using Nat.strongRecOn with
  | _ n ih =>
    by_cases h : n < 10
    · rw [Nat.toDigits_of_lt_base h]
      simp [value, Nat.toNat_digitChar_sub_48_of_lt_ten h]
    · rw [Nat.toDigits_of_base_le (by omega) (by omega), value, List.foldl_append]
      have hn := ih (n / 10) (by omega)
      unfold value at hn
      rw [hn]
      simp only [List.foldl_cons, List.foldl_nil, Nat.toNat_digitChar_sub_48_of_lt_ten (Nat.mod_lt n (by omega : 0 < 10))]
      omega

theorem toDigits_injective {m n : Nat} (h : Nat.toDigits 10 m = Nat.toDigits 10 n) : m = n := by
  rw [← value_toDigits m, h, value_toDigits]

/-- Two lists of digits, each followed by a mark that is no digit, are cut at the mark. -/
theorem digits_mark_inj {digits digits' : List Char} (hd : ∀ c ∈ digits, c.isDigit = true)
    (hd' : ∀ c ∈ digits', c.isDigit = true) (hm : mark.isDigit = false)
    (h : digits ++ mark :: rest = digits' ++ mark :: rest') : digits = digits' ∧ rest = rest' := by
  induction digits generalizing digits' with
  | nil =>
    cases digits' with
    | nil => exact ⟨rfl, by simpa using h⟩
    | cons c digits' =>
      simp only [List.nil_append, List.cons_append, List.cons.injEq] at h
      have := hd' c List.mem_cons_self
      rw [← h.1, hm] at this
      cases this
  | cons c digits ih =>
    cases digits' with
    | nil =>
      simp only [List.nil_append, List.cons_append, List.cons.injEq] at h
      have := hd c List.mem_cons_self
      rw [h.1, hm] at this
      cases this
    | cons c' digits' =>
      simp only [List.cons_append, List.cons.injEq] at h
      obtain ⟨hds, hrest⟩ := ih (fun c hc => hd c (List.mem_cons_of_mem _ hc)) (fun c hc => hd' c (List.mem_cons_of_mem _ hc)) h.2
      exact ⟨by rw [h.1, hds], hrest⟩

theorem isDigit_toDigits {n : Nat} (h : c ∈ Nat.toDigits 10 n) : c.isDigit = true :=
  Nat.isDigit_of_mem_toDigits (by omega) (by omega) h

/-- A number before a mark that is no digit is read back. -/
theorem number_mark_inj {m n : Nat} (hm : mark.isDigit = false)
    (h : Nat.toDigits 10 m ++ mark :: rest = Nat.toDigits 10 n ++ mark :: rest') : m = n ∧ rest = rest' := by
  obtain ⟨hds, hrest⟩ := digits_mark_inj (fun _ => isDigit_toDigits) (fun _ => isDigit_toDigits) hm h
  exact ⟨toDigits_injective hds, hrest⟩

theorem digitChar_sub_48 (h : c.isDigit = true) : (c.toNat - 48).digitChar = c ∧ c.toNat - 48 < 10 := by
  have hc : 48 ≤ c.toNat ∧ c.toNat ≤ 57 := by simpa [Char.isDigit, UInt32.le_iff_toNat_le] using h
  obtain ⟨hl, hu⟩ := hc
  refine ⟨?_, by omega⟩
  have hv : c = Char.ofNat c.toNat := (Char.ofNat_toNat c).symm
  generalize c.toNat = n at hv hl hu
  subst hv
  interval_cases n <;> rfl

theorem value_concat (digits : List Char) (c : Char) : value (digits ++ [c]) = 10 * value digits + (c.toNat - 48) := by
  simp [value]

/-- Digits that do not start with a zero are those of their number. -/
theorem toDigits_value (hd : ∀ d ∈ c :: rest, d.isDigit = true) (h0 : c ≠ '0') :
    Nat.toDigits 10 (value (c :: rest)) = c :: rest ∧ 0 < value (c :: rest) := by
  induction rest using List.reverseRecOn with
  | nil =>
    obtain ⟨hc, hlt⟩ := digitChar_sub_48 (hd c List.mem_cons_self)
    have hv : value [c] = c.toNat - 48 := by simp [value]
    rw [hv, Nat.toDigits_of_lt_base hlt, hc]
    refine ⟨rfl, Nat.pos_of_ne_zero fun h => h0 ?_⟩
    rw [h] at hc
    exact hc.symm
  | append_singleton rest d ih =>
    obtain ⟨hds, hpos⟩ := ih fun e he => hd e (by
      rw [List.mem_cons] at he ⊢
      exact he.imp_right (List.mem_append_left _))
    obtain ⟨hc, hlt⟩ := digitChar_sub_48 (hd d (by simp))
    rw [← List.cons_append, value_concat]
    refine ⟨?_, by omega⟩
    rw [Nat.toDigits_of_base_le (by omega) (by omega), Nat.mul_add_div (by omega), Nat.div_eq_of_lt hlt, Nat.add_zero, hds,
      Nat.mul_add_mod, Nat.mod_eq_of_lt hlt, hc]

/-- The digits of a positive number do not start with a zero. -/
theorem exists_toDigits {n : Nat} (h : 0 < n) : ∃ c rest, Nat.toDigits 10 n = c :: rest ∧ c ≠ '0' := by
  induction n using Nat.strongRecOn with
  | _ n ih =>
    by_cases hn : n < 10
    · refine ⟨n.digitChar, [], Nat.toDigits_of_lt_base hn, ?_⟩
      interval_cases n <;> decide
    · obtain ⟨c, rest, hc, h0⟩ := ih (n / 10) (by omega) (by omega)
      refine ⟨c, rest ++ [(n % 10).digitChar], ?_, h0⟩
      rw [Nat.toDigits_of_base_le (by omega) (by omega), hc, List.cons_append]

/-- Every digit of a number in a base is that of a number below the base. -/
theorem exists_digitChar {b n : Nat} (hb : 1 < b) (h : c ∈ Nat.toDigits b n) : ∃ d < b, c = d.digitChar := by
  induction n using Nat.strongRecOn with
  | _ n ih =>
    by_cases hn : n < b
    · rw [Nat.toDigits_of_lt_base hn, List.mem_singleton] at h
      exact ⟨n, hn, h⟩
    · have hlt : n / b < n := Nat.div_lt_self (by omega) hb
      rw [Nat.toDigits_of_base_le hb (by omega), List.mem_append] at h
      rcases h with h | h
      · exact ih (n / b) hlt h
      · exact ⟨n % b, Nat.mod_lt n (by omega), List.mem_singleton.1 h⟩

/-- The digits of an integer: those of its size, after a minus when it is negative. -/
theorem toList_toString_int (n : Int) :
    (toString n).toList = if 0 ≤ n then Nat.toDigits 10 n.toNat else '-' :: Nat.toDigits 10 (-n).toNat := by
  rw [Int.toString_eq_repr, Int.repr_eq_if]
  split <;> simp

/-- An integer before a mark that is no digit is read back. -/
theorem integer_mark_inj {m n : Int} (hm : mark.isDigit = false)
    (h : (toString m).toList ++ mark :: rest = (toString n).toList ++ mark :: rest') : m = n ∧ rest = rest' := by
  have hminus : ∀ k : Nat, ∀ x y : List Char, Nat.toDigits 10 k ++ x ≠ '-' :: y := by
    intro k x y hk
    cases hd : Nat.toDigits 10 k with
    | nil => exact Nat.toDigits_ne_nil hd
    | cons c digits =>
      rw [hd, List.cons_append, List.cons.injEq] at hk
      have : c.isDigit = true := isDigit_toDigits (n := k) (hd ▸ List.mem_cons_self)
      rw [hk.1] at this
      exact absurd this (by decide)
  rw [toList_toString_int, toList_toString_int] at h
  split at h <;> split at h
  · obtain ⟨hmn, hrest⟩ := number_mark_inj hm h
    exact ⟨by omega, hrest⟩
  · exact absurd h (hminus _ _ _)
  · exact absurd h.symm (hminus _ _ _)
  · simp only [List.cons_append, List.cons.injEq, true_and] at h
    obtain ⟨hmn, hrest⟩ := number_mark_inj hm h
    exact ⟨by omega, hrest⟩

/-- Two texts that measure the same by a measure that every character adds to, each with something after it, are read back. -/
theorem measured_inj {size : Char → Nat} (hsize : ∀ c, 0 < size c) {text text' : List Char}
    (hs : (text.map size).sum = (text'.map size).sum) (h : text ++ rest = text' ++ rest') : text = text' ∧ rest = rest' := by
  induction text generalizing text' with
  | nil =>
    cases text' with
    | nil => exact ⟨rfl, h⟩
    | cons c text' =>
      simp only [List.map_nil, List.sum_nil, List.map_cons, List.sum_cons] at hs
      have := hsize c
      omega
  | cons c text ih =>
    cases text' with
    | nil =>
      simp only [List.map_nil, List.sum_nil, List.map_cons, List.sum_cons] at hs
      have := hsize c
      omega
    | cons c' text' =>
      simp only [List.cons_append, List.cons.injEq] at h
      obtain ⟨rfl, h⟩ := h
      simp only [List.map_cons, List.sum_cons] at hs
      obtain ⟨htext, hrest⟩ := ih (by omega) h
      exact ⟨by rw [htext], hrest⟩

end Decimal
