import Mathlib.Tactic

/-!
# Hexadecimal digits

A number in hexadecimal digits of a fixed width, most significant first, and the number that digits spell.
-/

namespace Hex

/-- The number that a digit stands for. -/
def digitValue (c : Char) : Nat := if c.isDigit then c.toNat - 48 else c.toNat - 87

/-- The character is a lowercase hexadecimal digit. -/
def isDigit (c : Char) : Bool := c.isDigit || (decide ('a' ≤ c) && decide (c ≤ 'f'))

/-- The number that digits spell. -/
def value (digits : List Char) : Nat := digits.foldl (fun n c => 16 * n + digitValue c) 0

/-- The low digits of a number, `width` of them. -/
def digits : Nat → Nat → List Char
  | 0, _ => []
  | width + 1, n => digits width (n / 16) ++ [(n % 16).digitChar]

theorem digitValue_digitChar {d : Nat} (h : d < 16) : digitValue d.digitChar = d := by
  interval_cases d <;> decide

theorem value_concat (ds : List Char) (c : Char) : value (ds ++ [c]) = 16 * value ds + digitValue c := by
  rw [value, List.foldl_append]
  rfl

theorem length_digits (width n : Nat) : (digits width n).length = width := by
  induction width generalizing n with
  | zero => rfl
  | succ width ih => rw [digits, List.length_append, ih, List.length_singleton]

theorem isDigit_digitChar {d : Nat} (h : d < 16) : isDigit d.digitChar = true := by
  interval_cases d <;> decide

theorem isDigit_of_mem_digits {width n : Nat} {c : Char} (h : c ∈ digits width n) : isDigit c = true := by
  induction width generalizing n with
  | zero => cases h
  | succ width ih =>
    rw [digits, List.mem_append, List.mem_singleton] at h
    rcases h with h | rfl
    · exact ih h
    · exact isDigit_digitChar (Nat.mod_lt _ (by decide))

/-- The digits of a number spell it, up to the width. -/
theorem value_digits (width n : Nat) : value (digits width n) = n % 16 ^ width := by
  induction width generalizing n with
  | zero => simp [digits, value, Nat.mod_one]
  | succ width ih =>
    rw [digits, value_concat, ih, digitValue_digitChar (Nat.mod_lt _ (by decide)), Nat.pow_succ', Nat.mod_mul]
    omega

theorem digitValue_lt {c : Char} (h : isDigit c = true) : digitValue c < 16 := by
  simp only [isDigit, Bool.or_eq_true, Bool.and_eq_true, decide_eq_true_eq] at h
  simp only [digitValue]
  split
  · rename_i hd
    rw [Char.isDigit_iff_toNat, show '0'.toNat = 48 from rfl, show '9'.toNat = 57 from rfl] at hd
    omega
  · rcases h with h | ⟨ha, hf⟩
    · contradiction
    · have h1 : 97 ≤ c.toNat := ha
      have h2 : c.toNat ≤ 102 := hf
      omega

/-- Digits spell a number below the power of their count. -/
theorem value_lt {ds : List Char} (h : ∀ c ∈ ds, isDigit c = true) : value ds < 16 ^ ds.length := by
  induction ds using List.reverseRecOn with
  | nil => simp [value]
  | append_singleton ds c ih =>
    have h1 := ih fun c hc => h c (List.mem_append_left _ hc)
    have h2 := digitValue_lt (h c (List.mem_append_right _ (List.mem_singleton.2 rfl)))
    rw [value_concat, List.length_append, List.length_singleton, Nat.pow_succ]
    omega

end Hex
