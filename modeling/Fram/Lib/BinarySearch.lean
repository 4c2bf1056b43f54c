import Mathlib.Tactic

/-!
# Binary search for the end of a prefix

`search p` finds where a test on positions that holds on a prefix stops holding. The search halves the range, so a number of
steps equal to the length of the range is always enough.
-/

namespace BinarySearch

/-- The first position of `[low, high)` at which the test fails, or `high`, in at most `fuel` steps. -/
def search (p : Nat → Bool) : Nat → Nat → Nat → Nat
  | 0, low, _ => low
  | fuel + 1, low, high =>
    if low < high then
      let middle := (low + high) / 2
      if p middle then search p fuel (middle + 1) high else search p fuel low middle
    else
      low

/-- On a test that holds on a prefix of the range, the search returns the end of the prefix. -/
theorem search_spec {p : Nat → Bool} {bound : Nat} (hp : ∀ i j, i ≤ j → j < bound → p j = true → p i = true)
    (fuel low high : Nat) (hf : high - low ≤ fuel) (hle : low ≤ high) (hb : high ≤ bound) :
    low ≤ search p fuel low high ∧ search p fuel low high ≤ high ∧
      (∀ i, low ≤ i → i < search p fuel low high → p i = true) ∧
      (∀ i, search p fuel low high ≤ i → i < high → p i = false) := by
  induction fuel generalizing low high with
  | zero =>
    have : low = high := by omega
    subst this
    exact ⟨Nat.le_refl _, Nat.le_refl _, fun i h1 h2 => by simp only [search] at h2; omega,
      fun i h1 h2 => by simp only [search] at h1; omega⟩
  | succ fuel ih =>
    simp only [search]
    by_cases hlt : low < high
    · rw [if_pos hlt]
      cases hm : p ((low + high) / 2) with
      | true =>
        simp only [if_true]
        obtain ⟨h1, h2, h3, h4⟩ := ih ((low + high) / 2 + 1) high (by omega) (by omega) hb
        refine ⟨by omega, h2, fun i hi hi' => ?_, h4⟩
        rcases Nat.lt_or_ge ((low + high) / 2) i with hlt' | hge
        · exact h3 i hlt' hi'
        · exact hp i _ hge (by omega) hm
      | false =>
        simp only [Bool.false_eq_true, if_false]
        obtain ⟨h1, h2, h3, h4⟩ := ih low ((low + high) / 2) (by omega) (by omega) (by omega)
        refine ⟨h1, by omega, h3, fun i hi hi' => ?_⟩
        rcases Nat.lt_or_ge i ((low + high) / 2) with hlt' | hge
        · exact h4 i hi hlt'
        · cases hpi : p i with
          | false => rfl
          | true => exact absurd (hp _ i hge (by omega) hpi) (by simp [hm])
    · rw [if_neg hlt]
      exact ⟨Nat.le_refl _, by omega, fun i h1 h2 => by omega, fun i h1 h2 => by omega⟩

/-- The end of the prefix of `[0, n)` on which the test holds. -/
def prefixEnd (p : Nat → Bool) (n : Nat) : Nat := search p n 0 n

theorem search_le (p : Nat → Bool) (fuel low high : Nat) (h : low ≤ high) : search p fuel low high ≤ high := by
  induction fuel generalizing low high with
  | zero => exact h
  | succ fuel ih =>
    simp only [search]
    split
    · split
      · exact ih _ _ (by omega)
      · exact (ih _ _ (by omega)).trans (by omega)
    · exact h

/-- The end of a prefix of a range is in the range, whatever the test is. -/
theorem prefixEnd_le (p : Nat → Bool) (n : Nat) : prefixEnd p n ≤ n := search_le p n 0 n (Nat.zero_le n)

/-- A position is the end of the prefix when the test holds before it and fails from it on. -/
theorem prefixEnd_eq {p : Nat → Bool} {n k : Nat} (hk : k ≤ n) (h1 : ∀ i, i < k → p i = true)
    (h2 : ∀ i, k ≤ i → i < n → p i = false) : prefixEnd p n = k := by
  have hp : ∀ i j, i ≤ j → j < n → p j = true → p i = true := by
    intro i j hij hj hpj
    rcases Nat.lt_or_ge i k with hi | hi
    · exact h1 i hi
    · rw [h2 j (hi.trans hij) hj] at hpj
      cases hpj
  obtain ⟨-, hle, h3, h4⟩ := search_spec hp n 0 n (by omega) (Nat.zero_le n) (Nat.le_refl n)
  unfold prefixEnd
  rcases lt_trichotomy (search p n 0 n) k with h | h | h
  · have := h1 _ h
    rw [h4 _ (Nat.le_refl _) (by omega)] at this
    cases this
  · exact h
  · have := h3 k (Nat.zero_le k) h
    rw [h2 k (Nat.le_refl k) (by omega)] at this
    cases this

end BinarySearch
