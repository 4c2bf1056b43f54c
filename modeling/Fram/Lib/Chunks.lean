import Mathlib.Tactic

/-!
# Chunks of a list

A list in chunks of one length, the last of which may be shorter, and the list written back into a buffer chunk by chunk. Lists that
agree up to a place have the same chunks below it.
-/

namespace Chunks

variable {α : Type}

/-- The chunk at an index, of chunks of `size` elements. -/
def chunk (size : Nat) (xs : List α) (index : Nat) : List α := (xs.drop (index * size)).take size

/-- How many chunks `length` elements have. -/
def count (size length : Nat) : Nat := (length + (size - 1)) / size

/-- The elements from a place on, overwritten. -/
def overwrite (xs : List α) (at_ : Nat) (ys : List α) : List α := xs.take at_ ++ (ys ++ xs.drop (at_ + ys.length))

theorem lt_count {size length index : Nat} (hs : 0 < size) : index < count size length ↔ index * size < length := by
  rw [count, Nat.lt_div_iff_mul_lt hs]
  omega

theorem length_chunk (size : Nat) (xs : List α) (index : Nat) : (chunk size xs index).length = min size (xs.length - index * size) := by
  simp [chunk]

/-- Lists that agree up to a place have the same chunks where these end below it. -/
theorem chunk_congr {size index low : Nat} {xs ys : List α} (h : xs.take low = ys.take low) (hi : (index + 1) * size ≤ low) :
    chunk size xs index = chunk size ys index := by
  have hcut : ∀ zs : List α, chunk size zs index = chunk size (zs.take low) index := by
    intro zs
    rw [chunk, chunk, List.drop_take, List.take_take, Nat.min_eq_left]
    rw [Nat.add_one_mul] at hi
    omega
  rw [hcut xs, hcut ys, h]

/-- The chunks below an index, written into a buffer of the length of the list. -/
theorem foldl_overwrite (size : Nat) (xs : List α) (z : α) (n : Nat) (hn : (n - 1) * size ≤ xs.length) :
    (List.range n).foldl (fun image i => overwrite image (i * size) (chunk size xs i)) (List.replicate xs.length z) =
      xs.take (n * size) ++ List.replicate (xs.length - n * size) z := by
  induction n with
  | zero => simp
  | succ n ih =>
    have hle : n * size ≤ xs.length := by simpa using hn
    have hprev : (n - 1) * size ≤ xs.length := (Nat.mul_le_mul_right _ (Nat.sub_le _ _)).trans hle
    rw [List.range_succ, List.foldl_append, List.foldl_cons, List.foldl_nil, ih hprev, overwrite, length_chunk]
    have htake : (xs.take (n * size)).length = n * size := by
      rw [List.length_take]
      omega
    have hfront : (xs.take (n * size) ++ List.replicate (xs.length - n * size) z).take (n * size) = xs.take (n * size) := by
      rw [List.take_append_of_le_length (by omega), List.take_of_length_le (by omega)]
    have hback : (xs.take (n * size) ++ List.replicate (xs.length - n * size) z).drop (n * size + min size (xs.length - n * size)) =
        List.replicate (xs.length - (n + 1) * size) z := by
      rw [List.drop_append, List.drop_of_length_le (by omega), htake, List.drop_replicate, List.nil_append, Nat.add_one_mul]
      congr 1
      omega
    rw [hfront, hback, chunk, ← List.append_assoc, Nat.add_one_mul, List.take_add]

/-- A list is its chunks, written into a buffer of its length. -/
theorem foldl_overwrite_all {size : Nat} (hs : 0 < size) (xs : List α) (z : α) :
    (List.range (count size xs.length)).foldl (fun image i => overwrite image (i * size) (chunk size xs i))
      (List.replicate xs.length z) = xs := by
  have hall : xs.length ≤ count size xs.length * size := by
    have := (@lt_count size xs.length (count size xs.length) hs).not.1 (Nat.lt_irrefl _)
    omega
  have hlast : (count size xs.length - 1) * size ≤ xs.length := by
    rcases hc : count size xs.length with _ | c
    · simp
    · have := (@lt_count size xs.length c hs).1 (by omega)
      simpa using this.le
  rw [foldl_overwrite _ _ _ _ hlast, List.take_of_length_le hall, Nat.sub_eq_zero_of_le hall]
  simp

/-- The list in batches. -/
def batches (size : Nat) (xs : List α) : List (List α) := (List.range (count size xs.length)).map (chunk size xs)

theorem flatten_map_chunk (size : Nat) (xs : List α) (n : Nat) : ((List.range n).map (chunk size xs)).flatten = xs.take (n * size) := by
  induction n with
  | zero => simp
  | succ n ih =>
    rw [List.range_succ, List.map_append, List.flatten_append, ih, Nat.add_one_mul, List.take_add]
    simp [chunk]

/-- The batches are the list. -/
theorem flatten_batches {size : Nat} (hs : 0 < size) (xs : List α) : (batches size xs).flatten = xs := by
  rw [batches, flatten_map_chunk, List.take_of_length_le]
  have := (@lt_count size xs.length (count size xs.length) hs).not.1 (Nat.lt_irrefl _)
  omega

end Chunks
