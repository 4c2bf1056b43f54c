import Mathlib.Tactic

/-!
# Key-value stores

A store is a map from keys to values. Entries are put, and keys deleted, one after the other; what a key has afterwards is the last of
the entries under it, and a store under other keys is as before.
-/

/-- A map from keys to values. -/
abbrev KeyValue (K V : Type) := K → Option V

namespace KeyValue

variable {K V : Type} [DecidableEq K]

/-- The value under a key. -/
def put (store : KeyValue K V) (key : K) (value : V) : KeyValue K V := Function.update store key (some value)

/-- No value under a key. -/
def delete (store : KeyValue K V) (key : K) : KeyValue K V := Function.update store key none

/-- The entries put in their order. -/
def putAll (store : KeyValue K V) (entries : List (K × V)) : KeyValue K V := entries.foldl (fun s e => s.put e.1 e.2) store

/-- The keys deleted in their order. -/
def deleteAll (store : KeyValue K V) (keys : List K) : KeyValue K V := keys.foldl delete store

/-- Entries put in batches are put in their order. -/
theorem putAll_flatten (store : KeyValue K V) (batches : List (List (K × V))) :
    batches.foldl putAll store = store.putAll batches.flatten := by
  simp only [putAll, List.foldl_flatten]
  rfl

/-- Keys deleted in batches are deleted in their order. -/
theorem deleteAll_flatten (store : KeyValue K V) (batches : List (List K)) :
    batches.foldl deleteAll store = store.deleteAll batches.flatten := by
  simp only [deleteAll, List.foldl_flatten]
  rfl

/-- A key that is not among those of the entries keeps its value. -/
theorem putAll_of_notMem (store : KeyValue K V) {entries : List (K × V)} {key : K} (h : key ∉ entries.map Prod.fst) :
    store.putAll entries key = store key := by
  induction entries generalizing store with
  | nil => rfl
  | cons e entries ih =>
    rw [List.map_cons, List.mem_cons, not_or] at h
    show (store.put e.1 e.2).putAll entries key = store key
    rw [ih _ h.2, put, Function.update_of_ne h.1]

/-- A key under which the entries have one value has it afterwards. -/
theorem putAll_of_mem (store : KeyValue K V) {entries : List (K × V)} {key : K} {value : V} (h : (key, value) ∈ entries)
    (hu : ∀ e ∈ entries, e.1 = key → e.2 = value) : store.putAll entries key = some value := by
  induction entries generalizing store with
  | nil => exact absurd h List.not_mem_nil
  | cons e entries ih =>
    show (store.put e.1 e.2).putAll entries key = some value
    by_cases hm : key ∈ entries.map Prod.fst
    · obtain ⟨e', he', hk⟩ := List.mem_map.1 hm
      refine ih _ ?_ fun e'' he'' => hu e'' (List.mem_cons_of_mem _ he'')
      rw [← hk, ← hu e' (List.mem_cons_of_mem _ he') hk]
      exact he'
    · rw [putAll_of_notMem _ hm]
      rcases List.mem_cons.1 h with rfl | h
      · exact Function.update_self _ _ _
      · exact absurd (List.mem_map_of_mem h) hm

/-- What a key has after keys were deleted. -/
theorem deleteAll_apply (store : KeyValue K V) (keys : List K) (key : K) :
    store.deleteAll keys key = if key ∈ keys then none else store key := by
  induction keys generalizing store with
  | nil => simp [deleteAll]
  | cons k keys ih =>
    show (store.delete k).deleteAll keys key = _
    rw [ih, delete]
    by_cases hk : key = k
    · simp [hk]
    · simp [hk]

end KeyValue
