import Fram.Lib.Decimal
import Fram.ChunkStore

/-!
# What the chunks of a range say

A range is stored when its manifest and its chunks are those of its bytes (`Stored`): every load gives these bytes back
(`Stored.load`), and a plan from a place up to which the bytes agree makes the storage that of the new bytes (`Stored.applyTo`).
-/

namespace Fram.Worker

open Lines (Text)

variable {i length low n : Nat} {buffer : Bytes} {plan : Plan}

/-! ## Keys -/

theorem length_padStart (width : Nat) (text : Text) : width ≤ (padStart width text).length := by
  simp only [padStart, List.length_append, List.length_replicate]
  omega

/-- Leading zeros do not count. -/
theorem value_padStart (width : Nat) (text : Text) : Decimal.value (padStart width text) = Decimal.value text := by
  have hz : ∀ n, (List.replicate n '0').foldl (fun n c => 10 * n + (c.toNat - 48)) 0 = 0 := by
    intro n
    induction n with
    | zero => rfl
    | succ n ih =>
      rw [List.replicate_succ', List.foldl_append, ih]
      rfl
  rw [Decimal.value, padStart, List.foldl_append, hz]
  rfl

/-- The keys of the chunks of a prefix are different. -/
theorem padStart_injective {width j : Nat} (h : padStart width (Nat.toDigits 10 i) = padStart width (Nat.toDigits 10 j)) : i = j := by
  have hv := congrArg Decimal.value h
  rwa [value_padStart, value_padStart, Decimal.value_toDigits, Decimal.value_toDigits] at hv

namespace ChunkedRange

theorem chunkKey_inj {range : ChunkedRange} {j : Nat} : range.chunkKey i = range.chunkKey j ↔ i = j := by
  refine ⟨?_, fun h => h ▸ rfl⟩
  intro h
  exact padStart_injective (List.append_cancel_left h)

theorem chunkKey_ne_metaKey (range : ChunkedRange) (i : Nat) : range.chunkKey i ≠ range.metaKey := by
  intro h
  have hl := congrArg List.length (List.append_cancel_left h)
  have := length_padStart 8 (Nat.toDigits 10 i)
  rw [hl] at this
  exact absurd this (by decide)

/-- The key begins with the prefix of the range. -/
theorem take_metaKey (range : ChunkedRange) : range.metaKey.take range.keyPrefix.length = range.keyPrefix := List.take_left

theorem take_chunkKey (range : ChunkedRange) (i : Nat) : (range.chunkKey i).take range.keyPrefix.length = range.keyPrefix :=
  List.take_left

end ChunkedRange

/-- A key of the range. -/
def OwnKey (range : ChunkedRange) (key : Text) : Prop := key = range.metaKey ∨ ∃ i, key = range.chunkKey i

/-- The keys of the two objects are different. -/
theorem OwnKey.which {range range' : ChunkedRange} {which which' : Which} (hp : range.keyPrefix = which.keyPrefix)
    (hp' : range'.keyPrefix = which'.keyPrefix) {key : Text} (h : OwnKey range key) (h' : OwnKey range' key) : which = which' := by
  have hown : ∀ r : ChunkedRange, OwnKey r key → key.take r.keyPrefix.length = r.keyPrefix := by
    intro r hr
    rcases hr with rfl | ⟨i, rfl⟩
    · exact r.take_metaKey
    · exact r.take_chunkKey i
  have h1 := congrArg (List.take 5) (hown range h)
  have h2 := congrArg (List.take 5) (hown range' h')
  have hfive : ∀ w : Which, 5 ≤ w.keyPrefix.length := by
    intro w
    cases w <;> decide
  rw [List.take_take, hp, Nat.min_eq_left (hfive which)] at h1
  rw [List.take_take, hp', Nat.min_eq_left (hfive which'), h1] at h2
  revert h2
  cases which <;> cases which' <;> decide

/-! ## Reading -/

/-- The range is stored: the manifest has the length of the bytes, and their chunks are there, or nothing was ever written. -/
def Stored (storage : Storage) (range : ChunkedRange) (bytes : Bytes) : Prop :=
  storage range.metaKey = none ∧ bytes = [] ∨
  storage range.metaKey = some (.manifest bytes.length range.chunkBytes) ∧
    ∀ i < Chunks.count range.chunkBytes bytes.length,
      storage (range.chunkKey i) = some (.chunk (Chunks.chunk range.chunkBytes bytes i))

section Stored

variable {storage storage' : Storage} {range range' : ChunkedRange} {bytes : Bytes}

theorem Stored.congr (h : Stored storage range bytes) (hs : ∀ key, OwnKey range key → storage' key = storage key) :
    Stored storage' range bytes := by
  have hmeta := hs _ (Or.inl rfl)
  rcases h with ⟨h, hb⟩ | ⟨h, hchunks⟩
  · exact Or.inl ⟨hmeta.trans h, hb⟩
  · refine Or.inr ⟨hmeta.trans h, ?_⟩
    intro i hi
    rw [hs _ (Or.inr ⟨i, rfl⟩)]
    exact hchunks i hi

/-- What is stored is seen through every range of the prefix and the chunk size. -/
theorem Stored.through (h : Stored storage range bytes) (hp : range'.keyPrefix = range.keyPrefix)
    (hc : range'.chunkBytes = range.chunkBytes) : Stored storage range' bytes := by
  obtain ⟨p, c, b, n⟩ := range
  obtain ⟨p', c', b', n'⟩ := range'
  simp only at hp hc
  subst hp hc
  exact h

/-- One chunk is written into the image. -/
theorem readChunk_eq {image : Bytes} {index : Nat}
    (h : storage (range.chunkKey index) = some (.chunk (Chunks.chunk range.chunkBytes bytes index))) :
    range.readChunk storage bytes.length image index =
      .ok (Chunks.overwrite image (index * range.chunkBytes) (Chunks.chunk range.chunkBytes bytes index)) := by
  simp only [ChunkedRange.readChunk, h, StorageValue.bytes]
  rw [List.take_of_length_le]
  rw [Chunks.length_chunk]
  omega

theorem foldlM_readChunk {image : Bytes} {indices : List Nat}
    (h : ∀ i ∈ indices, storage (range.chunkKey i) = some (.chunk (Chunks.chunk range.chunkBytes bytes i))) :
    indices.foldlM (range.readChunk storage bytes.length) image =
      .ok (indices.foldl (fun image i => Chunks.overwrite image (i * range.chunkBytes) (Chunks.chunk range.chunkBytes bytes i)) image) := by
  induction indices generalizing image with
  | nil => rfl
  | cons i indices ih =>
    rw [List.foldlM_cons, readChunk_eq (h i List.mem_cons_self)]
    exact ih fun j hj => h j (List.mem_cons_of_mem _ hj)

/-- The batches of a load, one after the other, are one pass. -/
theorem foldlM_batches {β γ ε : Type} (f : γ → β → Except ε γ) (batches : List (List β)) (start : γ) :
    batches.foldlM (fun s batch => batch.foldlM f s) start = batches.flatten.foldlM f start := by
  induction batches generalizing start with
  | nil => rfl
  | cons batch batches ih =>
    rw [List.foldlM_cons, List.flatten_cons, List.foldlM_append]
    congr 1
    funext s
    exact ih s

/-- What is stored is loaded, and stays stored under the loaded range. -/
theorem Stored.load (h : Stored storage range bytes) (hp : range'.keyPrefix = range.keyPrefix) :
    ∃ loaded : ChunkedRange, range'.load storage = .ok (loaded, bytes) ∧ loaded.keyPrefix = range.keyPrefix ∧
      loaded.chunkCount.isSome ∧ Stored storage loaded bytes := by
  have hkey : range'.metaKey = range.metaKey := by rw [ChunkedRange.metaKey, hp, ChunkedRange.metaKey]
  rcases h with ⟨h, rfl⟩ | ⟨h, hchunks⟩
  · refine ⟨{ range' with chunkCount := some 0 }, ?_, hp, rfl, Or.inl ⟨?_, rfl⟩⟩
    · simp only [ChunkedRange.load, hkey, h]
    · exact (congrArg storage hkey).trans h
  · have hadopt : range'.adopt range.chunkBytes = { range' with chunkBytes := range.chunkBytes } := dif_pos range.chunkBytes.pos
    have hstored : Stored storage
        { range' with chunkBytes := range.chunkBytes, chunkCount := some (Chunks.count range.chunkBytes bytes.length) } bytes :=
      Stored.through (Or.inr ⟨h, hchunks⟩) hp rfl
    refine ⟨{ range' with chunkBytes := range.chunkBytes, chunkCount := some (Chunks.count range.chunkBytes bytes.length) }, ?_, hp,
      rfl, hstored⟩
    rcases hstored with ⟨hn, -⟩ | ⟨-, hchunks'⟩
    · rw [show ({ range' with chunkBytes := range.chunkBytes, chunkCount := _ } : ChunkedRange).metaKey = range.metaKey from hkey, h] at hn
      cases hn
    · simp only [ChunkedRange.load, hkey, h, StorageValue.chunkBytes, StorageValue.length, hadopt]
      rw [foldlM_batches, Chunks.flatten_batches range'.batchKeys.pos, foldlM_readChunk]
      · rw [Chunks.foldl_overwrite_all range.chunkBytes.pos]
        rfl
      · intro i hi
        exact hchunks' i (List.mem_range.1 hi)

/-! ## Writing -/

/-- The slice of a buffer that a plan writes is a chunk of the object. -/
theorem slice_eq_chunk {size : Nat} :
    (buffer.drop (i * size)).take (min (i * size + size) length - i * size) = Chunks.chunk size (buffer.take length) i := by
  rw [Chunks.chunk, List.drop_take, List.take_take]
  congr 1
  omega

/-- What a plan of the bytes says. -/
theorem plan_eq (hn : range.chunkCount = some n) : range.plan buffer length low = .ok
      { writes := (List.range' (low / range.chunkBytes) (Chunks.count range.chunkBytes length - low / range.chunkBytes)).map fun i =>
          (range.chunkKey i, .chunk (Chunks.chunk range.chunkBytes (buffer.take length) i))
        stale := (List.range' (Chunks.count range.chunkBytes length) (n - Chunks.count range.chunkBytes length)).map range.chunkKey
        chunks := Chunks.count range.chunkBytes length
        length := length
        publishMeta := true } := by
  simp only [ChunkedRange.plan, hn, slice_eq_chunk]

/-- What a plan leaves: its writes, its deletions and its manifest. -/
theorem applyTo_eq (range : ChunkedRange) (storage : Storage) (h : plan.publishMeta = true) : range.applyTo storage plan =
      ((storage.putAll plan.writes).deleteAll plan.stale).put range.metaKey (.manifest plan.length range.chunkBytes) := by
  simp only [ChunkedRange.applyTo]
  rw [if_pos h, KeyValue.putAll_flatten, KeyValue.deleteAll_flatten, Chunks.flatten_batches range.batchKeys.pos,
    Chunks.flatten_batches range.batchKeys.pos]

/-- A plan is about the keys of its range. -/
structure PlansFor (range : ChunkedRange) (plan : Plan) : Prop where
  publishes : plan.publishMeta = true
  writes : ∀ e ∈ plan.writes, OwnKey range e.1
  stale : ∀ key ∈ plan.stale, OwnKey range key

theorem plansFor (hn : range.chunkCount = some n) (hplan : range.plan buffer length low = .ok plan) : PlansFor range plan := by
  rw [plan_eq hn] at hplan
  cases hplan
  refine ⟨rfl, ?_, ?_⟩
  · intro e he
    obtain ⟨i, -, rfl⟩ := List.mem_map.1 he
    exact Or.inr ⟨i, rfl⟩
  · intro key hkey
    obtain ⟨i, -, rfl⟩ := List.mem_map.1 hkey
    exact Or.inr ⟨i, rfl⟩

/-- A plan leaves the keys of others alone. -/
theorem PlansFor.frame (h : PlansFor range plan) (storage : Storage) {key : Text} (hkey : ¬ OwnKey range key) :
    range.applyTo storage plan key = storage key := by
  have hmeta : key ≠ range.metaKey := fun he => hkey (Or.inl he)
  have hstale : key ∉ plan.stale := fun he => hkey (h.stale _ he)
  have hwrites : key ∉ plan.writes.map Prod.fst := by
    intro hm
    obtain ⟨e, he, hk⟩ := List.mem_map.1 hm
    rw [← hk] at hkey
    exact hkey (h.writes e he)
  rw [applyTo_eq _ _ h.publishes, KeyValue.put, Function.update_of_ne hmeta, KeyValue.deleteAll_apply, if_neg hstale,
    KeyValue.putAll_of_notMem _ hwrites]

/-- A plan from a place up to which the object is as it was stored makes the storage that of the object. -/
theorem Stored.applyTo {old : Bytes} (h : Stored storage range old) (hn : range.chunkCount = some n)
    (hlength : length ≤ buffer.length) (hold : low ≤ old.length) (hlow : (buffer.take length).take low = old.take low)
    (hplan : range.plan buffer length low = .ok plan) :
    Stored (range.applyTo storage plan) range (buffer.take length) := by
  have hlen : (buffer.take length).length = length := by
    rw [List.length_take]
    omega
  rw [plan_eq hn] at hplan
  cases hplan
  rw [applyTo_eq _ _ rfl]
  refine Or.inr ⟨?_, ?_⟩
  · rw [KeyValue.put, Function.update_self, hlen]
  · intro i hi
    rw [hlen] at hi
    have hkept : range.chunkKey i ∉ (List.range' (Chunks.count range.chunkBytes length)
        (n - Chunks.count range.chunkBytes length)).map range.chunkKey := by
      intro hm
      obtain ⟨j, hj, he⟩ := List.mem_map.1 hm
      rw [ChunkedRange.chunkKey_inj] at he
      rw [List.mem_range'_1] at hj
      omega
    rw [KeyValue.put, Function.update_of_ne (range.chunkKey_ne_metaKey i), KeyValue.deleteAll_apply, if_neg hkept]
    by_cases hfirst : low / range.chunkBytes ≤ i
    · -- a chunk at or after the low water is written
      refine KeyValue.putAll_of_mem _ (List.mem_map.2 ⟨i, List.mem_range'_1.2 (by omega), rfl⟩) ?_
      intro e he hk
      obtain ⟨j, -, rfl⟩ := List.mem_map.1 he
      rw [ChunkedRange.chunkKey_inj.1 hk]
    · -- a chunk that ends at or below the low water is the one that was stored
      have hnot : range.chunkKey i ∉ ((List.range' (low / range.chunkBytes)
          (Chunks.count range.chunkBytes length - low / range.chunkBytes)).map fun i =>
            (range.chunkKey i, StorageValue.chunk (Chunks.chunk range.chunkBytes (buffer.take length) i))).map Prod.fst := by
        intro hm
        obtain ⟨e, he, hk⟩ := List.mem_map.1 hm
        obtain ⟨j, hj, rfl⟩ := List.mem_map.1 he
        rw [ChunkedRange.chunkKey_inj] at hk
        rw [List.mem_range'_1] at hj
        omega
      have hend : (i + 1) * range.chunkBytes ≤ low := by
        have hlt : i + 1 ≤ low / range.chunkBytes := by omega
        exact (Nat.mul_le_mul_right _ hlt).trans (Nat.div_mul_le_self _ _)
      rw [KeyValue.putAll_of_notMem _ hnot, Chunks.chunk_congr hlow hend]
      rcases h with ⟨-, rfl⟩ | ⟨-, hchunks⟩
      · have := range.chunkBytes.pos
        rw [Nat.add_one_mul] at hend
        simp only [List.length_nil] at hold
        omega
      · refine hchunks i ((Chunks.lt_count range.chunkBytes.pos).2 ?_)
        have := range.chunkBytes.pos
        rw [Nat.add_one_mul] at hend
        omega

end Stored

end Fram.Worker
