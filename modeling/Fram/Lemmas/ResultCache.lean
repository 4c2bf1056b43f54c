import Fram.Session

/-!
# What the cache of ordered results holds

A lookup answers an entry of the key that is asked for, and nothing puts an entry in the cache but the one that is retained.

`Bookkept` is what the cache records of its entries: their bytes in total, and the snapshots that they are of. The loops that evict only
take entries and snapshots away, and each ends with its limit met, in no more rounds than there are entries and snapshots.
-/

namespace Fram

section Cache

variable {state : OrderedResultCache} {session : Session}

/-- A lookup changes the order of the entries at most, and answers one of them that has the key. -/
theorem resultCacheLookup_spec (session : Session) (key : OrderedResultKey) :
    (resultCacheLookup session key).1.store = session.store ∧ (resultCacheLookup session key).1.view = session.view ∧
      (resultCacheLookup session key).1.orderedResults.entries ⊆ session.orderedResults.entries ∧
      ∀ entry, (resultCacheLookup session key).2 = some entry → entry ∈ session.orderedResults.entries ∧ entry.key = key := by
  unfold resultCacheLookup
  dsimp only
  cases hi : resultEntryIndex session.orderedResults.entries key with
  | none => exact ⟨rfl, rfl, fun _ h => h, fun _ h => nomatch h⟩
  | some index =>
    dsimp only
    cases he : session.orderedResults.entries[index]? with
    | none => exact ⟨rfl, rfl, fun _ h => h, fun _ h => nomatch h⟩
    | some entry =>
      have hmem : entry ∈ session.orderedResults.entries := List.mem_of_getElem? he
      refine ⟨rfl, rfl, fun entry' h' => ?_, fun entry' h' => ?_⟩
      · rcases List.mem_append.1 h' with h' | h'
        · exact (List.eraseIdx_sublist _ _).subset h'
        · exact List.mem_singleton.1 h' ▸ hmem
      · cases h'
        obtain ⟨hlt, htest, -⟩ := List.findIdx?_eq_some_iff_getElem.1 hi
        rw [List.getElem?_eq_getElem hlt] at he
        cases he
        exact ⟨hmem, (of_decide_eq_true htest).symm⟩

/-- A read under an operation leaves the session as it is, or looks a result up, or retains one under a key of the operation that a lookup
has not found. -/
inductive Touches (operation : Keyword) (session : Session) : Session → Prop where
  | same : Touches operation session session
  | lookup {key : OrderedResultKey} {looked : Session} {found : Option OrderedResultEntry}
    (h : resultCacheLookup session key = (looked, found)) : Touches operation session looked
  | retain {key : OrderedResultKey} {looked : Session} {entry : OrderedResultEntry} (h : resultCacheLookup session key = (looked, none))
    (hkey : entry.key = key) (hoperation : key.operation = operation) : Touches operation session (retainResultEntry looked entry)

end Cache

/-! ## The books -/

/-- The books are those of the entries. -/
structure Bookkept (state : OrderedResultCache) : Prop where
  bytes : state.bytes = ((state.entries.map (·.bytes)).sum : Nat)
  listed : ∀ snapshot, snapshot ∈ state.snapshots ↔ ∃ entry ∈ state.entries, entry.key.snapshot = snapshot
  once : state.snapshots.Nodup

/-- The limits hold. -/
structure WithinLimits (state : OrderedResultCache) : Prop where
  perSnapshot : ∀ snapshot, snapshotEntryCount state.entries snapshot ≤ resultCachePerSnapshotLimit
  snapshots : state.snapshots.length ≤ resultCacheSnapshotLimit
  bytes : state.bytes ≤ resultCacheByteLimit

/-- The entries and the snapshots of a cache are some of those of another, in the same order. -/
structure Shrinks (state state' : OrderedResultCache) : Prop where
  entries : state'.entries.Sublist state.entries
  snapshots : state'.snapshots.Sublist state.snapshots

theorem Shrinks.refl (state : OrderedResultCache) : Shrinks state state := ⟨List.Sublist.refl _, List.Sublist.refl _⟩

theorem Shrinks.trans {a b c : OrderedResultCache} (h : Shrinks a b) (h' : Shrinks b c) : Shrinks a c :=
  ⟨h'.entries.trans h.entries, h'.snapshots.trans h.snapshots⟩

theorem Shrinks.count_le {state state' : OrderedResultCache} (h : Shrinks state state') (snapshot : OrderedResultSnapshot) :
    snapshotEntryCount state'.entries snapshot ≤ snapshotEntryCount state.entries snapshot := h.entries.countP_le

section Books

variable {state : OrderedResultCache} {entry : OrderedResultEntry} {snapshot : OrderedResultSnapshot} {index : Nat}

theorem resultSnapshotPresent_iff {entries : List OrderedResultEntry} :
    resultSnapshotPresent entries snapshot = true ↔ ∃ entry ∈ entries, entry.key.snapshot = snapshot := by
  simp only [resultSnapshotPresent, List.any_eq_true, decide_eq_true_eq, @eq_comm _ snapshot]

theorem mem_removeResultSnapshot {values : List OrderedResultSnapshot} {target : OrderedResultSnapshot} :
    snapshot ∈ removeResultSnapshot values target ↔ snapshot ∈ values ∧ snapshot ≠ target := by
  simp [removeResultSnapshot]

/-- Taking an entry out and putting it back is an arrangement of the entries. -/
theorem cons_eraseIdx_perm {entries : List OrderedResultEntry} (h : entries[index]? = some entry) :
    (entry :: entries.eraseIdx index).Perm entries := by
  obtain ⟨hlt, rfl⟩ := List.getElem?_eq_some_iff.1 h
  exact List.getElem_cons_eraseIdx_perm hlt

/-! ## The steps -/

theorem shrinks_removeResultEntry (state : OrderedResultCache) (index : Nat) : Shrinks state (removeResultEntry state index) := by
  unfold removeResultEntry
  split
  · exact Shrinks.refl state
  · refine ⟨List.eraseIdx_sublist _ _, ?_⟩
    dsimp only
    split
    · exact List.Sublist.refl _
    · exact List.filter_sublist

/-- The snapshot of the entry is dropped with its last entry. -/
theorem Bookkept.removeResultEntry (h : Bookkept state) (index : Nat) : Bookkept (removeResultEntry state index) := by
  unfold Fram.removeResultEntry
  split
  · exact h
  · rename_i entry hentry
    have hperm := cons_eraseIdx_perm hentry
    have hmem : ∀ e, e ∈ state.entries ↔ e = entry ∨ e ∈ state.entries.eraseIdx index := fun e => by
      rw [← hperm.mem_iff, List.mem_cons]
    have hlisted : ∀ s, s ∈ state.snapshots ↔ entry.key.snapshot = s ∨ ∃ e ∈ state.entries.eraseIdx index, e.key.snapshot = s := by
      intro s
      rw [h.listed]
      constructor
      · intro hs
        obtain ⟨e, he, hsnapshot⟩ := hs
        rcases (hmem e).1 he with rfl | he
        · exact Or.inl hsnapshot
        · exact Or.inr ⟨e, he, hsnapshot⟩
      · intro hs
        rcases hs with hs | ⟨e, he, hs⟩
        · exact ⟨entry, (hmem entry).2 (Or.inl rfl), hs⟩
        · exact ⟨e, (hmem e).2 (Or.inr he), hs⟩
    refine ⟨?_, fun s => ?_, ?_⟩
    · have hsum := (hperm.map (·.bytes)).sum_eq
      rw [List.map_cons, List.sum_cons] at hsum
      change state.bytes - (entry.bytes : Int) = _
      rw [h.bytes, ← hsum]
      push_cast
      omega
    · dsimp only
      by_cases hpresent : resultSnapshotPresent (state.entries.eraseIdx index) entry.key.snapshot = true
      · rw [if_pos hpresent, hlisted]
        refine ⟨fun hs => ?_, Or.inr⟩
        rcases hs with rfl | hs
        · exact resultSnapshotPresent_iff.1 hpresent
        · exact hs
      · rw [if_neg hpresent, mem_removeResultSnapshot, hlisted]
        constructor
        · intro hs
          exact hs.1.resolve_left fun heq => hs.2 heq.symm
        · intro hs
          refine ⟨Or.inr hs, fun heq => hpresent (resultSnapshotPresent_iff.2 ?_)⟩
          rwa [heq] at hs
    · dsimp only
      split
      · exact h.once
      · exact h.once.filter _

theorem nodup_listLast {values : List OrderedResultSnapshot} (h : values.Nodup) (target : OrderedResultSnapshot) :
    (removeResultSnapshot values target ++ [target]).Nodup := by
  rw [List.nodup_append]
  refine ⟨h.filter _, List.nodup_singleton _, fun a ha b hb heq => ?_⟩
  rw [List.mem_singleton.1 hb] at heq
  exact (mem_removeResultSnapshot.1 ha).2 heq

theorem mem_listLast {values : List OrderedResultSnapshot} {target : OrderedResultSnapshot} :
    snapshot ∈ removeResultSnapshot values target ++ [target] ↔ snapshot ∈ values ∨ snapshot = target := by
  rw [List.mem_append, mem_removeResultSnapshot, List.mem_singleton]
  by_cases h : snapshot = target
  · simp [h]
  · simp [h]

theorem Bookkept.touchResultEntry (h : Bookkept state) (hentry : state.entries[index]? = some entry) :
    Bookkept (touchResultEntry state index entry) := by
  have hperm : (state.entries.eraseIdx index ++ [entry]).Perm state.entries :=
    (List.perm_append_singleton entry _).trans (cons_eraseIdx_perm hentry)
  refine ⟨?_, fun s => ?_, nodup_listLast h.once _⟩
  · change state.bytes = _
    rw [h.bytes, Fram.touchResultEntry, (hperm.map (·.bytes)).sum_eq]
  · change s ∈ removeResultSnapshot state.snapshots entry.key.snapshot ++ [entry.key.snapshot] ↔
      ∃ e ∈ state.entries.eraseIdx index ++ [entry], e.key.snapshot = s
    simp only [mem_listLast, h.listed, hperm.mem_iff]
    constructor
    · intro hs
      rcases hs with hs | rfl
      · exact hs
      · exact ⟨entry, List.mem_of_getElem? hentry, rfl⟩
    · exact Or.inl

theorem Bookkept.appendResultEntry (h : Bookkept state) (entry : OrderedResultEntry) : Bookkept (appendResultEntry state entry) := by
  refine ⟨?_, fun s => ?_, nodup_listLast h.once _⟩
  · change state.bytes + (entry.bytes : Int) = (((state.entries ++ [entry]).map (·.bytes)).sum : Nat)
    rw [h.bytes, List.map_append, List.sum_append]
    simp
  · change s ∈ removeResultSnapshot state.snapshots entry.key.snapshot ++ [entry.key.snapshot] ↔
      ∃ e ∈ state.entries ++ [entry], e.key.snapshot = s
    rw [mem_listLast, h.listed]
    simp only [List.mem_append, List.mem_singleton, or_and_right, exists_or, exists_eq_left, @eq_comm _ s]

/-! ## The loops -/

theorem length_removeResultEntry (h : index < state.entries.length) :
    (removeResultEntry state index).entries.length + 1 = state.entries.length := by
  unfold removeResultEntry
  rw [List.getElem?_eq_getElem h]
  dsimp only
  rw [List.length_eraseIdx_of_lt h]
  omega

/-- The index of an entry of a snapshot is there as soon as there is such an entry. -/
theorem firstSnapshotEntryIndex_cases (entries : List OrderedResultEntry) (snapshot : OrderedResultSnapshot) :
    (∃ index, firstSnapshotEntryIndex entries snapshot = some index ∧ index < entries.length) ∨
      firstSnapshotEntryIndex entries snapshot = none ∧ ∀ entry ∈ entries, entry.key.snapshot ≠ snapshot := by
  unfold firstSnapshotEntryIndex
  cases h : entries.findIdx? fun entry => decide (snapshot = entry.key.snapshot) with
  | some index =>
    obtain ⟨hlt, -⟩ := List.findIdx?_eq_some_iff_getElem.1 h
    exact Or.inl ⟨index, rfl, hlt⟩
  | none =>
    refine Or.inr ⟨rfl, fun entry hentry heq => ?_⟩
    have hnone := List.findIdx?_eq_none_iff.1 h entry hentry
    simp [heq] at hnone

/-- Eviction by entries ends with the limit met, when there are as many rounds as entries. -/
theorem enforceResultEntryLimit_done {fuel : Nat} (h : state.entries.length ≤ fuel) :
    snapshotEntryCount (enforceResultEntryLimit snapshot fuel state).entries snapshot ≤ resultCachePerSnapshotLimit := by
  induction fuel generalizing state with
  | zero =>
    rw [enforceResultEntryLimit, List.eq_nil_of_length_eq_zero (Nat.le_zero.1 h)]
    exact Nat.zero_le _
  | succ fuel ih =>
    rw [enforceResultEntryLimit]
    split
    · rename_i hover
      rcases firstSnapshotEntryIndex_cases state.entries snapshot with ⟨index, hindex, hlt⟩ | ⟨hindex, hnone⟩
      · rw [hindex]
        exact ih (by have := length_removeResultEntry hlt; omega)
      · have hzero : snapshotEntryCount state.entries snapshot = 0 := by
          rw [snapshotEntryCount, List.countP_eq_zero]
          exact fun entry hentry heq => hnone entry hentry (of_decide_eq_true heq).symm
        omega
    · rename_i hunder
      exact Nat.le_of_not_lt hunder

/-- A round of eviction by snapshots leaves fewer entries and snapshots. -/
theorem snapshotRound_lt {oldest : OrderedResultSnapshot} {rest : List OrderedResultSnapshot} (hcons : state.snapshots = oldest :: rest) :
    (∃ index, firstSnapshotEntryIndex state.entries oldest = some index ∧
      (removeResultEntry state index).entries.length + (removeResultEntry state index).snapshots.length <
        state.entries.length + state.snapshots.length) ∨
      firstSnapshotEntryIndex state.entries oldest = none ∧
        state.entries.length + (removeResultSnapshot state.snapshots oldest).length < state.entries.length + state.snapshots.length := by
  rcases firstSnapshotEntryIndex_cases state.entries oldest with ⟨index, hindex, hlt⟩ | ⟨hindex, -⟩
  · have hentries := length_removeResultEntry hlt
    have hsnapshots := (shrinks_removeResultEntry state index).snapshots.length_le
    exact .inl ⟨index, hindex, by omega⟩
  · have hfilter : (removeResultSnapshot (oldest :: rest) oldest).length ≤ rest.length := by
      rw [removeResultSnapshot, List.filter_cons_of_neg (by simp)]
      exact List.length_filter_le _ _
    rw [hcons, List.length_cons]
    exact .inr ⟨hindex, by omega⟩

/-- Eviction by snapshots ends with the limit met, when there are as many rounds as entries and snapshots. -/
theorem enforceResultSnapshotLimit_done {fuel : Nat} (h : state.entries.length + state.snapshots.length ≤ fuel) :
    (enforceResultSnapshotLimit fuel state).snapshots.length ≤ resultCacheSnapshotLimit := by
  induction fuel generalizing state with
  | zero =>
    rw [enforceResultSnapshotLimit]
    omega
  | succ fuel ih =>
    rw [enforceResultSnapshotLimit]
    split
    · rename_i hnil
      rw [hnil]
      exact Nat.zero_le _
    · rename_i first rest hcons
      split
      · refine ih ?_
        rcases snapshotRound_lt hcons with ⟨index, hindex, hlt⟩ | ⟨hindex, hlt⟩
        · rw [hindex]
          dsimp only
          omega
        · rw [hindex]
          dsimp only
          omega
      · rename_i hunder
        exact Nat.le_of_not_lt hunder

/-- Eviction by bytes ends with the limit met or with nothing left, when there are as many rounds as entries. -/
theorem enforceResultByteLimit_done {fuel : Nat} (h : state.entries.length ≤ fuel) :
    (enforceResultByteLimit fuel state).bytes ≤ resultCacheByteLimit ∨ (enforceResultByteLimit fuel state).entries = [] := by
  induction fuel generalizing state with
  | zero => exact Or.inr (List.eq_nil_of_length_eq_zero (Nat.le_zero.1 h))
  | succ fuel ih =>
    rw [enforceResultByteLimit]
    split
    · rename_i hover
      refine ih ?_
      have := length_removeResultEntry (List.length_pos_of_ne_nil hover.2)
      omega
    · rename_i hunder
      by_cases hempty : state.entries = []
      · exact Or.inr hempty
      · exact Or.inl (not_lt.1 fun hover => hunder ⟨hover, hempty⟩)

/-- What each step of the loops keeps, the loops keep. -/
theorem enforceResultEntryLimit_keeps {P : OrderedResultCache → Prop} (hstep : ∀ s index, P s → P (removeResultEntry s index))
    (fuel : Nat) (h : P state) : P (enforceResultEntryLimit snapshot fuel state) := by
  induction fuel generalizing state with
  | zero => exact h
  | succ fuel ih =>
    rw [enforceResultEntryLimit]
    split
    · split
      · exact ih (hstep _ _ h)
      · exact h
    · exact h

theorem enforceResultByteLimit_keeps {P : OrderedResultCache → Prop} (hstep : ∀ s index, P s → P (removeResultEntry s index))
    (fuel : Nat) (h : P state) : P (enforceResultByteLimit fuel state) := by
  induction fuel generalizing state with
  | zero => exact h
  | succ fuel ih =>
    rw [enforceResultByteLimit]
    split
    · exact ih (hstep _ _ h)
    · exact h

/-- Eviction by snapshots also drops the oldest snapshot from the list, when no entry is of it. -/
theorem enforceResultSnapshotLimit_keeps {P : OrderedResultCache → Prop} (hstep : ∀ s index, P s → P (removeResultEntry s index))
    (hdrop : ∀ s, ∀ oldest ∈ s.snapshots, (∀ entry ∈ s.entries, entry.key.snapshot ≠ oldest) → P s →
      P { s with snapshots := removeResultSnapshot s.snapshots oldest })
    (fuel : Nat) (h : P state) : P (enforceResultSnapshotLimit fuel state) := by
  induction fuel generalizing state with
  | zero => exact h
  | succ fuel ih =>
    rw [enforceResultSnapshotLimit]
    split
    · exact h
    · rename_i oldest rest hcons
      split
      · refine ih ?_
        rcases firstSnapshotEntryIndex_cases state.entries oldest with ⟨index, hindex, -⟩ | ⟨hindex, hnone⟩
        · rw [hindex]
          exact hstep _ _ h
        · rw [hindex]
          exact hdrop state oldest (by rw [hcons]; exact List.mem_cons_self) hnone h
      · exact h

/-- What is in the cache after an entry is retained was in it before, or is that entry. -/
theorem retainResultEntry_entries {session : Session} {entry entry' : OrderedResultEntry}
    (h : entry' ∈ (retainResultEntry session entry).orderedResults.entries) : entry' ∈ session.orderedResults.entries ∨ entry' = entry := by
  have hstep : ∀ s index, s.entries ⊆ (appendResultEntry session.orderedResults entry).entries →
      (removeResultEntry s index).entries ⊆ (appendResultEntry session.orderedResults entry).entries :=
    fun s index => List.Subset.trans (shrinks_removeResultEntry s index).entries.subset
  have happended := enforceResultByteLimit_keeps hstep _ (enforceResultSnapshotLimit_keeps hstep (fun _ _ _ _ hs => hs) _
    (enforceResultEntryLimit_keeps hstep _ (List.Subset.refl _))) h
  rcases List.mem_append.1 happended with h | h
  · exact Or.inl h
  · exact Or.inr (List.mem_singleton.1 h)

/-- Books kept, and some of the entries and snapshots of a cache: what every step of an eviction keeps. -/
structure Evicted (state state' : OrderedResultCache) : Prop where
  books : Bookkept state'
  shrinks : Shrinks state state'

theorem Evicted.removeResultEntry {state' : OrderedResultCache} (h : Evicted state state') (index : Nat) :
    Evicted state (removeResultEntry state' index) :=
  ⟨h.books.removeResultEntry index, h.shrinks.trans (shrinks_removeResultEntry state' index)⟩

/-- The entries that are left when an entry is retained, by the loops one after the other. -/
theorem evicted_retain (h : Bookkept state) (snapshot : OrderedResultSnapshot) (rounds : Nat) :
    Evicted state (enforceResultEntryLimit snapshot rounds state) ∧
      Evicted (enforceResultEntryLimit snapshot rounds state)
        (enforceResultSnapshotLimit rounds (enforceResultEntryLimit snapshot rounds state)) ∧
      Evicted (enforceResultSnapshotLimit rounds (enforceResultEntryLimit snapshot rounds state))
        (enforceResultByteLimit rounds (enforceResultSnapshotLimit rounds (enforceResultEntryLimit snapshot rounds state))) := by
  have hentries : Evicted state (enforceResultEntryLimit snapshot rounds state) :=
    @enforceResultEntryLimit_keeps state snapshot (Evicted state) (fun s index hs => hs.removeResultEntry index) rounds ⟨h, Shrinks.refl state⟩
  -- With the books kept, the oldest snapshot has an entry, so that eviction by snapshots removes entries alone.
  have hsnapshots := @enforceResultSnapshotLimit_keeps (enforceResultEntryLimit snapshot rounds state)
    (Evicted (enforceResultEntryLimit snapshot rounds state)) (fun s index hs => hs.removeResultEntry index)
    (fun s oldest holdest hnone hs => by
      obtain ⟨entry, hentry, heq⟩ := (hs.books.listed oldest).1 holdest
      exact absurd heq (hnone entry hentry)) rounds ⟨hentries.books, Shrinks.refl _⟩
  exact ⟨hentries, hsnapshots, @enforceResultByteLimit_keeps _ (Evicted _) (fun s index hs => hs.removeResultEntry index) rounds
    ⟨hsnapshots.books, Shrinks.refl _⟩⟩

/-- Retaining an entry keeps the books and leaves the limits met. -/
theorem bookkept_retainResultEntry {session : Session} (h : Bookkept session.orderedResults) (hlimits : WithinLimits session.orderedResults)
    (entry : OrderedResultEntry) :
    Bookkept (retainResultEntry session entry).orderedResults ∧ WithinLimits (retainResultEntry session entry).orderedResults ∧
      Shrinks (appendResultEntry session.orderedResults entry) (retainResultEntry session entry).orderedResults := by
  obtain ⟨h1, h2, h3⟩ := evicted_retain (h.appendResultEntry entry) entry.key.snapshot
    ((appendResultEntry session.orderedResults entry).entries.length + (appendResultEntry session.orderedResults entry).snapshots.length)
  have hshrinks := (h1.shrinks.trans h2.shrinks).trans h3.shrinks
  refine ⟨h3.books, ⟨fun s => ?_, ?_, ?_⟩, hshrinks⟩
  · by_cases hs : s = entry.key.snapshot
    · subst hs
      exact ((h2.shrinks.trans h3.shrinks).count_le _).trans (enforceResultEntryLimit_done (Nat.le_add_right _ _))
    · refine (hshrinks.count_le s).trans ?_
      have happend : snapshotEntryCount (appendResultEntry session.orderedResults entry).entries s =
          snapshotEntryCount session.orderedResults.entries s := by
        rw [appendResultEntry, snapshotEntryCount, List.countP_append, List.countP_singleton, if_neg (by simpa using hs), Nat.add_zero]
        rfl
      rw [happend]
      exact hlimits.perSnapshot s
  · refine h3.shrinks.snapshots.length_le.trans (enforceResultSnapshotLimit_done ?_)
    exact Nat.add_le_add h1.shrinks.entries.length_le h1.shrinks.snapshots.length_le
  · rcases enforceResultByteLimit_done ((h1.shrinks.trans h2.shrinks).entries.length_le.trans (Nat.le_add_right _ _)) with hbytes | hempty
    · exact hbytes
    · have hbytes := h3.books.bytes
      rw [hempty] at hbytes
      change (retainResultEntry session entry).orderedResults.bytes ≤ _
      refine (le_of_eq hbytes).trans ?_
      decide

end Books

end Fram
