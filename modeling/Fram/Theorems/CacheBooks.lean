import Fram.Lemmas.QueryRuns

/-!
# The books of the cache over a run

A run looks results up, retains results and has the store change below it, in any order. A key occurs once as long as a result is
retained only under a key that the cache has not; each of the three responders makes sure of that by a lookup (`RetainsAfterMiss`).
-/

namespace Fram

open ExceptList (bind_eq_ok_iff)

/-- What is done to a session with its cache. -/
inductive CacheAct where
  | lookup (key : OrderedResultKey)
  | retain (entry : OrderedResultEntry)
  | turn (store : TermStore) (view : Rotation)

/-- One act on a session. -/
def cacheAct (session : Session) : CacheAct → Session
  | .lookup key => (resultCacheLookup session key).1
  | .retain entry => retainResultEntry session entry
  | .turn store view => { session with store := store, view := view }

/-- Acts one after the other. -/
def cacheRun (session : Session) (acts : List CacheAct) : Session := acts.foldl cacheAct session

/-- Each result is retained under a key that the cache has not at the time. -/
def RetainsMissing (session : Session) (acts : List CacheAct) : Prop :=
  ∀ before entry after, acts = before ++ .retain entry :: after →
    entry.key ∉ (cacheRun session before).orderedResults.entries.map (·.key)

/-- The books and the limits. -/
structure InOrder (state : OrderedResultCache) : Prop where
  books : Bookkept state
  limits : WithinLimits state

/-- A new session has an empty cache. -/
theorem orderedResults_newSession {Γ : Host} {s : TermStore} {session : Session} (h : newSession Γ s = .ok session) :
    session.orderedResults = emptyOrderedResultCache := by
  unfold newSession at h
  obtain ⟨view, -, h⟩ := bind_eq_ok_iff.1 h
  cases h
  rfl

theorem inOrder_empty : InOrder emptyOrderedResultCache :=
  ⟨⟨rfl, fun snapshot => by simp [emptyOrderedResultCache], List.nodup_nil⟩,
    ⟨fun snapshot => Nat.zero_le _, Nat.zero_le _, by decide⟩⟩

/-- A lookup arranges the entries and the snapshots anew, if it changes them. -/
theorem resultCacheLookup_arranges (session : Session) (key : OrderedResultKey) :
    ((resultCacheLookup session key).1.orderedResults.entries = session.orderedResults.entries ∧
      (resultCacheLookup session key).1.orderedResults.snapshots = session.orderedResults.snapshots ∧
      (resultCacheLookup session key).1.orderedResults.bytes = session.orderedResults.bytes) ∨
    ∃ index entry, session.orderedResults.entries[index]? = some entry ∧
      (resultCacheLookup session key).1.orderedResults.entries = (touchResultEntry session.orderedResults index entry).entries ∧
      (resultCacheLookup session key).1.orderedResults.snapshots = (touchResultEntry session.orderedResults index entry).snapshots ∧
      (resultCacheLookup session key).1.orderedResults.bytes = (touchResultEntry session.orderedResults index entry).bytes := by
  unfold resultCacheLookup
  dsimp only
  cases resultEntryIndex session.orderedResults.entries key with
  | none => exact Or.inl ⟨rfl, rfl, rfl⟩
  | some index =>
    dsimp only
    cases hentry : session.orderedResults.entries[index]? with
    | none => exact Or.inl ⟨rfl, rfl, rfl⟩
    | some entry => exact Or.inr ⟨index, entry, hentry, rfl, rfl, rfl⟩

/-- The books and the limits are about the entries, the snapshots and the bytes alone. -/
theorem InOrder.congr {state state' : OrderedResultCache} (h : InOrder state) (hentries : state'.entries = state.entries)
    (hsnapshots : state'.snapshots = state.snapshots) (hbytes : state'.bytes = state.bytes) : InOrder state' := by
  obtain ⟨⟨h1, h2, h3⟩, h4, h5, h6⟩ := h
  refine ⟨⟨?_, ?_, ?_⟩, ?_, ?_, ?_⟩
  · rwa [hbytes, hentries]
  · rwa [hsnapshots, hentries]
  · rwa [hsnapshots]
  · rwa [hentries]
  · rwa [hsnapshots]
  · rwa [hbytes]

theorem InOrder.touch {state : OrderedResultCache} (h : InOrder state) {index : Nat} {entry : OrderedResultEntry}
    (hentry : state.entries[index]? = some entry) : InOrder (touchResultEntry state index entry) := by
  have hbooks := h.books.touchResultEntry hentry
  have hperm : (touchResultEntry state index entry).entries.Perm state.entries :=
    (List.perm_append_singleton entry _).trans (cons_eraseIdx_perm hentry)
  refine ⟨hbooks, fun s => ?_, ?_, h.limits.bytes⟩
  · rw [snapshotEntryCount, hperm.countP_eq]
    exact h.limits.perSnapshot s
  · have hsame : (touchResultEntry state index entry).snapshots.Perm state.snapshots := by
      rw [List.perm_ext_iff_of_nodup hbooks.once h.books.once]
      intro s
      rw [hbooks.listed, h.books.listed]
      simp only [hperm.mem_iff]
    rw [hsame.length_eq]
    exact h.limits.snapshots

/-- Every act keeps the cache in order. -/
theorem inOrder_cacheAct {session : Session} (h : InOrder session.orderedResults) (act : CacheAct) :
    InOrder (cacheAct session act).orderedResults := by
  cases act with
  | lookup key =>
    rcases resultCacheLookup_arranges session key with ⟨h1, h2, h3⟩ | ⟨index, entry, hentry, h1, h2, h3⟩
    · exact h.congr h1 h2 h3
    · exact (h.touch hentry).congr h1 h2 h3
  | retain entry =>
    obtain ⟨hbooks, hlimits, -⟩ := bookkept_retainResultEntry h.books h.limits entry
    exact ⟨hbooks, hlimits⟩
  | turn store view => exact h

theorem inOrder_cacheRun {session : Session} (h : InOrder session.orderedResults) (acts : List CacheAct) :
    InOrder (cacheRun session acts).orderedResults := by
  induction acts generalizing session with
  | nil => exact h
  | cons act acts ih => exact ih (inOrder_cacheAct h act)

/-- An act that retains under a missing key, or retains nothing, leaves every key once. -/
theorem nodup_cacheAct {session : Session} (hinOrder : InOrder session.orderedResults)
    (h : (session.orderedResults.entries.map (·.key)).Nodup) {act : CacheAct}
    (hmissing : ∀ entry, act = .retain entry → entry.key ∉ session.orderedResults.entries.map (·.key)) :
    ((cacheAct session act).orderedResults.entries.map (·.key)).Nodup := by
  cases act with
  | lookup key =>
    rcases resultCacheLookup_arranges session key with ⟨h1, -, -⟩ | ⟨index, entry, hentry, h1, -, -⟩
    · change ((resultCacheLookup session key).1.orderedResults.entries.map (·.key)).Nodup
      rwa [h1]
    · change ((resultCacheLookup session key).1.orderedResults.entries.map (·.key)).Nodup
      rw [h1]
      have hperm : (touchResultEntry session.orderedResults index entry).entries.Perm session.orderedResults.entries :=
        (List.perm_append_singleton entry _).trans (cons_eraseIdx_perm hentry)
      exact (hperm.map _).nodup_iff.2 h
  | retain entry =>
    obtain ⟨-, -, hshrinks⟩ := bookkept_retainResultEntry hinOrder.books hinOrder.limits entry
    refine (hshrinks.entries.map _).nodup ?_
    rw [appendResultEntry, List.map_append, List.map_singleton, List.nodup_append]
    refine ⟨h, List.nodup_singleton _, fun a ha b hb heq => hmissing entry rfl ?_⟩
    rw [List.mem_singleton.1 hb] at heq
    rwa [heq] at ha
  | turn store view => exact h

theorem nodup_cacheRun {session : Session} (hinOrder : InOrder session.orderedResults)
    (h : (session.orderedResults.entries.map (·.key)).Nodup) {acts : List CacheAct} (hmissing : RetainsMissing session acts) :
    ((cacheRun session acts).orderedResults.entries.map (·.key)).Nodup := by
  induction acts generalizing session with
  | nil => exact h
  | cons act acts ih =>
    refine ih (inOrder_cacheAct hinOrder act) (nodup_cacheAct hinOrder h fun entry he => ?_) fun before entry after he => ?_
    · exact hmissing [] entry acts (by rw [he]; rfl)
    · exact hmissing (act :: before) entry after (by rw [he]; rfl)

/-- The key under which an act retains a result. -/
def CacheAct.retained : CacheAct → Option OrderedResultKey
  | .retain entry => some entry.key
  | _ => none

/-- A key of the cache was there before, or a result was retained under it. -/
theorem mem_keys_cacheRun {session : Session} {acts : List CacheAct} {key : OrderedResultKey}
    (h : key ∈ (cacheRun session acts).orderedResults.entries.map (·.key)) :
    key ∈ session.orderedResults.entries.map (·.key) ∨ key ∈ acts.filterMap CacheAct.retained := by
  induction acts generalizing session with
  | nil => exact Or.inl h
  | cons act acts ih =>
    rcases ih h with hnow | hlater
    · obtain ⟨entry, hentry, rfl⟩ := List.mem_map.1 hnow
      cases act with
      | lookup key => exact Or.inl (List.mem_map_of_mem ((resultCacheLookup_spec session key).2.2.1 hentry))
      | retain kept =>
        rcases retainResultEntry_entries hentry with hold | rfl
        · exact Or.inl (List.mem_map_of_mem hold)
        · exact Or.inr (List.mem_cons_self ..)
      | turn store view => exact Or.inl (List.mem_map_of_mem hentry)
    · rw [List.filterMap_cons]
      cases act with
      | retain kept => exact Or.inr (List.mem_cons_of_mem kept.key hlater)
      | lookup key => exact Or.inr hlater
      | turn store view => exact Or.inr hlater

/-- On an empty cache, results retained under keys of their own are retained under keys that it has not. -/
theorem retainsMissing_of_nodup {session : Session} (hempty : session.orderedResults = emptyOrderedResultCache)
    {acts : List CacheAct} (h : (acts.filterMap CacheAct.retained).Nodup) : RetainsMissing session acts := by
  rintro before entry after rfl hmem
  rcases mem_keys_cacheRun hmem with hold | hbefore
  · rw [hempty] at hold
    exact absurd hold List.not_mem_nil
  · rw [List.filterMap_append, List.nodup_append] at h
    exact h.2.2 entry.key hbefore entry.key (by simp [CacheAct.retained]) rfl

/-! ## The responders -/

/-- What is done to the cache is acts that retain a result only under a key that the cache has not. -/
def RetainsAfterMiss (session session' : Session) : Prop :=
  ∃ acts, RetainsMissing session acts ∧ session'.orderedResults = (cacheRun session acts).orderedResults

section Responders

variable {Γ : Host} {session session' : Session} {key : OrderedResultKey} {request : RpcRequest} {answer : RpcResponse}

theorem RetainsAfterMiss.refl (session : Session) : RetainsAfterMiss session session :=
  ⟨[], fun before entry after he => by simp at he, rfl⟩

theorem RetainsAfterMiss.lookup {found : Option OrderedResultEntry} (h : resultCacheLookup session key = (session', found)) :
    RetainsAfterMiss session session' := by
  refine ⟨[.lookup key], fun before entry after he => ?_, by rw [cacheRun, List.foldl_cons, List.foldl_nil, cacheAct, h]⟩
  rcases before with _ | ⟨act, _ | _⟩ <;> simp at he

/-- A lookup that finds nothing leaves a cache that has not the key. -/
theorem notMem_of_missed (h : resultCacheLookup session key = (session', none)) : key ∉ session'.orderedResults.entries.map (·.key) := by
  unfold resultCacheLookup at h
  dsimp only at h
  cases hi : resultEntryIndex session.orderedResults.entries key with
  | none =>
    rw [hi] at h
    cases h
    intro hmem
    obtain ⟨entry, hentry, rfl⟩ := List.mem_map.1 hmem
    have hnone := List.findIdx?_eq_none_iff.1 hi entry hentry
    simp at hnone
  | some index =>
    obtain ⟨hlt, -⟩ := List.findIdx?_eq_some_iff_getElem.1 hi
    rw [hi] at h
    dsimp only at h
    rw [List.getElem?_eq_getElem hlt] at h
    cases h

theorem RetainsAfterMiss.retain (h : resultCacheLookup session key = (session', none)) {entry : OrderedResultEntry}
    (hkey : entry.key = key) : RetainsAfterMiss session (retainResultEntry session' entry) := by
  refine ⟨[.lookup key, .retain entry], fun before entry' after he => ?_, by simp only [cacheRun, List.foldl_cons, List.foldl_nil, cacheAct, h]⟩
  rcases before with _ | ⟨act, _ | ⟨act', before⟩⟩
  · simp at he
  · obtain ⟨rfl, rfl, -⟩ : CacheAct.lookup key = act ∧ entry = entry' ∧ after = [] := by simpa [eq_comm] using he
    rw [hkey]
    change key ∉ (resultCacheLookup session key).1.orderedResults.entries.map (·.key)
    rw [h]
    exact notMem_of_missed h
  · simp at he

theorem Touches.retainsAfterMiss {operation : Keyword} (h : Touches operation session session') : RetainsAfterMiss session session' := by
  cases h with
  | same => exact .refl _
  | lookup h => exact .lookup h
  | retain h hkey _ => exact .retain h hkey

/-- A scan, a query or a read of the occurrences is answered. -/
inductive Responds (Γ : Host) (session session' : Session) : Prop
  | scan {R : Reads} {request : RpcRequest} {currentVersion : Int} {answer : RpcResponse}
      (h : Dispatch.scanResponse Γ R session request currentVersion = .ok (session', answer)) : Responds Γ session session'
  | query {H : QueryOps.ReadHost} {request : RpcRequest} {answer : RpcResponse}
      (h : QueryOps.queryResponse Γ H session request = .ok (session', answer)) : Responds Γ session session'
  | occurrences {H : QueryOps.ReadHost} {request : RpcRequest} {answer : RpcResponse}
      (h : QueryOps.occurrencesResponse Γ H session request = .ok (session', answer)) : Responds Γ session session'

theorem Responds.retainsAfterMiss (h : Responds Γ session session') : RetainsAfterMiss session session' := by
  cases h with
  | scan h => exact (scanResponse_touches h).retainsAfterMiss
  | query h => exact (QueryOps.queryResponse_touches h).retainsAfterMiss
  | occurrences h => exact (QueryOps.occurrencesResponse_touches h).retainsAfterMiss

end Responders

/-! ## The rounds -/

section Rounds

variable {state : OrderedResultCache} {snapshot : OrderedResultSnapshot} {fuel more : Nat}

/-- More rounds than there are entries change nothing. -/
theorem enforceResultEntryLimit_more (h : state.entries.length ≤ fuel) :
    enforceResultEntryLimit snapshot (fuel + more) state = enforceResultEntryLimit snapshot fuel state := by
  induction fuel generalizing state with
  | zero =>
    have hnil := List.eq_nil_of_length_eq_zero (Nat.le_zero.1 h)
    cases more with
    | zero => rfl
    | succ more =>
      rw [Nat.zero_add, enforceResultEntryLimit, enforceResultEntryLimit, hnil]
      exact if_neg (Nat.not_lt_zero _)
  | succ fuel ih =>
    rw [Nat.add_right_comm, enforceResultEntryLimit, enforceResultEntryLimit]
    rcases firstSnapshotEntryIndex_cases state.entries snapshot with ⟨index, hindex, hlt⟩ | ⟨hindex, -⟩
    · rw [hindex]
      dsimp only
      rw [ih (by have := length_removeResultEntry hlt; omega)]
    · rw [hindex]

theorem enforceResultSnapshotLimit_more (h : state.entries.length + state.snapshots.length ≤ fuel) :
    enforceResultSnapshotLimit (fuel + more) state = enforceResultSnapshotLimit fuel state := by
  induction fuel generalizing state with
  | zero =>
    have hnil : state.snapshots = [] := List.eq_nil_of_length_eq_zero (by omega)
    cases more with
    | zero => rfl
    | succ more =>
      rw [Nat.zero_add, enforceResultSnapshotLimit, enforceResultSnapshotLimit, hnil]
  | succ fuel ih =>
    rw [Nat.add_right_comm, enforceResultSnapshotLimit, enforceResultSnapshotLimit]
    cases hcons : state.snapshots with
    | nil => rfl
    | cons first rest =>
      dsimp only
      rw [ih]
      rcases snapshotRound_lt hcons with ⟨index, hindex, hlt⟩ | ⟨hindex, hlt⟩
      · rw [hindex]
        dsimp only
        omega
      · rw [hindex]
        rw [hcons] at h hlt
        dsimp only
        omega

theorem enforceResultByteLimit_more (h : state.entries.length ≤ fuel) :
    enforceResultByteLimit (fuel + more) state = enforceResultByteLimit fuel state := by
  induction fuel generalizing state with
  | zero =>
    have hnil := List.eq_nil_of_length_eq_zero (Nat.le_zero.1 h)
    cases more with
    | zero => rfl
    | succ more =>
      rw [Nat.zero_add, enforceResultByteLimit, enforceResultByteLimit]
      exact if_neg fun hover => hover.2 hnil
  | succ fuel ih =>
    rw [Nat.add_right_comm, enforceResultByteLimit, enforceResultByteLimit]
    by_cases hover : resultCacheByteLimit < state.bytes ∧ state.entries ≠ []
    · rw [if_pos hover, if_pos hover, ih]
      have := length_removeResultEntry (List.length_pos_of_ne_nil hover.2)
      omega
    · rw [if_neg hover, if_neg hover]

end Rounds

/-- The loops that evict end: with as many rounds as entries and snapshots the limit of each is met, and more rounds change nothing. -/
structure LoopsEnd (state : OrderedResultCache) (snapshot : OrderedResultSnapshot) (rounds : Nat) : Prop where
  entries : snapshotEntryCount (enforceResultEntryLimit snapshot rounds state).entries snapshot ≤ resultCachePerSnapshotLimit ∧
    ∀ more, enforceResultEntryLimit snapshot (rounds + more) state = enforceResultEntryLimit snapshot rounds state
  snapshots : (enforceResultSnapshotLimit rounds state).snapshots.length ≤ resultCacheSnapshotLimit ∧
    ∀ more, enforceResultSnapshotLimit (rounds + more) state = enforceResultSnapshotLimit rounds state
  bytes : ((enforceResultByteLimit rounds state).bytes ≤ resultCacheByteLimit ∨ (enforceResultByteLimit rounds state).entries = []) ∧
    ∀ more, enforceResultByteLimit (rounds + more) state = enforceResultByteLimit rounds state

theorem loopsEnd (state : OrderedResultCache) (snapshot : OrderedResultSnapshot) {rounds : Nat}
    (h : state.entries.length + state.snapshots.length ≤ rounds) : LoopsEnd state snapshot rounds := by
  have hentries : state.entries.length ≤ rounds := (Nat.le_add_right _ _).trans h
  exact ⟨⟨enforceResultEntryLimit_done hentries, fun more => enforceResultEntryLimit_more hentries⟩,
    ⟨enforceResultSnapshotLimit_done h, fun more => enforceResultSnapshotLimit_more h⟩,
    ⟨enforceResultByteLimit_done hentries, fun more => enforceResultByteLimit_more hentries⟩⟩

/-- **The books of the cache.** After any acts on a new session the total of the bytes is the sum over the entries, the snapshots listed are
those of the entries, each once, and the three limits hold. When each result was retained under a key that the cache had not, no key
occurs twice; the responders that retain results do so, and so they leave a cache that is in order, and its keys each once, as they
found it. And the loops that evict end from every state. -/
theorem cache_bookkeeping (Γ : Host) {s : TermStore} {session : Session} (h : newSession Γ s = .ok session) (acts : List CacheAct) :
    Bookkept (cacheRun session acts).orderedResults ∧ WithinLimits (cacheRun session acts).orderedResults ∧
      (RetainsMissing session acts → ((cacheRun session acts).orderedResults.entries.map (·.key)).Nodup) ∧
      (∀ before after, Responds Γ before after → RetainsAfterMiss before after ∧
        (InOrder before.orderedResults → (before.orderedResults.entries.map (·.key)).Nodup →
          InOrder after.orderedResults ∧ (after.orderedResults.entries.map (·.key)).Nodup)) ∧
      ∀ state snapshot rounds, state.entries.length + state.snapshots.length ≤ rounds → LoopsEnd state snapshot rounds := by
  have hempty := orderedResults_newSession h
  have hinOrder : InOrder session.orderedResults := hempty ▸ inOrder_empty
  obtain ⟨hbooks, hlimits⟩ := inOrder_cacheRun hinOrder acts
  refine ⟨hbooks, hlimits, fun hmissing => nodup_cacheRun hinOrder ?_ hmissing, fun before after hresponds => ?_,
    fun state snapshot rounds hrounds => loopsEnd state snapshot hrounds⟩
  · rw [hempty]
    exact List.nodup_nil
  · have hretains := hresponds.retainsAfterMiss
    refine ⟨hretains, fun hbefore hnodup => ?_⟩
    obtain ⟨acts', hmissing, hafter⟩ := hretains
    rw [hafter]
    exact ⟨inOrder_cacheRun hbefore acts', nodup_cacheRun hbefore hnodup hmissing⟩

/-- An entry without rows, under a key with this digest. -/
def emptyEntry (digest : String) : OrderedResultEntry := ⟨⟨⟨"s", 0, -1⟩, ⟨"rpc/scan"⟩, digest⟩, [], [], 32⟩

/-- Nine results retained in one snapshot, the first one looked up before the last. -/
def nineResults : List CacheAct :=
  ["a", "b", "c", "d", "e", "f", "g", "h"].map (fun digest => .retain (emptyEntry digest)) ++
    [.lookup (emptyEntry "a").key, .retain (emptyEntry "i")]

/-- The digests of the results that are left of the nine, and how many were evicted. -/
def nineLeft : Except Fault (List String × Int) := do
  let s ← newTermStoreSized "s" 0 0 0
  let session ← newSession Host.zero s
  let state := (cacheRun session nineResults).orderedResults
  .ok (state.entries.map (·.key.digest), state.evictions)

/-- Of nine results in one snapshot the one that was used the longest ago is evicted. -/
theorem cache_bookkeeping_nine : ∃ s session, newTermStoreSized "s" 0 0 0 = .ok s ∧ newSession Host.zero s = .ok session ∧
    Bookkept (cacheRun session nineResults).orderedResults ∧ WithinLimits (cacheRun session nineResults).orderedResults ∧
    ((cacheRun session nineResults).orderedResults.entries.map (·.key)).Nodup ∧
    (cacheRun session nineResults).orderedResults.entries.map (·.key.digest) = ["c", "d", "e", "f", "g", "h", "a", "i"] ∧
    (cacheRun session nineResults).orderedResults.evictions = 1 := by
  have hleft : nineLeft = .ok (["c", "d", "e", "f", "g", "h", "a", "i"], 1) := by decide +kernel
  obtain ⟨s, hs, hleft⟩ := bind_eq_ok_iff.1 hleft
  obtain ⟨session, hsession, hleft⟩ := bind_eq_ok_iff.1 hleft
  obtain ⟨hbooks, hlimits, hkeys, -⟩ := cache_bookkeeping Host.zero hsession nineResults
  have hapart : (nineResults.filterMap CacheAct.retained).Nodup := by decide
  have hmissing := retainsMissing_of_nodup (orderedResults_newSession hsession) hapart
  simp only [Except.ok.injEq, Prod.mk.injEq] at hleft
  exact ⟨s, session, hs, hsession, hbooks, hlimits, hkeys hmissing, hleft⟩

/-- A result retained twice under one key leaves the key twice. -/
theorem cache_key_twice : ∃ s session, newTermStoreSized "s" 0 0 0 = .ok s ∧ newSession Host.zero s = .ok session ∧
    ¬((cacheRun session [.retain (emptyEntry "a"), .retain (emptyEntry "a")]).orderedResults.entries.map (·.key)).Nodup := by
  obtain ⟨s, hs⟩ : ∃ s, newTermStoreSized "s" 0 0 0 = .ok s := ⟨_, rfl⟩
  obtain ⟨session, hsession, -⟩ := newSession_ok (represents_newTermStoreSized Host.zero hs).1
  refine ⟨s, session, hs, hsession, ?_⟩
  have hempty := orderedResults_newSession hsession
  have hrun : (cacheRun session [.retain (emptyEntry "a"), .retain (emptyEntry "a")]).orderedResults.entries = [emptyEntry "a", emptyEntry "a"] := by
    simp only [cacheRun, List.foldl_cons, List.foldl_nil, cacheAct, retainResultEntry, markDerivedChange, hempty]
    decide
  rw [hrun]
  decide

end Fram
