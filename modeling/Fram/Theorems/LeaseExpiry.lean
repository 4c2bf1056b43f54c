import Fram.Lemmas.Requests
import Fram.Lemmas.SingleUpdate
import Fram.Theorems.LeasesAgree

/-!
# The reported expiry of a lease

The expiry of a lease is stored as milliseconds and reported as an Instant, whose seconds are a truncated quotient and whose nanoseconds
come from a floored remainder. The two agree on what is not negative, so on all that is granted. A lease that an ordinary commit stored
with a negative expiry of no whole seconds is reported as one second later than it is.
-/

namespace Fram

variable {i : Instant} {resource : Term} {spaceId : String} {frames : List TransactionFrame}

/-! ## Instants of milliseconds -/

/-- The instant is that of the milliseconds. -/
def Instant.Denotes (i : Instant) (ms : Int) : Prop := i.epochSeconds * 1000000000 + i.nanos = ms * 1000000

/-- The whole milliseconds of an instant. -/
def Instant.toMillis (i : Instant) : Int := i.epochSeconds * 1000 + (i.nanos / 1000000 : Nat)

/-- One instant is before the other. -/
def Instant.before (i j : Instant) : Prop := i.epochSeconds < j.epochSeconds ∨ i.epochSeconds = j.epochSeconds ∧ i.nanos < j.nanos

/-- An instant stands for milliseconds: it is that of them, it is converted back to them, and it comes after an instant exactly when they
are more than those of the instant. -/
structure Instant.ReadsAs (i : Instant) (ms : Int) : Prop where
  denotes : i.Denotes ms
  back : i.toMillis = ms
  decides : ∀ now at', Instant.Denotes at' now → (at'.before i ↔ now < ms)

theorem Instant.Denotes.readsAs {ms : Int} (h : i.Denotes ms) : i.ReadsAs ms := by
  have hi := i.canonical
  refine ⟨h, ?_, fun now j hj => ?_⟩
  · unfold Instant.Denotes at h
    unfold Instant.toMillis
    omega
  · have hj' := j.canonical
    unfold Instant.Denotes at h hj
    unfold Instant.before
    omega

/-- The instant of milliseconds is exact unless they are negative and no whole seconds. -/
theorem millisInstant_denotes_iff (ms : Int) : (Lease.millisInstant ms).Denotes ms ↔ 0 ≤ ms ∨ 1000 ∣ ms := by
  simp only [Instant.Denotes, Lease.millisInstant]
  by_cases h : 0 ≤ ms ∨ (1000 : Int) ∣ ms
  · rw [Int.tdiv_eq_ediv, if_pos h]
    simp only [h, iff_true]
    omega
  · rw [Int.tdiv_eq_ediv, if_neg h]
    simp only [h, iff_false]
    have hsign : Int.sign 1000 = 1 := rfl
    omega

namespace Lease

variable {Γ : Host} {session session' : Session} {request : RpcRequest} {response : RpcResponse} {now : Int}

theorem nonneg_of_validGrantInput {ttlMs : Int} (h : validGrantInput ttlMs now = true) : 0 ≤ now + ttlMs := by
  simp only [validGrantInput, Bool.and_eq_true, decide_eq_true_eq] at h
  omega

/-! ## What is stored -/

/-- The proposition that a commit asserts last is live after it, and the newest. -/
theorem newest_of_commit (h : SessionFor Γ session spaceId frames)
    {operations : List CommitOperation} {p : Triple} (hc : session.commit Γ (operations ++ [⟨.assert, p⟩]) = .ok session') :
    ∃ ps q, livePropositions Γ session'.store = .ok ps ∧ ps.getLast? = some q ∧ q.same p := by
  obtain ⟨ps, hps, hsame⟩ := (h.commit hc).1.represents.livePropositions
  have hlive : Reference.livePropositions (logOf (frames ++ [⟨session.store.nextSequence, operations ++ [⟨.assert, p⟩]⟩])) =
      Reference.livePropositions (logOf (frames ++ [⟨session.store.nextSequence, operations⟩])) ++ [p] := by
    simp only [Reference.livePropositions, reading, logOf_append, logOf_singleton, TransactionFrame.logged, loggedFrom_append,
      ← List.append_assoc, List.map_append]
    simp only [loggedFrom, List.map_cons, List.map_nil, History.run_concat]
    simp [History.step, LoggedOperation.op]
  rw [hlive] at hsame
  obtain ⟨hlen, hat⟩ := List.forall₂_iff_get.1 hsame
  rw [List.length_append, List.length_singleton] at hlen
  have hlast : ps.length - 1 < ps.length := by omega
  refine ⟨ps, ps[ps.length - 1], hps, by rw [List.getLast?_eq_getElem?, List.getElem?_eq_getElem hlast], ?_⟩
  simpa [hlen] using hat (ps.length - 1) hlast (by simp [hlen])

/-- The operations that grant a lease assert its proposition last. -/
theorem replacement_eq (prior : Option LeaseState) (resource holder : Term) (ms : Int) :
    ∃ operations, replacement prior resource holder ms = operations ++ [⟨.assert, leaseProposition resource holder ms⟩] := by
  cases prior with
  | none => exact ⟨[], rfl⟩
  | some prior => exact ⟨[⟨.retract, prior.proposition⟩], rfl⟩

/-- What the lease operations answer in a session reads as what is stored: the expiry of a grant as that of the lease proposition that is
the newest of the store then, and the expiry of a check as that of the lease it found, which decides whether the fence is valid. -/
structure ReportedAsStored (Γ : Host) (session : Session) : Prop where
  granted : ∀ request now session' response resource holder epoch i, dispatch Γ session request now = .ok (session', response) →
    response.payload = some (rpcRecord "lease/grant" [(fenceRecord resource holder epoch).term, .atom (.instant i)]).term →
    ∃ ms ps p, livePropositions Γ session'.store = .ok ps ∧ ps.getLast? = some p ∧ p.same (leaseProposition resource holder ms) ∧
      i.ReadsAs ms
  checked : ∀ request now session' response fence valid i, dispatch Γ session request now = .ok (session', response) →
    parseFence request.payload = .ok fence →
    response.payload = some (rpcRecord "lease/check" [.bool valid, rpcOption (some (.atom (.instant i)))]).term →
    session' = session ∧ ∃ lease, currentLease Γ session fence.resource = some lease ∧ i.ReadsAs lease.expiresMs ∧
      (valid = true ↔ now < lease.expiresMs)

/-- A lease that a fence can match: its holder is equal to itself. -/
def Matchable (Γ : Host) (session : Session) (resource : Term) (lease : LeaseState) : Prop :=
  currentLease Γ session resource = some lease ∧ lease.holder.eqv lease.holder = true

/-- A grant reads as the lease that is stored. -/
theorem granted_of_dispatch (h : SessionFor Γ session spaceId frames)
    (hd : dispatch Γ session request now = .ok (session', response)) {holder : Term} {epoch : Int}
    (hp : response.payload = some (rpcRecord "lease/grant" [(fenceRecord resource holder epoch).term, .atom (.instant i)]).term) :
    ∃ ms ps p, livePropositions Γ session'.store = .ok ps ∧ ps.getLast? = some p ∧ p.same (leaseProposition resource holder ms) ∧
      i.ReadsAs ms := by
  cases leaseDispatch_cases hd with
  | refused hnone =>
    rw [hnone] at hp
    cases hp
  | @granted resource' holder' ttlMs _ _ hvalid hcommit =>
    obtain ⟨⟨rfl, rfl, -⟩, rfl⟩ : (resource' = resource ∧ holder' = holder ∧ session.store.nextSequence = epoch) ∧
        millisInstant (now + ttlMs) = i := by
      simpa [Fram.response, grantRecord, fenceRecord, rpcRecord, rpcList, Triple.term, Term.int] using hp
    obtain ⟨operations, hoperations⟩ := replacement_eq (currentLease Γ session resource') resource' holder' (now + ttlMs)
    rw [hoperations] at hcommit
    obtain ⟨ps, p, hps, hlast, hsame⟩ := newest_of_commit h hcommit
    exact ⟨_, ps, p, hps, hlast, hsame, ((millisInstant_denotes_iff _).2 (.inl (nonneg_of_validGrantInput hvalid))).readsAs⟩
  | kept _ _ => simp [Fram.response, releasedRecord, rpcRecord, Triple.term, Term.kw] at hp
  | released _ _ _ => simp [Fram.response, releasedRecord, rpcRecord, Triple.term, Term.kw] at hp
  | checked =>
    unfold checkResponse at hp
    simp only at hp
    split at hp
    · cases hp
    · simp [checkRecord, rpcRecord, Triple.term, Term.kw, Fram.response] at hp

theorem held_iff {lease : LeaseState} : held (some lease) now = true ↔ now < lease.expiresMs := decide_eq_true_iff

/-- What a check answers of an expiry. -/
theorem checked_of_dispatch (hd : dispatch Γ session request now = .ok (session', response)) {fence : Fence}
    (hf : parseFence request.payload = .ok fence) {valid : Bool}
    (hp : response.payload = some (rpcRecord "lease/check" [.bool valid, rpcOption (some (.atom (.instant i)))]).term) :
    session' = session ∧ ∃ lease, Matchable Γ session fence.resource lease ∧ i = millisInstant lease.expiresMs ∧
      (valid = true ↔ now < lease.expiresMs) := by
  cases leaseDispatch_cases hd with
  | refused hnone =>
    rw [hnone] at hp
    cases hp
  | granted _ _ _ => simp [Fram.response, grantRecord, rpcRecord, Triple.term, Term.kw] at hp
  | kept _ _ => simp [Fram.response, releasedRecord, rpcRecord, Triple.term, Term.kw] at hp
  | released _ _ _ => simp [Fram.response, releasedRecord, rpcRecord, Triple.term, Term.kw] at hp
  | checked =>
    refine ⟨rfl, ?_⟩
    unfold checkResponse at hp
    simp only [hf] at hp
    cases hl : currentLease Γ session fence.resource with
    | none => simp [hl, matchingExpiry, checkRecord, rpcRecord, rpcList, rpcOption, Triple.term, Fram.response, Term.kw] at hp
    | some lease =>
      cases hm : matchingFence (some lease) fence with
      | false => simp [hl, matchingExpiry, hm, checkRecord, rpcRecord, rpcList, rpcOption, Triple.term, Fram.response, Term.kw] at hp
      | true =>
        obtain ⟨hvalid, rfl⟩ : held (some lease) now = valid ∧ millisInstant lease.expiresMs = i := by
          simpa [hl, matchingExpiry, hm, checkRecord, rpcRecord, rpcList, rpcOption, Triple.term, Fram.response, Term.bool] using hp
        simp only [matchingFence, Bool.and_eq_true] at hm
        refine ⟨lease, ⟨hl, Term.eqv_trans hm.2.1 (Term.eqv_symm hm.2.1)⟩, rfl, ?_⟩
        rw [← hvalid, held_iff]

/-- The check of a lease that a fence can match reports its expiry. -/
theorem exists_check (h : SessionFor Γ session spaceId frames) {lease : LeaseState} (hm : Matchable Γ session resource lease) :
    ∃ request response, dispatch Γ session request 0 = .ok (session, response) ∧
      parseFence request.payload = .ok ⟨resource, lease.holder, lease.epoch⟩ ∧
      response.payload = some (rpcRecord "lease/check" [.bool (decide (0 < lease.expiresMs)),
        rpcOption (some (.atom (.instant (millisInstant lease.expiresMs))))]).term := by
  have hfence : parseFence (fenceRecord resource lease.holder lease.epoch).term = .ok ⟨resource, lease.holder, lease.epoch⟩ := by
    have hread : readRecord (fenceRecord resource lease.holder lease.epoch).term "rpc/fence" 3 =
        .ok [resource, lease.holder, .int lease.epoch] :=
      readRecord_rpcRecord "rpc/fence" [resource, lease.holder, .int lease.epoch] (by simp [maxListValues])
    simp only [parseFence, hread]
    rfl
  have hmatching : matchingFence (some lease) ⟨resource, lease.holder, lease.epoch⟩ = true := by
    obtain ⟨known, -, hrel⟩ := h.sameLease resource
    rw [hm.1] at hrel
    cases hrel with
    | some hsame => simp [matchingFence, Term.eqv_symm hsame.1, hm.2]
  refine ⟨⟨session.store.spaceId, ⟨"rpc/lease-check"⟩, none, none, none, (fenceRecord resource lease.holder lease.epoch).term⟩,
    checkResponse Γ session ⟨session.store.spaceId, ⟨"rpc/lease-check"⟩, none, none, none,
      (fenceRecord resource lease.holder lease.epoch).term⟩ 0, ?_, hfence, ?_⟩
  · simp [dispatch, expectedVersionMatches, versionConflict]
  · have hheld : held (some lease) 0 = decide (0 < lease.expiresMs) := by
      rw [Bool.eq_iff_iff, held_iff, decide_eq_true_eq]
    simp [checkResponse, hfence, hm.1, matchingExpiry, hmatching, Fram.response, checkRecord, hheld]

/-- **A reported expiry reads as the stored one** in exactly the sessions where no lease that a fence can match has a negative expiry of
no whole seconds. -/
theorem lease_expiry_reported {Γ : Host} {session : Session} (h : LeaseSession Γ session) :
    ReportedAsStored Γ session ↔ ∀ resource lease, Matchable Γ session resource lease → 0 ≤ lease.expiresMs ∨ 1000 ∣ lease.expiresMs := by
  obtain ⟨spaceId, frames, hfor⟩ := h.sessionFor
  constructor
  · intro hreported resource lease hm
    obtain ⟨request, response, hd, hf, hp⟩ := exists_check hfor hm
    obtain ⟨-, found, hfound, hreads, -⟩ := hreported.checked request 0 session response _ _ _ hd hf hp
    rw [hm.1] at hfound
    cases hfound
    exact (millisInstant_denotes_iff _).1 hreads.denotes
  · intro hall
    refine ⟨fun request now session' response resource holder epoch i hd hp => granted_of_dispatch hfor hd hp,
      fun request now session' response fence valid i hd hf hp => ?_⟩
    obtain ⟨hsession, lease, hm, rfl, hvalid⟩ := checked_of_dispatch hd hf hp
    exact ⟨hsession, lease, hm.1, ((millisInstant_denotes_iff _).2 (hall _ lease hm)).readsAs, hvalid⟩

/-- A new session in which a lease was committed. -/
def heldSession (expiresMs : Int) : Except Fault Session := do
  let s ← newTermStoreSized "s" 0 0 0
  let session ← newSession Host.zero s
  session.commit Host.zero [⟨.assert, leaseProposition (.int 1) (.str "a") expiresMs⟩]

theorem leaseSession_heldSession {expiresMs : Int} (h : heldSession expiresMs = .ok session) : LeaseSession Host.zero session := by
  simp only [heldSession, ExceptList.bind_eq_ok_iff] at h
  obtain ⟨s, hs, session', hsession, hcommit⟩ := h
  exact .commit (.fresh hs hsession) hcommit

/-- A lease of a second and a half. -/
theorem lease_expiry_reported_one : ∃ session, heldSession 1500 = .ok session ∧ (ReportedAsStored Host.zero session ↔
    ∀ resource lease, Matchable Host.zero session resource lease → 0 ≤ lease.expiresMs ∨ 1000 ∣ lease.expiresMs) := by
  obtain ⟨session, h⟩ : ∃ session, heldSession 1500 = .ok session := ⟨_, rfl⟩
  exact ⟨session, h, lease_expiry_reported (leaseSession_heldSession h)⟩

/-- **A lease of the millisecond before the epoch is reported as one of 999 milliseconds after it.** -/
theorem lease_expiry_apart : ∃ session lease, heldSession (-1) = .ok session ∧ LeaseSession Host.zero session ∧
    Matchable Host.zero session (.int 1) lease ∧ lease.expiresMs = -1 ∧ (millisInstant lease.expiresMs).toMillis = 999 ∧
    ¬ReportedAsStored Host.zero session := by
  have hfound : ((heldSession (-1)).toOption.bind (currentLease Host.zero · (.int 1))).map
      (fun lease => (lease.holder.eqv lease.holder, lease.expiresMs)) = some (true, -1) := by with_unfolding_all decide
  obtain ⟨session, hheld⟩ : ∃ session, heldSession (-1) = .ok session := ⟨_, rfl⟩
  rw [hheld] at hfound
  obtain ⟨lease, hlease, hpair⟩ := Option.map_eq_some_iff.1 hfound
  obtain ⟨hself, hms⟩ := Prod.mk.injEq _ _ _ _ ▸ hpair
  have hm : Matchable Host.zero session (.int 1) lease := ⟨hlease, hself⟩
  have hmillis : (millisInstant lease.expiresMs).toMillis = 999 := by
    rw [hms]
    rfl
  refine ⟨session, lease, hheld, leaseSession_heldSession hheld, hm, hms, hmillis, fun hreported => ?_⟩
  obtain ⟨spaceId, frames, hfor⟩ := (leaseSession_heldSession hheld).sessionFor
  obtain ⟨request, response, hd, hf, hp⟩ := exists_check hfor hm
  obtain ⟨-, found, hfound, hreads, -⟩ := hreported.checked request 0 session response _ _ _ hd hf hp
  rw [hm.1] at hfound
  cases hfound
  rw [hreads.back, hms] at hmillis
  cases hmillis

end Lease

end Fram
