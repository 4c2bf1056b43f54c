import Fram.Lemmas.EventAt
import Fram.Lemmas.Server
import Fram.Lemmas.Paging

/-!
# The two lease lookups agree

The dispatcher finds the lease of a resource by a walk of the live occurrences of the store, the lease operations by the leaf of the
resource in the rotation of the session. Both take the newest lease of the resource, so a fence is judged at commit time against the
lease that is acquired and renewed.
-/

namespace Fram

variable {event : OperationOccurrence} {holder : Term} {expiresMs : Int}

/-- The sessions that leases are looked up in: those of new stores and of booted ones, after any commits, with any cache. -/
inductive LeaseSession (Γ : Host) : Session → Prop where
  | fresh {spaceId : String} {a t b : Nat} {s : TermStore} {session : Session} (h : newTermStoreSized spaceId a t b = .ok s)
    (hs : newSession Γ s = .ok session) : LeaseSession Γ session
  | boot {path configured : String} {bytes image : Bytes} {result : StoreResult} {store : Store} (hsize : bytes.length < 2 ^ 62)
    (hi : Imaged Γ configured bytes image) (hb : bootStore Γ path configured bytes image = .ok result)
    (hs : result.store = .ok store) : LeaseSession Γ store.session
  | commit {session session' : Session} {operations : List CommitOperation} (h : LeaseSession Γ session)
    (hc : session.commit Γ operations = .ok session') : LeaseSession Γ session'
  | recache {session : Session} (h : LeaseSession Γ session) (cache : OrderedResultCache) (generation : Int) :
    LeaseSession Γ { session with orderedResults := cache, derivedGeneration := generation }

/-- The lease that the dispatcher found and the one that the lease operations found are one lease of the resource. -/
def SameLease (resource : Term) (known : Dispatch.LeaseState) (current : Lease.LeaseState) : Prop :=
  resource.eqv current.resource = true ∧ known.holder.same current.holder ∧ known.expiresMs = current.expiresMs ∧
    known.epoch = current.epoch

section Leases

variable {Γ : Host} {session : Session} {resource : Term}

/-- A session that leases are looked up in has the history of its store. -/
theorem LeaseSession.sessionFor (h : LeaseSession Γ session) : ∃ spaceId frames, SessionFor Γ session spaceId frames := by
  induction h with
  | fresh h hs =>
    obtain ⟨hrep, -⟩ := represents_runActs (Γ := Γ) h []
    obtain ⟨session', hs', -, hfor⟩ := newSession_ok hrep
    cases hs.symm.trans hs'
    exact ⟨_, _, hfor⟩
  | @boot path _ _ _ _ _ hsize hi hb hs =>
    have hboots := hi.bootsTo hsize [] path
    rw [List.append_nil, hb] at hboots
    obtain ⟨spaceId, frames, -, hfor⟩ := hboots.store hs
    exact ⟨spaceId, frames, hfor.toSessionFor⟩
  | commit _ hc ih =>
    obtain ⟨spaceId, frames, hfor⟩ := ih
    exact ⟨spaceId, _, (hfor.commit hc).1⟩
  | recache _ cache generation ih =>
    obtain ⟨spaceId, frames, hfor⟩ := ih
    exact ⟨spaceId, frames, hfor.represents, hfor.space, hfor.covers⟩

/-- The live occurrences of a session's store, and its rotation's answers for them. -/
theorem SessionFor.live {spaceId : String} {frames : List TransactionFrame} (h : SessionFor Γ session spaceId frames) :
    ∃ live, liveOccurrences Γ session.store = .ok live ∧ Agrees Γ session.view live ∧
      ∀ event ∈ live, isAssertionOccurrence event = true := by
  obtain ⟨live, hlive, hsame⟩ := h.represents.liveOccurrences
  exact ⟨live, hlive, h.covers.agrees h.represents.advances (h.space ▸ hsame), h.represents.assertions hsame⟩

/-- A keyword is the same as itself only. -/
theorem same_kw_iff {t : Term} {k : String} : t.same (.kw k) ↔ t = .kw k := by
  cases t with
  | atom a => cases a <;> simp [Term.same, Term.kw, Term.canon, Atom.canon]
  | triple => simp [Term.same, Term.kw, Term.canon]

/-- An integer is the same as itself only. -/
theorem same_int_iff {t : Term} {n : Int} : t.same (.atom (.int n)) ↔ t = .atom (.int n) := by
  cases t with
  | atom a => cases a <;> simp [Term.same, Term.canon, Atom.canon]
  | triple => simp [Term.same, Term.canon]

/-- The epoch that either lookup reads off an occurrence coordinate is the sequence in it. -/
theorem exists_sequence {coordinate : Triple} (h : isOccurrenceCoordinate coordinate.term = true) :
    ∃ space slot sequence, coordinate.t1 = .triple space slot (.atom (.int sequence)) ∧
      Dispatch.occurrenceSequence coordinate = sequence := by
  have htransaction : isTransactionCoordinate coordinate.t1 = true := by
    unfold isOccurrenceCoordinate Triple.term at h
    split at h
    · rename_i he
      rw [Term.triple.injEq] at he
      simp only [Bool.and_eq_true] at h
      rw [he.1]
      exact h.1.1
    · cases h
  have hparts := htransaction
  unfold isTransactionCoordinate at hparts
  split at hparts
  · rename_i space slot sequence he
    refine ⟨_, slot, sequence, he, ?_⟩
    rw [Dispatch.occurrenceSequence, if_pos ⟨h, htransaction⟩, he]
  · cases hparts

/-- The lease that the dispatcher reads off an event. -/
def dispatchLease (event : OperationOccurrence) : Option Dispatch.LeaseState :=
  (Dispatch.leaseEvent event).map fun lease => ⟨lease.1, lease.2, Dispatch.occurrenceSequence event.coordinate⟩

/-- The proposition of a lease: its resource, the keyword, and a holder with an expiry. -/
theorem leaseEvent_eq_some : Dispatch.leaseEvent event = some (holder, expiresMs) ↔ event.proposition.t2 = .kw "kernel/lease" ∧
      event.proposition.t3 = .triple holder (.kw "kernel/expires-at") (.atom (.int expiresMs)) := by
  unfold Dispatch.leaseEvent
  constructor
  · intro h
    split at h
    · rename_i he
      split at h
      · rename_i hc
        cases h
        exact ⟨hc.1, by rw [he, hc.2]⟩
      · cases h
    · cases h
  · intro h
    rw [h.2]
    simp [h.1]

/-- The lease operations read the same lease off an event under an occurrence coordinate. -/
theorem leaseState_eq_some (hc : isOccurrenceCoordinate event.coordinate.term = true) (h : Dispatch.leaseEvent event = some (holder, expiresMs)) :
    Lease.leaseState event = some ⟨event.proposition.t1, holder, expiresMs, Dispatch.occurrenceSequence event.coordinate,
      event.coordinate, event.proposition⟩ := by
  obtain ⟨h2, h3⟩ := leaseEvent_eq_some.1 h
  obtain ⟨space, slot, sequence, h1, hsequence⟩ := exists_sequence hc
  unfold Lease.leaseState
  rw [h3]
  simp only [h2, hc, and_self, if_true, h1, hsequence]

theorem leaseState_eq_none (h : Dispatch.leaseEvent event = none) : Lease.leaseState event = none := by
  cases hl : Lease.leaseState event with
  | none => rfl
  | some lease =>
    unfold Lease.leaseState at hl
    split at hl
    · rename_i holder marker expiresMs he
      split at hl
      · rename_i hc
        have hsome := leaseEvent_eq_some.2 ⟨hc.1, by rw [he, hc.2.1]⟩
        rw [h] at hsome
        cases hsome
      · cases hl
    · cases hl

/-- Events that are the same are one lease, or none. -/
theorem leaseEvent_same {x y : OperationOccurrence} (h : x.same y) (hy : Dispatch.leaseEvent y = some (holder, expiresMs)) :
    ∃ holder', Dispatch.leaseEvent x = some (holder', expiresMs) ∧ holder.same holder' := by
  obtain ⟨hy2, hy3⟩ := leaseEvent_eq_some.1 hy
  obtain ⟨-, h2, h3⟩ := Term.same_triple_iff.1 h.2.2
  rw [hy2, same_kw_iff] at h2
  rw [hy3] at h3
  cases hx : x.proposition.t3 with
  | atom a => rw [hx] at h3; simp [Term.same, Term.canon] at h3
  | triple holder' marker value =>
    rw [hx, Term.same_triple_iff] at h3
    obtain ⟨hh, hm, hv⟩ := h3
    exact ⟨holder', leaseEvent_eq_some.2 ⟨h2, by rw [hx, same_kw_iff.1 hm, same_int_iff.1 hv]⟩, hh.symm⟩

/-- What the two lookups read off one event. -/
theorem lease_same {x y : OperationOccurrence} (h : x.same y) (hy : isAssertionOccurrence y = true)
    (hr : resource.eqv y.proposition.t1 = true) : Option.Rel (SameLease resource) (dispatchLease y) (Lease.leaseState x) := by
  simp only [isAssertionOccurrence, Bool.and_eq_true] at hy
  have hsymm : y.same x := ⟨h.1.symm, h.2.1.symm, Term.same.symm h.2.2⟩
  cases hl : Dispatch.leaseEvent y with
  | none =>
    have hx : Dispatch.leaseEvent x = none := by
      rw [Option.eq_none_iff_forall_ne_some]
      intro lease hx
      obtain ⟨holder, expiresMs⟩ := lease
      obtain ⟨holder', hy', -⟩ := leaseEvent_same hsymm hx
      rw [hl] at hy'
      cases hy'
    rw [dispatchLease, hl, leaseState_eq_none hx]
    exact .none
  | some lease =>
    obtain ⟨holder, expiresMs⟩ := lease
    obtain ⟨holder', hx, hs⟩ := leaseEvent_same h hl
    have hc : isOccurrenceCoordinate x.coordinate.term = true := h.1 ▸ hy.1
    obtain ⟨h1, -, -⟩ := Term.same_triple_iff.1 h.2.2
    rw [dispatchLease, hl, leaseState_eq_some hc hx]
    refine .some ⟨?_, hs, rfl, by rw [h.1]⟩
    rw [← hr]
    exact Term.eqv_congr (Term.same_refl _) h1

/-- The newer of two leases, where there is one. -/
theorem rel_or {α β : Type} {R : α → β → Prop} {a a' : Option α} {b b' : Option β} (h : Option.Rel R a b) (h' : Option.Rel R a' b') :
    Option.Rel R (a.or a') (b.or b') := by
  cases h with
  | some h => exact .some h
  | none => exact h'

/-- The dispatcher's walk takes only the events of the resource that are leases. -/
theorem dispatch_currentLease {live : List OperationOccurrence} (h : liveOccurrences Γ session.store = .ok live) :
    Dispatch.currentLease Γ session.store resource =
      .ok ((live.filter (boundTo (some resource) (some (.kw "kernel/lease")) none)).foldl
        (fun known event => (dispatchLease event).or known) none) := by
  unfold Dispatch.currentLease
  rw [h, List.foldl_filter]
  simp only [bind, Except.bind]
  refine congrArg Except.ok (congrFun (congrFun (congrArg _ ?_) _) _)
  funext known event
  cases hl : Dispatch.leaseEvent event with
  | none => simp [dispatchLease, hl]
  | some lease =>
    obtain ⟨holder, expiresMs⟩ := lease
    obtain ⟨h2, -⟩ := leaseEvent_eq_some.1 hl
    have hb : boundTo (some resource) (some (.kw "kernel/lease")) none event = resource.eqv event.proposition.t1 := by
      simp [boundTo, h2, Term.kw, Term.eqv, Atom.eqv]
    rw [hb]
    simp [dispatchLease, hl]

theorem lease_currentLease : Lease.currentLease Γ session resource =
    (byT12 Γ session.view resource (.kw "kernel/lease")).foldl (fun current event => (Lease.leaseState event).or current) none := by
  unfold Lease.currentLease
  refine congrFun (congrFun (congrArg _ ?_) _) _
  funext current event
  cases Lease.leaseState event <;> rfl

end Leases

/-- Walks over events that are the same find the same lease. -/
theorem newest_same {resource : Term} {xs ys : List OperationOccurrence} (h : List.Forall₂ OperationOccurrence.same xs ys)
    (hy : ∀ y ∈ ys, isAssertionOccurrence y = true ∧ resource.eqv y.proposition.t1 = true)
    {known : Option Dispatch.LeaseState} {current : Option Lease.LeaseState} (hk : Option.Rel (SameLease resource) known current) :
    Option.Rel (SameLease resource) (ys.foldl (fun known event => (dispatchLease event).or known) known)
      (xs.foldl (fun current event => (Lease.leaseState event).or current) current) := by
  induction h generalizing known current with
  | nil => exact hk
  | cons hxy _ ih =>
    rw [List.forall_mem_cons] at hy
    exact ih hy.2 (rel_or (lease_same hxy hy.1.1 hy.1.2) hk)

theorem eqv_comm (a b : Term) : a.eqv b = b.eqv a := by
  rw [Bool.eq_iff_iff]
  exact ⟨Term.eqv_symm, Term.eqv_symm⟩

/-- A fence is judged alike against two leases that are one. -/
theorem fence_same {resource : Term} {epoch nowMs : Int} {known : Option Dispatch.LeaseState}
    {current : Option Lease.LeaseState} (h : Option.Rel (SameLease resource) known current) :
    (known.any fun lease => holder.eqv lease.holder && (decide (epoch = lease.epoch) && decide (nowMs < lease.expiresMs))) =
      (Lease.matchingFence current ⟨resource, holder, epoch⟩ && Lease.held current nowMs) := by
  cases h with
  | none => rfl
  | @some found lease h =>
    obtain ⟨hr, hh, he, hepoch⟩ := h
    simp only [Option.any_some, Lease.matchingFence, Lease.held, leaseHeld, Lease.decisionSnapshot]
    have hd : decide (epoch = lease.epoch) = decide (lease.epoch = epoch) := by simp only [eq_comm]
    rw [Term.eqv_symm hr, Bool.true_and, he, hepoch, eqv_comm holder, Term.eqv_congr hh (Term.same_refl holder), Bool.and_assoc, hd]
    rfl

/-- The two lookups find the same lease, or none both. -/
theorem SessionFor.sameLease {Γ : Host} {session : Session} {spaceId : String} {frames : List TransactionFrame}
    (h : SessionFor Γ session spaceId frames) (resource : Term) : ∃ known, Dispatch.currentLease Γ session.store resource = .ok known ∧
      Option.Rel (SameLease resource) known (Lease.currentLease Γ session resource) := by
  obtain ⟨live, hlive, hagrees, hassert⟩ := h.live
  refine ⟨_, dispatch_currentLease hlive, ?_⟩
  rw [lease_currentLease]
  refine newest_same (hagrees.matching (some resource) (some (.kw "kernel/lease")) none) (fun y hy => ?_) .none
  obtain ⟨hmem, hbound⟩ := List.mem_filter.1 hy
  simp only [boundTo, Option.all_some, Bool.and_eq_true] at hbound
  exact ⟨hassert y hmem, hbound.1.1⟩

/-- **The two lease lookups agree.** In every session, for every resource, the dispatcher's walk of the live occurrences and the
lookup of the lease operations in the rotation find the same lease, or none both; and a fence is valid at commit time exactly when it
matches the lease of the operations and that is held. -/
theorem leases_agree (Γ : Host) {session : Session} (h : LeaseSession Γ session) (resource : Term) :
    (∃ known, Dispatch.currentLease Γ session.store resource = .ok known ∧
      Option.Rel (SameLease resource) known (Lease.currentLease Γ session resource)) ∧
    ∀ holder epoch nowMs, Dispatch.fenceValid Γ session.store (some ⟨resource, holder, epoch⟩) nowMs =
      .ok (Lease.matchingFence (Lease.currentLease Γ session resource) ⟨resource, holder, epoch⟩ &&
        Lease.held (Lease.currentLease Γ session resource) nowMs) := by
  obtain ⟨spaceId, frames, hfor⟩ := h.sessionFor
  obtain ⟨known, hknown, hrel⟩ := hfor.sameLease resource
  refine ⟨⟨known, hknown, hrel⟩, fun holder epoch nowMs => ?_⟩
  rw [← fence_same hrel]
  simp only [Dispatch.fenceValid, hknown, bind, Except.bind]
  cases known <;> rfl

/-- A store with two live leases of one resource: both lookups find the newer. -/
theorem leases_agree_two : ∃ s session, newTermStoreSized "s" 0 0 0 = .ok s ∧ newSession Host.zero s = .ok session ∧
    ∃ held, session.commit Host.zero [⟨.assert, Lease.leaseProposition (.int 1) (.str "a") 10⟩,
        ⟨.assert, Lease.leaseProposition (.int 1) (.str "b") 20⟩] = .ok held ∧
      ((∃ known, Dispatch.currentLease Host.zero held.store (.int 1) = .ok known ∧
          Option.Rel (SameLease (.int 1)) known (Lease.currentLease Host.zero held (.int 1))) ∧
        ∀ holder epoch nowMs, Dispatch.fenceValid Host.zero held.store (some ⟨.int 1, holder, epoch⟩) nowMs =
          .ok (Lease.matchingFence (Lease.currentLease Host.zero held (.int 1)) ⟨.int 1, holder, epoch⟩ &&
            Lease.held (Lease.currentLease Host.zero held (.int 1)) nowMs)) :=
  ⟨_, _, rfl, rfl, _, rfl, leases_agree Host.zero (@LeaseSession.commit Host.zero _ _
    [⟨.assert, Lease.leaseProposition (.int 1) (.str "a") 10⟩, ⟨.assert, Lease.leaseProposition (.int 1) (.str "b") 20⟩]
    (@LeaseSession.fresh Host.zero "s" 0 0 0 _ _ rfl rfl) rfl) (.int 1)⟩

end Fram
