import Fram.Lemmas.Server
import Fram.Lemmas.Scan

/-!
# What a request does to a session

A request leaves the store and the rotation of its session as they are, or it is one commit and its answer is no error
(`dispatch_cases`). The operations of that commit are those that the request asks for: the actions of a mutation, the lease that takes
the place of another, or the retraction of a lease (`Asked`).
-/

namespace Fram

open ExceptList (bind_eq_ok_iff)

variable {actions : List Dispatch.BatchAction}

/-- The operation of an action. -/
def Dispatch.BatchAction.commit (action : Dispatch.BatchAction) : CommitOperation := ⟨action.operation, action.proposition⟩

/-- The actions that a mutation asks for: one, or those of a batch. -/
inductive Asks (request : RpcRequest) : List Dispatch.BatchAction → Prop where
  | write {proposition policy fence : Term} {action : Dispatch.BatchAction}
    (hop : request.op = ⟨"rpc/assert"⟩ ∨ request.op = ⟨"rpc/retract"⟩)
    (hread : readRecord request.payload "rpc/write" 3 = .ok [proposition, policy, fence])
    (haction : Dispatch.parseAction (rpcRecord "rpc/action" [.atom (.keyword request.op), proposition, policy]).term 0 = .ok action) :
    Asks request [action]
  | batch {list fence : Term} {values : List Term} {actions : List Dispatch.BatchAction} (hop : request.op = ⟨"rpc/batch"⟩)
    (hread : readRecord request.payload "rpc/batch" 2 = .ok [list, fence]) (hlist : readList list = .ok values)
    (hactions : Dispatch.parseActions values = .ok actions) : Asks request actions

/-- A lease that a request grants: its resource, its holder, and how long it lasts. -/
inductive Grants (request : RpcRequest) : Term → Term → Int → Prop where
  | acquire {resource holder ttlMs : Term} (hread : readRecord request.payload "lease/acquire" 3 = .ok [resource, holder, ttlMs]) :
    Grants request resource holder (ttlMs.asInt.getD 0)
  | renew {value ttlMs : Term} {fence : Fence} (hread : readRecord request.payload "lease/renew" 2 = .ok [value, ttlMs])
    (hfence : Lease.parseFence value = .ok fence) : Grants request fence.resource fence.holder (ttlMs.asInt.getD 0)

/-- The operations that a request asks for. -/
inductive Asked (Γ : Host) (session : Session) (request : RpcRequest) (nowMs : Int) : List CommitOperation → Prop where
  | actions {actions : List Dispatch.BatchAction} (h : Asks request actions) : Asked Γ session request nowMs (actions.map (·.commit))
  | lease {resource holder : Term} {ttlMs : Int} (h : Grants request resource holder ttlMs)
    (hvalid : Lease.validGrantInput ttlMs nowMs = true) : Asked Γ session request nowMs
      (Lease.replacement (Lease.currentLease Γ session resource) resource holder (nowMs + ttlMs))
  | release {fence : Fence} {lease : Lease.LeaseState} (hfence : Lease.parseFence request.payload = .ok fence)
    (h : Lease.currentLease Γ session fence.resource = some lease) : Asked Γ session request nowMs [⟨.retract, lease.proposition⟩]

/-- The second session has the store and the rotation of the first. -/
structure Kept (session session' : Session) : Prop where
  store : session'.store = session.store
  view : session'.view = session.view

theorem Kept.refl (session : Session) : Kept session session := ⟨rfl, rfl⟩

section Mutations

variable {Γ : Host} {R : Reads} {session session' : Session} {request : RpcRequest} {answer : RpcResponse} {nowMs servedVersion : Int}

/-! ## Mutations -/

/-- The operations of a plan are those of its actions. -/
theorem prepareActions_operations {simulated : List Triple} {prepared : Dispatch.PreparedMutation}
    (h : Dispatch.prepareActions simulated actions = .ok prepared) : prepared.operations = actions.map (·.commit) := by
  induction actions generalizing simulated prepared with
  | nil =>
    cases h
    rfl
  | cons action actions ih =>
    rw [Dispatch.prepareActions] at h
    split at h
    · cases h
    · split at h
      · rename_i hop
        obtain ⟨rest, hrest, h⟩ := bind_eq_ok_iff.1 h
        cases h
        rw [List.map_cons, ← ih hrest, Dispatch.BatchAction.commit, hop]
      · rename_i hop
        obtain ⟨rest, hrest, h⟩ := bind_eq_ok_iff.1 h
        cases h
        rw [List.map_cons, ← ih hrest, Dispatch.BatchAction.commit, hop]

/-- What a mutation answers once it is committed: the receipt of its decisions. -/
structure Receipted (Γ : Host) (session session' : Session) (request : RpcRequest) (actions : List Dispatch.BatchAction)
    (answer : RpcResponse) (simulated : List Triple) (prepared : Dispatch.PreparedMutation) (transaction receipt : Triple) : Prop where
  live : Dispatch.planReadsLive actions = true → livePropositions Γ session.store = .ok simulated
  prepares : Dispatch.prepareActions simulated actions = .ok prepared
  coordinate : transactionCoordinate session.store.spaceId session.store.nextSequence = .ok transaction
  results : Dispatch.mutationResults (some transaction) prepared.decisions = .ok receipt
  answers : answer = response request session.store.nextSequence receipt.term
  commits : session.commit Γ (actions.map (·.commit)) = .ok session'

/-- A plan that is committed is not refused. -/
theorem commitMutation_cases (hne : actions ≠ []) {simulated : List Triple}
    (hlive : Dispatch.planReadsLive actions = true → livePropositions Γ session.store = .ok simulated)
    (h : Dispatch.commitMutation Γ session request (Dispatch.prepareActions simulated actions) servedVersion = .ok (session', answer)) :
    (session' = session ∧ answer.error.isSome = true) ∨ ∃ prepared transaction receipt,
      Receipted Γ session session' request actions answer simulated prepared transaction receipt := by
  unfold Dispatch.commitMutation at h
  cases hprepared : Dispatch.prepareActions simulated actions with
  | error refusal =>
    rw [hprepared] at h
    cases h
    exact .inl ⟨rfl, rfl⟩
  | ok prepared =>
    rw [hprepared] at h
    have hoperations := prepareActions_operations hprepared
    have hempty : prepared.operations.isEmpty = false := by
      rw [hoperations, List.isEmpty_eq_false_iff]
      exact fun he => hne (List.map_eq_nil_iff.1 he)
    simp only [hempty, Bool.not_false, if_true] at h
    obtain ⟨transaction, ht, h⟩ := bind_eq_ok_iff.1 h
    obtain ⟨receipt, hreceipt, h⟩ := bind_eq_ok_iff.1 h
    split at h
    · cases h
      exact .inl ⟨rfl, rfl⟩
    · obtain ⟨committed, hcommit, h⟩ := bind_eq_ok_iff.1 h
      cases h
      cases hc : transactionCoordinate session.store.spaceId session.store.nextSequence with
      | error fault =>
        rw [hc] at ht
        cases ht
      | ok coordinate =>
        rw [hc] at ht
        cases ht
        rw [hoperations] at hcommit
        exact .inr ⟨prepared, coordinate, receipt, hlive, hprepared, hc, hreceipt, rfl, hcommit⟩

/-- A mutation of actions is refused, and the session is as it was, or it is committed and receipted. -/
theorem executeActions_cases {plan : Except Dispatch.Refusal (List Dispatch.BatchAction)} {fence : Except Dispatch.Refusal (Option Fence)}
    (hplan : ∀ actions, plan = .ok actions → actions ≠ [])
    (h : Dispatch.executeActions Γ session request plan fence nowMs servedVersion = .ok (session', answer)) :
    (session' = session ∧ answer.error.isSome = true) ∨ ∃ actions simulated prepared transaction receipt, plan = .ok actions ∧
      Receipted Γ session session' request actions answer simulated prepared transaction receipt := by
  unfold Dispatch.executeActions at h
  cases plan with
  | error refusal =>
    cases h
    exact .inl ⟨rfl, rfl⟩
  | ok actions =>
    cases fence with
    | error refusal =>
      cases h
      exact .inl ⟨rfl, rfl⟩
    | ok fence =>
      obtain ⟨valid, -, h⟩ := bind_eq_ok_iff.1 h
      split at h
      · cases h
        exact .inl ⟨rfl, rfl⟩
      · have hrun : ∃ simulated, (Dispatch.planReadsLive actions = true → livePropositions Γ session.store = .ok simulated) ∧
            Dispatch.commitMutation Γ session request (Dispatch.prepareActions simulated actions) servedVersion =
              .ok (session', answer) := by
          by_cases hreads : Dispatch.planReadsLive actions = true
          · rw [if_pos hreads] at h
            obtain ⟨simulated, hlive, h⟩ := bind_eq_ok_iff.1 h
            exact ⟨simulated, fun _ => hlive, h⟩
          · rw [if_neg hreads] at h
            exact ⟨[], fun hr => absurd hr hreads, h⟩
        obtain ⟨simulated, hlive, hcommit⟩ := hrun
        rcases commitMutation_cases (hplan actions rfl) hlive hcommit with hkept | ⟨prepared, transaction, receipt, hreceipted⟩
        · exact .inl hkept
        · exact .inr ⟨actions, simulated, prepared, transaction, receipt, rfl, hreceipted⟩

theorem ne_nil_of_parseActions {values : List Term} (h : Dispatch.parseActions values = .ok actions) : actions ≠ [] := by
  unfold Dispatch.parseActions at h
  cases values with
  | nil => cases h
  | cons value values =>
    split at h
    · cases h
    split at h
    · cases h
    rw [Dispatch.parseActionsFrom] at h
    obtain ⟨action, -, h⟩ := bind_eq_ok_iff.1 h
    obtain ⟨actions, -, h⟩ := bind_eq_ok_iff.1 h
    cases h
    exact List.cons_ne_nil _ _

/-- A mutation is refused, and the session is as it was, or the actions that it asks for are committed and receipted. -/
def MutationEnds (Γ : Host) (session session' : Session) (request : RpcRequest) (answer : RpcResponse) : Prop :=
  (session' = session ∧ answer.error.isSome = true) ∨ ∃ actions simulated prepared transaction receipt, Asks request actions ∧
    Receipted Γ session session' request actions answer simulated prepared transaction receipt

theorem writeResponse_cases (hop : request.op = ⟨"rpc/assert"⟩ ∨ request.op = ⟨"rpc/retract"⟩)
    (h : Dispatch.writeResponse Γ session request nowMs servedVersion = .ok (session', answer)) :
    MutationEnds Γ session session' request answer := by
  unfold Dispatch.writeResponse at h
  split at h
  · cases h
    exact .inl ⟨rfl, rfl⟩
  · rename_i proposition policy fence hread
    split at h
    · rename_i action haction
      rcases executeActions_cases (fun actions ha => by cases ha; exact List.cons_ne_nil _ _) h with
        hkept | ⟨actions, simulated, prepared, transaction, receipt, hactions, hreceipted⟩
      · exact .inl hkept
      · cases hactions
        exact .inr ⟨_, simulated, prepared, transaction, receipt, .write hop hread haction, hreceipted⟩
    · cases h
      exact .inl ⟨rfl, rfl⟩
  · cases h
    exact .inl ⟨rfl, rfl⟩

theorem batchResponse_cases (hop : request.op = ⟨"rpc/batch"⟩)
    (h : Dispatch.batchResponse Γ session request nowMs servedVersion = .ok (session', answer)) :
    MutationEnds Γ session session' request answer := by
  unfold Dispatch.batchResponse at h
  split at h
  · cases h
    exact .inl ⟨rfl, rfl⟩
  · rename_i list fence hread
    split at h
    · cases h
      exact .inl ⟨rfl, rfl⟩
    · rename_i values hlist
      rcases executeActions_cases (fun actions ha => ne_nil_of_parseActions ha) h with
        hkept | ⟨actions, simulated, prepared, transaction, receipt, hactions, hreceipted⟩
      · exact .inl hkept
      · exact .inr ⟨actions, simulated, prepared, transaction, receipt, .batch hop hread hlist hactions, hreceipted⟩
  · cases h
    exact .inl ⟨rfl, rfl⟩

/-! ## Leases -/

/-- What a lease request comes to: the session stays as it is, with no payload, the answer of a release or that of a check; or the lease is
granted, or retracted. -/
inductive LeaseEnds (Γ : Host) (session : Session) (request : RpcRequest) (nowMs : Int) : Session → RpcResponse → Prop where
  | refused {answer : RpcResponse} (h : answer.payload = none) : LeaseEnds Γ session request nowMs session answer
  | granted {resource holder : Term} {ttlMs : Int} {session' : Session} (h : Grants request resource holder ttlMs)
    (hvalid : Lease.validGrantInput ttlMs nowMs = true)
    (hcommit : session.commit Γ (Lease.replacement (Lease.currentLease Γ session resource) resource holder (nowMs + ttlMs)) = .ok session') :
    LeaseEnds Γ session request nowMs session' (response request session.store.nextSequence
      (Lease.grantRecord resource holder session.store.nextSequence (nowMs + ttlMs)).term)
  | kept (version : Int) (released : Bool) :
    LeaseEnds Γ session request nowMs session (response request version (Lease.releasedRecord released).term)
  | released {fence : Fence} {lease : Lease.LeaseState} {session' : Session} (hfence : Lease.parseFence request.payload = .ok fence)
    (h : Lease.currentLease Γ session fence.resource = some lease)
    (hcommit : session.commit Γ [⟨.retract, lease.proposition⟩] = .ok session') :
    LeaseEnds Γ session request nowMs session' (response request session.store.nextSequence (Lease.releasedRecord true).term)
  | checked : LeaseEnds Γ session request nowMs session (Lease.checkResponse Γ session request nowMs)

theorem grant_cases {resource holder : Term} {ttlMs : Int} (hg : Grants request resource holder ttlMs)
    (hvalid : Lease.validGrantInput ttlMs nowMs = true)
    (h : Lease.grant Γ session request (Lease.currentLease Γ session resource) resource holder (nowMs + ttlMs) = .ok (session', answer)) :
    LeaseEnds Γ session request nowMs session' answer := by
  unfold Lease.grant at h
  dsimp only at h
  split at h
  · cases h
    exact .refused rfl
  · obtain ⟨committed, hcommit, h⟩ := bind_eq_ok_iff.1 h
    cases h
    exact .granted hg hvalid hcommit

theorem acquireResponse_cases (h : Lease.acquireResponse Γ session request nowMs = .ok (session', answer)) :
    LeaseEnds Γ session request nowMs session' answer := by
  unfold Lease.acquireResponse at h
  dsimp only at h
  split at h
  · cases h
    exact .refused rfl
  · rename_i resource holder ttlMs hread
    split at h
    · cases h
      exact .refused rfl
    · rename_i hvalid
      split at h
      · cases h
        exact .refused rfl
      · exact grant_cases (.acquire hread) (by simpa using hvalid) h
  · cases h
    exact .refused rfl

theorem renewResponse_cases (h : Lease.renewResponse Γ session request nowMs = .ok (session', answer)) :
    LeaseEnds Γ session request nowMs session' answer := by
  unfold Lease.renewResponse at h
  dsimp only at h
  split at h
  · cases h
    exact .refused rfl
  · rename_i value ttlMs hread
    split at h
    · cases h
      exact .refused rfl
    · rename_i fence hfence
      split at h
      · cases h
        exact .refused rfl
      · rename_i hvalid
        split at h
        · cases h
          exact .refused rfl
        · exact grant_cases (.renew hread hfence) (by simpa using hvalid) h
  · cases h
    exact .refused rfl

theorem releaseResponse_cases (h : Lease.releaseResponse Γ session request = .ok (session', answer)) :
    LeaseEnds Γ session request nowMs session' answer := by
  unfold Lease.releaseResponse at h
  dsimp only at h
  split at h
  · cases h
    exact .refused rfl
  · rename_i fence hfence
    split at h
    · cases h
      exact .kept _ _
    · split at h
      · cases h
        exact .refused rfl
      · obtain ⟨committed, hcommit, h⟩ := bind_eq_ok_iff.1 h
        cases h
        unfold Lease.retractLease at hcommit
        split at hcommit
        · cases hcommit
          exact .kept _ _
        · rename_i lease hlease
          exact .released hfence hlease hcommit

theorem leaseDispatch_cases (h : Lease.dispatch Γ session request nowMs = .ok (session', answer)) :
    LeaseEnds Γ session request nowMs session' answer := by
  unfold Lease.dispatch at h
  dsimp only at h
  split at h
  · cases h
    exact .refused rfl
  split at h
  · cases h
    exact .refused rfl
  split at h
  · cases h
    exact .refused rfl
  split at h
  · cases h
    exact .refused rfl
  split at h
  · exact acquireResponse_cases h
  split at h
  · exact renewResponse_cases h
  split at h
  · exact releaseResponse_cases h
  split at h
  · cases h
    exact .checked
  · cases h
    exact .refused rfl

/-! ## All requests -/

theorem Touches.kept {operation : Keyword} (h : Touches operation session session') : Kept session session' := by
  have hlookup : ∀ {key : OrderedResultKey} {looked : Session} {found : Option OrderedResultEntry},
      resultCacheLookup session key = (looked, found) → Kept session looked := by
    intro key looked found hl
    obtain ⟨hstore, hview, -⟩ := resultCacheLookup_spec session key
    rw [hl] at hstore hview
    exact ⟨hstore, hview⟩
  cases h with
  | same => exact .refl _
  | lookup h => exact hlookup h
  | retain h _ _ => exact ⟨(hlookup h).store, (hlookup h).view⟩

/-- A scan touches the cache under its own operation. -/
theorem scanResponse_touches
    (h : Dispatch.scanResponse Γ R session request servedVersion = .ok (session', answer)) : Touches ⟨"rpc/scan"⟩ session session' := by
  unfold Dispatch.scanResponse at h
  split at h
  · cases h
    exact .same
  split at h
  · dsimp only at h
    split at h <;> cases h <;> exact .same
  split at h
  · cases h
    exact .same
  split at h
  · cases h
    exact .same
  split at h
  · cases h
    exact .same
  split at h
  · cases h
    exact .same
  obtain ⟨⟨kept, rows⟩, hresult, h⟩ := bind_eq_ok_iff.1 h
  cases h
  unfold Dispatch.scanResult at hresult
  split at hresult
  · rename_i hlookup
    cases hresult
    exact .lookup hlookup
  · rename_i hlookup
    obtain ⟨rotation, -, hresult⟩ := bind_eq_ok_iff.1 hresult
    cases hresult
    exact .retain hlookup rfl rfl

/-- A request keeps the store and the rotation, or its answer is no error and it commits the operations that it asks for. -/
def RequestEnds (Γ : Host) (session session' : Session) (request : RpcRequest) (nowMs : Int) (answer : RpcResponse) : Prop :=
  Kept session session' ∨ ∃ operations, Asked Γ session request nowMs operations ∧ session.commit Γ operations = .ok session' ∧
    answer.error = none

/-- A request that is not of the read route touches the cache at most, or commits so. -/
def RouteEnds (Γ : Host) (session session' : Session) (request : RpcRequest) (nowMs : Int) (answer : RpcResponse) : Prop :=
  Touches request.op session session' ∨ ∃ operations, Asked Γ session request nowMs operations ∧
    session.commit Γ operations = .ok session' ∧ answer.error = none

theorem MutationEnds.routeEnds (h : MutationEnds Γ session session' request answer) :
    RouteEnds Γ session session' request nowMs answer := by
  rcases h with ⟨rfl, -⟩ | ⟨actions, simulated, prepared, transaction, receipt, hasks, hreceipted⟩
  · exact .inl .same
  · exact .inr ⟨_, .actions hasks, hreceipted.commits, by rw [hreceipted.answers]; rfl⟩

theorem LeaseEnds.routeEnds (h : LeaseEnds Γ session request nowMs session' answer) :
    RouteEnds Γ session session' request nowMs answer := by
  cases h with
  | refused _ => exact .inl .same
  | kept _ _ => exact .inl .same
  | checked => exact .inl .same
  | granted hg hvalid hcommit => exact .inr ⟨_, .lease hg hvalid, hcommit, rfl⟩
  | released hfence hlease hcommit => exact .inr ⟨_, .release hfence hlease, hcommit, rfl⟩

/-- Where a route ends, by the operation of the request. -/
theorem dispatchRoute_cases (h : Dispatch.dispatchRoute Γ R session request nowMs = .ok (session', answer)) :
    RouteEnds Γ session session' request nowMs answer ∧
      (Dispatch.mutationRequest request.op = true → MutationEnds Γ session session' request answer) := by
  unfold Dispatch.dispatchRoute at h
  dsimp only at h
  split at h
  · cases h
    exact ⟨.inl .same, fun _ => .inl ⟨rfl, rfl⟩⟩
  split at h
  · cases h
    exact ⟨.inl .same, fun _ => .inl ⟨rfl, rfl⟩⟩
  split at h
  · rename_i hop
    have hno : Dispatch.mutationRequest request.op ≠ true := by
      rw [hop]
      decide
    split at h
    · cases h
      exact ⟨.inl .same, fun hm => absurd hm hno⟩
    · cases h
      exact ⟨.inl .same, fun hm => absurd hm hno⟩
  split at h
  · rename_i hop
    have hno : Dispatch.mutationRequest request.op ≠ true := by
      rw [hop]
      decide
    split at h
    · cases h
      exact ⟨.inl .same, fun hm => absurd hm hno⟩
    · obtain ⟨live, -, h⟩ := bind_eq_ok_iff.1 h
      cases h
      exact ⟨.inl .same, fun hm => absurd hm hno⟩
  split at h
  · rename_i hop
    have hno : Dispatch.mutationRequest request.op ≠ true := by
      rw [hop]
      decide
    exact ⟨.inl (hop ▸ scanResponse_touches h), fun hm => absurd hm hno⟩
  split at h
  · rename_i hop
    have hends := writeResponse_cases hop h
    exact ⟨hends.routeEnds, fun _ => hends⟩
  split at h
  · rename_i hop
    have hends := batchResponse_cases hop h
    exact ⟨hends.routeEnds, fun _ => hends⟩
  rename_i hwrite hbatch
  have hno : Dispatch.mutationRequest request.op ≠ true := by
    simp only [Dispatch.mutationRequest, ne_eq, Bool.or_eq_true, decide_eq_true_eq]
    tauto
  split at h
  · exact ⟨(leaseDispatch_cases h).routeEnds, fun hm => absurd hm hno⟩
  · cases h
    exact ⟨.inl .same, fun hm => absurd hm hno⟩

theorem withDerived_kept (session : Session) (answer : RpcResponse × OrderedResultCache × Int) :
    Kept session (Dispatch.withDerived session answer).1 := ⟨rfl, rfl⟩

/-- The read route keeps the store and the rotation. -/
theorem dispatchRead_kept {answered : Session × RpcResponse} (h : Dispatch.dispatchRead R session request = .ok (some answered)) :
    Kept session answered.1 ∧ Dispatch.mutationRequest request.op ≠ true := by
  unfold Dispatch.dispatchRead at h
  dsimp only at h
  split at h
  · rename_i hop
    obtain ⟨derived, -, h⟩ := bind_eq_ok_iff.1 h
    cases h
    exact ⟨withDerived_kept session derived, by rw [hop]; decide⟩
  split at h
  · rename_i hop
    split at h
    · cases h
      exact ⟨.refl _, by rw [hop]; decide⟩
    · obtain ⟨derived, -, h⟩ := bind_eq_ok_iff.1 h
      cases h
      exact ⟨withDerived_kept session derived, by rw [hop]; decide⟩
  split at h
  · rename_i hop
    split at h
    · cases h
      exact ⟨.refl _, by rw [hop]; decide⟩
    · split at h
      · cases h
        exact ⟨.refl _, by rw [hop]; decide⟩
      · obtain ⟨derived, -, h⟩ := bind_eq_ok_iff.1 h
        cases h
        exact ⟨withDerived_kept session derived, by rw [hop]; decide⟩
  · cases h

/-- **What a request does.** It keeps the store and the rotation, or it commits the operations that it asks for; a mutation is refused
or receipted. -/
theorem dispatch_cases (h : Dispatch.dispatch Γ R session request nowMs = .ok (session', answer)) :
    RequestEnds Γ session session' request nowMs answer ∧
      (Dispatch.mutationRequest request.op = true → MutationEnds Γ session session' request answer) := by
  unfold Dispatch.dispatch at h
  dsimp only at h
  split at h
  · cases h
    exact ⟨.inl (.refl _), fun _ => .inl ⟨rfl, rfl⟩⟩
  split at h
  · cases h
    exact ⟨.inl (.refl _), fun _ => .inl ⟨rfl, rfl⟩⟩
  obtain ⟨read, hread, h⟩ := bind_eq_ok_iff.1 h
  cases read with
  | some answered =>
    cases h
    obtain ⟨hkept, hno⟩ := dispatchRead_kept hread
    exact ⟨.inl hkept, fun hm => absurd hm hno⟩
  | none => exact (dispatchRoute_cases h).imp_left (Or.imp_left Touches.kept)

end Mutations

/-! ## The server -/

section Serving

variable {Γ : Host} {R : Reads} {storeResult : StoreResult} {store : Store} {frame : RpcFrameV2} {nowMs : Int} {result : ResponseResult}
  {spaceId : String} {frames : List TransactionFrame}

/-- A request is failed, or an image is made, or it is dispatched and what it commits is encoded. -/
theorem dispatchRequest_cases (h : dispatchRequest Γ R storeResult store frame nowMs = .ok result) :
    (∃ message, result = failedResponse message storeResult) ∨
    (∃ request, frame.request = some request ∧ request.op = ⟨"rpc/checkpoint"⟩ ∧
      result = checkpointResponse storeResult store frame request nowMs) ∨
    ∃ request session answer, frame.request = some request ∧ Dispatch.dispatch Γ R store.session request nowMs = .ok (session, answer) ∧
      encodeStoreAppend session.store (currentSequence store.session.store) = .ok (.ok result.appendBytes) ∧
      result.response = .ok (wrapRpcResponse frame answer) ∧
      result.nextStore = nextStoreResult storeResult ⟨store.canonicalLogPath, session, store.logByteCount + result.appendBytes.length⟩ := by
  unfold dispatchRequest at h
  split at h
  · cases h
    exact .inl ⟨_, rfl⟩
  · rename_i request hrequest
    split at h
    · rename_i hop
      cases h
      exact .inr (.inl ⟨request, hrequest, hop, rfl⟩)
    · obtain ⟨⟨session, answer⟩, hdispatch, h⟩ := bind_eq_ok_iff.1 h
      obtain ⟨encoded, hencoded, h⟩ := bind_eq_ok_iff.1 h
      cases encoded with
      | error message =>
        cases h
        exact .inl ⟨message, rfl⟩
      | ok bytes =>
        cases h
        exact .inr (.inr ⟨request, session, answer, hrequest, hdispatch, hencoded, rfl, rfl⟩)

/-- An image leaves the store as it is, and appends nothing. -/
theorem checkpointResponse_kept (storeResult : StoreResult) (store : Store) (frame : RpcFrameV2) (request : RpcRequest) (nowMs : Int) :
    (checkpointResponse storeResult store frame request nowMs).nextStore = nextStoreResult storeResult store ∧
      (checkpointResponse storeResult store frame request nowMs).appendBytes = [] := by
  unfold checkpointResponse
  dsimp only
  split
  · exact ⟨rfl, rfl⟩
  split
  · exact ⟨rfl, rfl⟩
  split
  · exact ⟨rfl, rfl⟩
  split
  · exact ⟨rfl, rfl⟩
  · exact ⟨rfl, rfl⟩

theorem SessionFor.kept {session session' : Session} (h : SessionFor Γ session spaceId frames) (hk : Kept session session') :
    SessionFor Γ session' spaceId frames :=
  ⟨hk.store ▸ h.represents, hk.store ▸ h.space, hk.view ▸ h.covers⟩

theorem SessionFor.currentSequence_nonneg {session : Session} (h : SessionFor Γ session spaceId frames) :
    0 ≤ currentSequence session.store := by
  have := h.represents.one_le_nextSequence
  unfold currentSequence
  omega

/-- A store that is as it was has nothing to append. -/
theorem SessionFor.encodeStoreAppend_kept {session session' : Session} (h : SessionFor Γ session spaceId frames) (hk : Kept session session') :
    encodeStoreAppend session'.store (currentSequence session.store) = .ok (.ok []) := by
  have := h.currentSequence_nonneg
  unfold encodeStoreAppend
  dsimp only
  rw [hk.store, if_neg (by omega), if_pos rfl]

/-- What is appended after a commit is the one frame that it added. -/
theorem SessionFor.encodeStoreAppend_commit {session session' : Session} (h : SessionFor Γ session spaceId frames)
    {operations : List CommitOperation} (hc : session.commit Γ operations = .ok session') :
    currentSequence session'.store = currentSequence session.store + 1 ∧ ∃ f : TransactionFrame,
      f.same ⟨session.store.nextSequence, operations⟩ ∧
      encodeStoreAppend session'.store (currentSequence session.store) = .ok (appendFrameBytes f) := by
  obtain ⟨hfor, -⟩ := h.commit hc
  have hcur : currentSequence session'.store = session.store.nextSequence := by
    rw [hfor.represents.currentSequence]
    simp
  have hnext : currentSequence session'.store = currentSequence session.store + 1 := by
    rw [hcur]
    unfold currentSequence
    omega
  have hnonneg := h.currentSequence_nonneg
  have hall : Represents Γ session'.store (frames ++ ([⟨session.store.nextSequence, operations⟩] ++ [])) := by
    simpa using hfor.represents
  obtain ⟨fs, hfs, hsame⟩ := @Represents.framesBetween _ _ _ _ _ (currentSequence session.store) (currentSequence session'.store) hall
    (fun f hf => by
      have := h.represents.advances.upper f hf
      unfold currentSequence
      omega)
    (fun f hf => by
      rw [List.append_nil, List.mem_singleton] at hf
      rw [hf]
      unfold currentSequence
      dsimp only
      omega)
    (fun f hf => by
      have := hfor.represents.advances.upper f (by simpa using hf)
      unfold currentSequence
      omega)
    nofun
  cases hsame with
  | @cons f _ fs _ hf hnil =>
    cases hnil
    refine ⟨hnext, f, hf, ?_⟩
    unfold encodeStoreAppend
    dsimp only
    rw [if_neg (by omega), if_neg (by omega), if_neg (by omega), hfs]
    rfl

/-- The stores that a server comes to: booted ones, with an image or without, and those after requests. -/
inductive Reachable (Γ : Host) (R : Reads) : StoreResult → Prop where
  | boot {path configured : String} {bytes image : Bytes} {result : StoreResult} (hsize : bytes.length < 2 ^ 62)
    (hi : Imaged Γ configured bytes image) (hb : bootStore Γ path configured bytes image = .ok result) : Reachable Γ R result
  | request {prior : StoreResult} {store : Store} {frame : RpcFrameV2} {nowMs : Int} {result : ResponseResult} (h : Reachable Γ R prior)
    (hs : prior.store = .ok store) (hd : dispatchRequest Γ R prior store frame nowMs = .ok result) : Reachable Γ R result.nextStore

/-- A request keeps the history of its session, or adds one frame to it. -/
theorem SessionFor.dispatchRequest (h : SessionFor Γ store.session spaceId frames) (hs : storeResult.store = .ok store)
    (hd : Fram.dispatchRequest Γ R storeResult store frame nowMs = .ok result) : ∃ next later, result.nextStore.store = .ok next ∧
      SessionFor Γ next.session spaceId (frames ++ later) := by
  rcases dispatchRequest_cases hd with ⟨message, rfl⟩ | ⟨request, -, -, rfl⟩ | ⟨request, session, answer, -, hdispatch, -, -, hnext⟩
  · exact ⟨store, [], hs, by simpa using h⟩
  · rw [(checkpointResponse_kept ..).1]
    exact ⟨store, [], rfl, by simpa using h⟩
  · rw [hnext]
    rcases (dispatch_cases hdispatch).1 with hkept | ⟨operations, -, hcommit, -⟩
    · exact ⟨_, [], rfl, by simpa using h.kept hkept⟩
    · exact ⟨_, _, rfl, (h.commit hcommit).1⟩

/-- What is dispatched is answered. -/
theorem SessionFor.dispatchRequest_ok (h : SessionFor Γ store.session spaceId frames) {request : RpcRequest}
    {answered : Session × RpcResponse} (hq : frame.request = some request) (hop : request.op ≠ ⟨"rpc/checkpoint"⟩)
    (hd : Dispatch.dispatch Γ R store.session request nowMs = .ok answered) :
    ∃ result, Fram.dispatchRequest Γ R storeResult store frame nowMs = .ok result := by
  have hencoded : ∃ encoded, encodeStoreAppend answered.1.store (currentSequence store.session.store) = .ok encoded := by
    rcases (dispatch_cases hd).1 with hkept | ⟨operations, -, hcommit, -⟩
    · exact ⟨_, h.encodeStoreAppend_kept hkept⟩
    · obtain ⟨-, f, -, hf⟩ := h.encodeStoreAppend_commit hcommit
      exact ⟨_, hf⟩
  obtain ⟨encoded, hencoded⟩ := hencoded
  unfold Fram.dispatchRequest
  simp only [hq, if_neg hop, hd, hencoded, bind, Except.bind]
  cases encoded with
  | error message => exact ⟨_, rfl⟩
  | ok bytes => exact ⟨_, rfl⟩

/-- A store that a server comes to has a history. -/
theorem Reachable.sessionFor (h : Reachable Γ R storeResult) (hs : storeResult.store = .ok store) :
    ∃ spaceId frames, SessionFor Γ store.session spaceId frames := by
  induction h generalizing store with
  | @boot path _ _ _ result hsize hi hb =>
    have hboots := hi.bootsTo hsize [] path
    rw [List.append_nil, hb] at hboots
    obtain ⟨spaceId, frames, -, hfor⟩ := hboots.store hs
    exact ⟨spaceId, frames, hfor.toSessionFor⟩
  | request h hprior hd ih =>
    obtain ⟨spaceId, frames, hfor⟩ := ih hprior
    obtain ⟨next, later, hnext, hfor'⟩ := hfor.dispatchRequest hprior hd
    cases hnext.symm.trans hs
    exact ⟨spaceId, _, hfor'⟩

end Serving

end Fram
