import Fram.Lemmas.CommitRequest
import Fram.Lemmas.JvmServer

/-!
# The expected version

A request that expects another version than the current one should be answered by a conflict. The native server looks at the version
first, and so does the JVM's where it reads; but the JVM's looks at the page and the timeout before, and a mutation of its is parsed,
and queued for a writer, before its version is looked at (`version_first`).
-/

namespace Fram.JvmServer

open Database Framrpc
open ExceptList (bind_eq_ok_iff)

/-! ## Well-formed payloads -/

/-- The payload of a write: a proposition, a policy, and a fence or none. -/
def WriteRecord (payload : Term) : Prop :=
  ∃ (proposition : Triple) (policy : Term) (fence : Option Triple),
    payload = (rpcRecord "rpc/write" [proposition.term, policy, rpcOption (fence.map Triple.term)]).term ∧
      (Dispatch.policyOf policy).isSome

/-- The payload of a batch: some actions, not too many, and a fence or none. -/
def BatchRecord (payload : Term) : Prop :=
  ∃ (values : List Term) (fence : Option Triple),
    payload = (rpcRecord "rpc/batch" [rpcList values, rpcOption (fence.map Triple.term)]).term ∧ values ≠ [] ∧
      values.length ≤ rpcV2MaxBatchActions ∧ ∀ value ∈ values, ActionRecord value

/-- A fence: a resource, a holder and an epoch. -/
def FenceRecord (value : Term) : Prop :=
  ∃ fence : Fence, value = (rpcRecord "rpc/fence" [fence.resource, fence.holder, .int fence.epoch]).term

/-- The payload of an acquisition: a resource, a holder and a time to live. -/
def AcquireRecord (payload : Term) : Prop :=
  ∃ (resource holder : Term) (ttlMs : Int), payload = (rpcRecord "lease/acquire" [resource, holder, .int ttlMs]).term ∧ 0 < ttlMs

/-- The payload of a renewal: a fence and a time to live. -/
def RenewRecord (payload : Term) : Prop :=
  ∃ (fence : Term) (ttlMs : Int), payload = (rpcRecord "lease/renew" [fence, .int ttlMs]).term ∧ FenceRecord fence ∧ 0 < ttlMs

/-- The payload of a request is one of its operation, if that is a mutation. -/
structure WellFormed (request : RpcRequest) : Prop where
  write : request.op = ⟨"rpc/assert"⟩ ∨ request.op = ⟨"rpc/retract"⟩ → WriteRecord request.payload
  batch : request.op = ⟨"rpc/batch"⟩ → BatchRecord request.payload
  acquire : request.op = ⟨"rpc/lease-acquire"⟩ → AcquireRecord request.payload
  renew : request.op = ⟨"rpc/lease-renew"⟩ → RenewRecord request.payload
  release : request.op = ⟨"rpc/lease-release"⟩ → FenceRecord request.payload

/-- Nothing is amiss with a request that is looked at before its version: no page and no timeout where there should be none, and, for a
mutation, a payload of its operation and a server that takes it. -/
structure Unhindered (server : Server) (request : RpcRequest) (cancelled : Bool) : Prop where
  page : pagedRpcOperations.contains request.op.spelling = true ∨ request.page = none
  timeout : request.op = ⟨"rpc/query"⟩ ∨ request.timeoutMs = none
  payload : WellFormed request
  mutation : readOnlyRpcOperations.contains request.op.spelling = true ∨
    (cancelled = false ∧ requireWriter server = .ok () ∧ server.sequencing = true)

/-- A response tells of a conflict. -/
def TellsConflict (response : RpcResponse) : Prop := ∃ error, response.error = some error ∧ error.code = ⟨"rpc/conflict"⟩

/-! ## Parsing -/

/-- A request throws while its payload is parsed, at once or in its mutation function, and what it throws is no conflict. -/
def Malformed (parsed : Except Fault (Mutating Term)) : Prop :=
  ∃ fault : Fault, fault.type ≠ ⟨"rpc/conflict"⟩ ∧ (parsed = .error fault ∨ parsed = .ok (.done (.error fault)))

/-- The mutation function of a request finds that its version is stale, and leaves its database as it is. -/
def FindsConflict (Γ : Host) (J : Gzip) (server : Server) (request : RpcRequest) (parsed : Except Fault (Mutating Term)) : Prop :=
  ∃ mutation, parsed = .ok mutation ∧ ∀ (r : Running) (e : Int), r.db = server.db → requireWriter server = .ok () →
    request.expectedVersion = some e → e ≠ currentSequence server.db.termStore →
      ∃ fault : Fault, fault.type = ⟨"rpc/conflict"⟩ ∧ mutation.run (answerQuestion Γ J true) r = (.error fault, r)

/-- A request finds a conflict exactly when its payload is well formed, and throws something else when it is not. -/
def Decides (Γ : Host) (J : Gzip) (server : Server) (request : RpcRequest) (wellFormed : Prop) (parsed : Except Fault (Mutating Term)) :
    Prop :=
  (wellFormed ∧ FindsConflict Γ J server request parsed) ∨ (¬wellFormed ∧ Malformed parsed)

theorem malformed_error {fault : Fault} (h : fault.type ≠ ⟨"rpc/conflict"⟩) : Malformed (.error fault) := ⟨fault, h, .inl rfl⟩

theorem malformed_bind {α : Type} {x : Except Fault α} {f : α → Except Fault (Mutating Term)} (hx : Spares x)
    (hf : ∀ a, x = .ok a → Malformed (f a)) : Malformed (x >>= f) := by
  cases x with
  | error fault => exact malformed_error (hx fault rfl)
  | ok a => exact hf a rfl

theorem malformed_orThrow {α : Type} {x : Except Fault α} {next : α → Mutating Term} (hx : Spares x)
    (hf : ∀ a, x = .ok a → Malformed (.ok (next a))) : Malformed (.ok (orThrow x next)) := by
  cases x with
  | error fault => exact ⟨fault, hx fault rfl, .inr rfl⟩
  | ok a => exact hf a rfl

section Handlers

variable {Γ : Host} {J : Gzip} {server : Server} {request : RpcRequest} {cancelled : Bool} {nowMs e : Int}

/-- A writer's database takes mutations. -/
theorem requireMutationReady_of_requireWriter (h : requireWriter server = .ok ()) : requireMutationReady server.db = .ok () := by
  unfold requireWriter at h
  split at h
  · cases h
  · exact h

/-- A writer's database is read. -/
theorem databaseStore_of_requireWriter (h : requireWriter server = .ok ()) : databaseStore server.db = .ok server.db.termStore := by
  have hready := requireMutationReady_of_requireWriter h
  unfold requireMutationReady at hready
  split at hready
  · rename_i hstate
    simp [databaseStore, readable, hstate]
  · cases hready
  · cases hready

/-- What the version is looked at throws. -/
theorem requireVersionExpected_stale {version : Int} (he : request.expectedVersion = some e) (hne : e ≠ version) :
    requireVersionExpected version request.expectedVersion =
      serverFail "rpc/conflict" "expected-version does not match current version" := by
  simp [requireVersionExpected, he, hne]

/-- A mutation finds a stale version as soon as it looks at the store. -/
theorem run_looking {r : Running} (hr : r.db = server.db) (hw : requireWriter server = .ok ()) (he : request.expectedVersion = some e)
    (hne : e ≠ currentSequence server.db.termStore) (next : TermStore → Unit → Mutating Term) :
    ∃ fault : Fault, fault.type = ⟨"rpc/conflict"⟩ ∧ (orThrow (requireWriter server) fun _ => looking fun store =>
      orThrow (requireVersionExpected (currentSequence store) request.expectedVersion) (next store)).run (answerQuestion Γ J true) r =
        (.error fault, r) := by
  refine ⟨⟨⟨"rpc/conflict"⟩, "expected-version does not match current version"⟩, rfl, ?_⟩
  rw [hw]
  simp only [orThrow, looking, Script.run_ask, answerQuestion, hr, databaseStore_of_requireWriter hw,
    requireVersionExpected_stale he hne, serverFail, Script.run_done]

/-- A mutation function of a write or of a batch. -/
theorem findsConflict_mutationPayload (actions : List ServerAction) (fence : Option Triple) :
    FindsConflict Γ J server request (.ok (mutationPayload Γ server request actions fence cancelled nowMs)) :=
  ⟨_, rfl, fun _ _ hr hw he hne => run_looking hr hw he hne _⟩

/-- A mutation function of a lease. -/
theorem findsConflict_leaseMutationGuard (next : TermStore → Mutating Term) :
    FindsConflict Γ J server request (.ok (leaseMutationGuard server request cancelled next)) :=
  ⟨_, rfl, fun _ _ hr hw he hne => run_looking hr hw he hne _⟩

theorem findsConflict_bind {α : Type} {x : Except Fault α} {a : α} {f : α → Except Fault (Mutating Term)} (hx : x = .ok a)
    (hf : FindsConflict Γ J server request (f a)) : FindsConflict Γ J server request (x >>= f) := by
  rw [hx]
  exact hf

/-- An option of a triple. -/
theorem mapM_requireTriple {fence : Option Term} {label : String} {triple : Option Triple}
    (h : fence.mapM (requireTriple · label) = .ok triple) : fence = triple.map Triple.term := by
  cases fence with
  | none =>
    cases h
    rfl
  | some t =>
    obtain ⟨p, hp, h⟩ := bind_eq_ok_iff.1 h
    cases h
    rw [requireTriple_eq_ok_iff.1 hp]
    rfl

theorem mapM_requireTriple_map (fence : Option Triple) (label : String) :
    (fence.map Triple.term).mapM (requireTriple · label) = .ok fence := by
  cases fence <;> rfl

theorem spares_mapM_requireTriple (fence : Option Term) (label : String) : Spares (fence.mapM (requireTriple · label)) := by
  cases fence with
  | none => exact spares_ok _
  | some t => exact spares_bind (spares_requireTriple _ _) fun _ => spares_ok _

/-- A write finds the conflict exactly when its payload is well formed. -/
theorem decides_handleWrite (operation : Action) :
    Decides Γ J server request (WriteRecord request.payload) (handleWrite Γ server request operation cancelled nowMs) := by
  by_cases h : WriteRecord request.payload
  · refine .inl ⟨h, ?_⟩
    obtain ⟨proposition, policy, fence, hpayload, hpolicy⟩ := h
    obtain ⟨p, hp⟩ := Option.isSome_iff_exists.1 hpolicy
    have hparsed : handleWrite Γ server request operation cancelled nowMs =
        .ok (mutationPayload Γ server request [⟨operation, proposition, p⟩] fence cancelled nowMs) := by
      refine bind_eq_ok_iff.2 ⟨_, (recordFields_eq_ok_iff (by decide)).2 ⟨hpayload, rfl⟩, ?_⟩
      refine bind_eq_ok_iff.2 ⟨_, optionValue_eq_ok_iff.2 rfl, ?_⟩
      rw [requireTriple_eq_ok_iff.2 rfl, parsePolicy_eq_ok_iff.2 hp, mapM_requireTriple_map]
      rfl
    rw [hparsed]
    exact findsConflict_mutationPayload _ _
  · refine .inr ⟨h, malformed_bind (spares_recordFields _ _ _) fun fields hfields => ?_⟩
    obtain ⟨proposition, policy, fenceOption, rfl, hpayload⟩ := recordFields_three hfields
    refine malformed_bind (spares_optionValue _) fun fence hfence => ?_
    refine malformed_orThrow (spares_requireTriple _ _) fun triple htriple => ?_
    refine malformed_orThrow (spares_parsePolicy _) fun p hp => ?_
    refine malformed_orThrow (spares_mapM_requireTriple _ _) fun f hf => ?_
    refine absurd ⟨triple, policy, f, ?_, by rw [parsePolicy_eq_ok_iff.1 hp]; rfl⟩ h
    rw [hpayload, requireTriple_eq_ok_iff.1 htriple, optionValue_eq_ok_iff.1 hfence, mapM_requireTriple hf]

/-- The actions of a batch are parsed exactly when each is one. -/
theorem mapM_parseAction_iff {values : List Term} :
    (∃ actions, values.mapM parseAction = .ok actions) ↔ ∀ value ∈ values, ActionRecord value := by
  constructor
  · rintro ⟨actions, h⟩ value hvalue
    obtain ⟨action, -, haction⟩ := ExceptList.exists_mem_of_mapM h hvalue
    exact parseAction_eq_ok_iff.1 ⟨action, haction⟩
  · intro h
    induction values with
    | nil => exact ⟨[], rfl⟩
    | cons value values ih =>
      rw [List.forall_mem_cons] at h
      obtain ⟨action, haction⟩ := parseAction_eq_ok_iff.2 h.1
      obtain ⟨actions, hactions⟩ := ih h.2
      refine ⟨action :: actions, ?_⟩
      rw [List.mapM_cons, haction, hactions]
      rfl

theorem isEmpty_of_mapM {values : List Term} {actions : List ServerAction} (h : values.mapM parseAction = .ok actions) :
    actions.isEmpty = values.isEmpty := by
  cases ExceptList.mapM_eq_ok_iff.1 h <;> rfl

/-- A batch finds the conflict exactly when its payload is well formed. -/
theorem decides_handleBatch : Decides Γ J server request (BatchRecord request.payload) (handleBatch Γ server request cancelled nowMs) := by
  have hbound : rpcV2MaxBatchActions ≤ maxListValues := by decide
  by_cases h : BatchRecord request.payload
  · refine .inl ⟨h, ?_⟩
    obtain ⟨values, fence, hpayload, hvalues, hlen, hall⟩ := h
    obtain ⟨actions, hactions⟩ := mapM_parseAction_iff.2 hall
    have hempty : actions.isEmpty = false := by
      rw [isEmpty_of_mapM hactions]
      exact List.isEmpty_eq_false_iff.2 hvalues
    have hparsed : handleBatch Γ server request cancelled nowMs =
        .ok (mutationPayload Γ server request actions fence cancelled nowMs) := by
      refine bind_eq_ok_iff.2 ⟨_, (recordFields_eq_ok_iff (by decide)).2 ⟨hpayload, rfl⟩, ?_⟩
      refine bind_eq_ok_iff.2 ⟨_, (listValues_eq_ok_iff (by omega)).2 rfl, ?_⟩
      rw [if_neg (by omega : ¬rpcV2MaxBatchActions < values.length)]
      refine bind_eq_ok_iff.2 ⟨_, hactions, bind_eq_ok_iff.2 ⟨_, optionValue_eq_ok_iff.2 rfl, ?_⟩⟩
      rw [hempty, if_neg Bool.false_ne_true, mapM_requireTriple_map]
      rfl
    rw [hparsed]
    exact findsConflict_mutationPayload _ _
  · refine .inr ⟨h, malformed_bind (spares_recordFields _ _ _) fun fields hfields => ?_⟩
    obtain ⟨actionList, fenceOption, rfl, hpayload⟩ := recordFields_two hfields
    refine malformed_bind (spares_listValues _) fun values hvalues => ?_
    split
    · exact malformed_error (by simp)
    · rename_i hlen
      refine malformed_bind (spares_mapM spares_parseAction) fun actions hactions => ?_
      refine malformed_bind (spares_optionValue _) fun fence hfence => ?_
      split
      · exact malformed_error (by simp)
      · rename_i hempty
        refine malformed_orThrow (spares_mapM_requireTriple _ _) fun f hf => ?_
        refine absurd ⟨values, f, ?_, ?_, by omega, mapM_parseAction_iff.1 ⟨actions, hactions⟩⟩ h
        · rw [hpayload, (listValues_eq_ok_iff (by omega)).1 hvalues, optionValue_eq_ok_iff.1 hfence, mapM_requireTriple hf]
        · rw [isEmpty_of_mapM hactions] at hempty
          rintro rfl
          exact hempty rfl

theorem requirePositive_eq_ok_iff {ttlMs : Int} : requirePositive ttlMs = .ok () ↔ 0 < ttlMs := by
  unfold requirePositive
  split
  · rename_i h
    exact ⟨fun _ => h, fun _ => rfl⟩
  · rename_i h
    constructor
    · intro hok
      cases hok
    · intro hpos
      exact absurd hpos h

/-- An acquisition finds the conflict exactly when its payload is well formed. -/
theorem decides_handleLeaseAcquire :
    Decides Γ J server request (AcquireRecord request.payload) (handleLeaseAcquire Γ server request cancelled nowMs) := by
  by_cases h : AcquireRecord request.payload
  · refine .inl ⟨h, ?_⟩
    obtain ⟨resource, holder, ttlMs, hpayload, hpos⟩ := h
    refine findsConflict_bind ((recordFields_eq_ok_iff (by decide)).2 ⟨hpayload, rfl⟩) ?_
    refine findsConflict_bind (requireInt_eq_ok_iff.2 rfl) (findsConflict_bind (requirePositive_eq_ok_iff.2 hpos) ?_)
    exact findsConflict_leaseMutationGuard _
  · refine .inr ⟨h, malformed_bind (spares_recordFields _ _ _) fun fields hfields => ?_⟩
    obtain ⟨resource, holder, ttl, rfl, hpayload⟩ := recordFields_three hfields
    refine malformed_bind (spares_requireInt _ _) fun ttlMs httl => ?_
    refine malformed_bind (spares_requirePositive _) fun _ hpos => ?_
    refine absurd ⟨resource, holder, ttlMs, ?_, requirePositive_eq_ok_iff.1 hpos⟩ h
    rw [hpayload, requireInt_eq_ok_iff.1 httl]

/-- A renewal finds the conflict exactly when its payload is well formed. -/
theorem decides_handleLeaseRenew :
    Decides Γ J server request (RenewRecord request.payload) (handleLeaseRenew Γ server request cancelled nowMs) := by
  by_cases h : RenewRecord request.payload
  · refine .inl ⟨h, ?_⟩
    obtain ⟨value, ttlMs, hpayload, ⟨fence, hfence⟩, hpos⟩ := h
    refine findsConflict_bind ((recordFields_eq_ok_iff (by decide)).2 ⟨hpayload, rfl⟩) ?_
    refine findsConflict_bind (parseFence_eq_ok_iff.2 hfence) (findsConflict_bind (requireInt_eq_ok_iff.2 rfl) ?_)
    refine findsConflict_bind (requirePositive_eq_ok_iff.2 hpos) ?_
    exact findsConflict_leaseMutationGuard _
  · refine .inr ⟨h, malformed_bind (spares_recordFields _ _ _) fun fields hfields => ?_⟩
    obtain ⟨value, ttl, rfl, hpayload⟩ := recordFields_two hfields
    refine malformed_bind (spares_parseFence _) fun fence hfence => ?_
    refine malformed_bind (spares_requireInt _ _) fun ttlMs httl => ?_
    refine malformed_bind (spares_requirePositive _) fun _ hpos => ?_
    refine absurd ⟨value, ttlMs, ?_, ⟨fence, parseFence_eq_ok_iff.1 hfence⟩, requirePositive_eq_ok_iff.1 hpos⟩ h
    rw [hpayload, requireInt_eq_ok_iff.1 httl]

/-- A release finds the conflict exactly when its payload is well formed. -/
theorem decides_handleLeaseRelease :
    Decides Γ J server request (FenceRecord request.payload) (handleLeaseRelease Γ server request cancelled) := by
  by_cases h : FenceRecord request.payload
  · refine .inl ⟨h, ?_⟩
    obtain ⟨fence, hfence⟩ := h
    exact findsConflict_bind (parseFence_eq_ok_iff.2 hfence) (findsConflict_leaseMutationGuard _)
  · refine .inr ⟨h, malformed_bind (spares_parseFence _) fun fence hfence => ?_⟩
    exact absurd ⟨fence, parseFence_eq_ok_iff.1 hfence⟩ h

/-! ## Operations -/

/-- The payload of an operation that only reads is not looked at here. -/
theorem wellFormed_of_readOnly (h : readOnlyRpcOperations.contains request.op.spelling = true) : WellFormed request := by
  have hother : ∀ spelling, request.op = ⟨spelling⟩ → readOnlyRpcOperations.contains spelling = true := by
    intro spelling hop
    rw [hop] at h
    exact h
  refine ⟨fun hop => ?_, fun hop => ?_, fun hop => ?_, fun hop => ?_, fun hop => ?_⟩
  · rcases hop with hop | hop
    · exact absurd (hother _ hop) (by decide)
    · exact absurd (hother _ hop) (by decide)
  · exact absurd (hother _ hop) (by decide)
  · exact absurd (hother _ hop) (by decide)
  · exact absurd (hother _ hop) (by decide)
  · exact absurd (hother _ hop) (by decide)

/-- An operation that does not only read is a mutation. -/
theorem mutation_of_native (hn : nativeRpcOperations.contains request.op.spelling = true)
    (hr : readOnlyRpcOperations.contains request.op.spelling = false) :
    (request.op = ⟨"rpc/assert"⟩ ∨ request.op = ⟨"rpc/retract"⟩) ∨ request.op = ⟨"rpc/batch"⟩ ∨ request.op = ⟨"rpc/lease-acquire"⟩ ∨
      request.op = ⟨"rpc/lease-renew"⟩ ∨ request.op = ⟨"rpc/lease-release"⟩ := by
  have hspelling : ∀ spelling ∈ nativeRpcOperations, readOnlyRpcOperations.contains spelling = false →
      (spelling = "rpc/assert" ∨ spelling = "rpc/retract") ∨ spelling = "rpc/batch" ∨ spelling = "rpc/lease-acquire" ∨
        spelling = "rpc/lease-renew" ∨ spelling = "rpc/lease-release" := by decide
  have h := hspelling _ (List.contains_iff_mem.1 hn) hr
  have hkeyword : ∀ spelling, request.op.spelling = spelling → request.op = ⟨spelling⟩ := fun spelling h => congrArg Keyword.mk h
  rcases h with (h | h) | h | h | h | h
  · exact .inl (.inl (hkeyword _ h))
  · exact .inl (.inr (hkeyword _ h))
  · exact .inr (.inl (hkeyword _ h))
  · exact .inr (.inr (.inl (hkeyword _ h)))
  · exact .inr (.inr (.inr (.inl (hkeyword _ h))))
  · exact .inr (.inr (.inr (.inr (hkeyword _ h))))

theorem Decides.congr {P Q : Prop} {parsed : Except Fault (Mutating Term)} (h : Decides Γ J server request P parsed) (hiff : Q ↔ P) :
    Decides Γ J server request Q parsed := by
  unfold Decides
  rw [hiff]
  exact h

/-- A mutation finds the conflict exactly when its payload is well formed. -/
theorem decides_mutationOf (hn : nativeRpcOperations.contains request.op.spelling = true)
    (hr : readOnlyRpcOperations.contains request.op.spelling = false) :
    Decides Γ J server request (WellFormed request) (mutationOf Γ server request cancelled nowMs) := by
  have hother : ∀ {a b : String} {P : Prop}, request.op = ⟨a⟩ → a ≠ b → request.op = ⟨b⟩ → P := by
    intro a b P ha hab hb
    rw [ha] at hb
    exact absurd (congrArg Keyword.spelling hb) hab
  have hwrite : ∀ {a : String} {P : Prop}, request.op = ⟨a⟩ → a ≠ "rpc/assert" → a ≠ "rpc/retract" →
      request.op = ⟨"rpc/assert"⟩ ∨ request.op = ⟨"rpc/retract"⟩ → P := by
    intro a P ha hassert hretract h
    rcases h with h | h
    · exact hother ha hassert h
    · exact hother ha hretract h
  rcases mutation_of_native hn hr with hop | hop | hop | hop | hop
  · have hiff : WellFormed request ↔ WriteRecord request.payload := by
      refine ⟨fun h => h.write hop, fun h => ⟨fun _ => h, ?_, ?_, ?_, ?_⟩⟩ <;>
        rcases hop with hop | hop <;> exact hother hop (by decide)
    rcases hop with hop | hop
    · have hparsed : mutationOf Γ server request cancelled nowMs = handleWrite Γ server request .assert cancelled nowMs := by
        simp [mutationOf, hop]
      rw [hparsed]
      exact (decides_handleWrite .assert).congr hiff
    · have hparsed : mutationOf Γ server request cancelled nowMs = handleWrite Γ server request .retract cancelled nowMs := by
        simp [mutationOf, hop]
      rw [hparsed]
      exact (decides_handleWrite .retract).congr hiff
  · have hparsed : mutationOf Γ server request cancelled nowMs = handleBatch Γ server request cancelled nowMs := by
      simp [mutationOf, hop]
    rw [hparsed]
    refine decides_handleBatch.congr ⟨fun h => h.batch hop, fun h => ⟨hwrite hop (by decide) (by decide), fun _ => h, ?_, ?_, ?_⟩⟩
    all_goals exact hother hop (by decide)
  · have hparsed : mutationOf Γ server request cancelled nowMs = handleLeaseAcquire Γ server request cancelled nowMs := by
      simp [mutationOf, hop]
    rw [hparsed]
    refine decides_handleLeaseAcquire.congr
      ⟨fun h => h.acquire hop, fun h => ⟨hwrite hop (by decide) (by decide), ?_, fun _ => h, ?_, ?_⟩⟩
    all_goals exact hother hop (by decide)
  · have hparsed : mutationOf Γ server request cancelled nowMs = handleLeaseRenew Γ server request cancelled nowMs := by
      simp [mutationOf, hop]
    rw [hparsed]
    refine decides_handleLeaseRenew.congr
      ⟨fun h => h.renew hop, fun h => ⟨hwrite hop (by decide) (by decide), ?_, ?_, fun _ => h, ?_⟩⟩
    all_goals exact hother hop (by decide)
  · have hparsed : mutationOf Γ server request cancelled nowMs = handleLeaseRelease Γ server request cancelled := by
      simp [mutationOf, hop]
    rw [hparsed]
    refine decides_handleLeaseRelease.congr
      ⟨fun h => h.release hop, fun h => ⟨hwrite hop (by decide) (by decide), ?_, ?_, ?_, fun _ => h⟩⟩
    all_goals exact hother hop (by decide)

/-! ## The sequencer -/

/-- The sequencer tells what a mutation function throws that asks nothing of its database but to look. -/
theorem sequenceCommit_of_run {mutation : Mutating Term} {fault : Fault} (hw : requireWriter server = .ok ())
    (hs : server.sequencing = true) (hrun : mutation.run (answerQuestion Γ J true) ⟨server.log, server.db, []⟩ =
      (.error fault, ⟨server.log, server.db, []⟩)) : sequenceCommit Γ J server false mutation = (.error fault, server) := by
  have hcommit : commitMutations Γ J server.log server.db [mutation] = ⟨server.db, [], [],
      .ok ⟨[⟨.error fault, currentSequence server.db.termStore⟩], 0, currentSequence server.db.termStore⟩⟩ := by
    simp only [commitMutations, requireMutationReady_of_requireWriter hw, runMutations, runMutation, hrun,
      databaseStore_of_requireWriter hw, bind, Except.bind, if_true]
  simp only [sequenceCommit, checkCancelled, hw, hs, hcommit, Bool.false_eq_true, Bool.true_eq_false, if_false, List.append_nil, Except.map,
    lt_irrefl]
  rw [← hs]

/-- A mutation that the sequencer does not take. -/
theorem sequenceCommit_not_taken (mutation : Mutating Term)
    (h : ¬(cancelled = false ∧ requireWriter server = .ok () ∧ server.sequencing = true)) :
    ∃ fault : Fault, fault.type ≠ ⟨"rpc/conflict"⟩ ∧ (sequenceCommit Γ J server cancelled mutation).1 = .error fault := by
  unfold sequenceCommit
  cases cancelled with
  | true => exact ⟨⟨⟨"rpc/cancelled"⟩, _⟩, by simp, rfl⟩
  | false =>
    cases hw : requireWriter server with
    | error fault => exact ⟨fault, spares_requireWriter server fault hw, rfl⟩
    | ok u =>
      cases hs : server.sequencing with
      | false => exact ⟨⟨⟨"rpc/not-booted"⟩, _⟩, by simp, rfl⟩
      | true => exact absurd ⟨rfl, hw, hs⟩ h

/-- The envelope of a request to a space. -/
theorem checkEnvelope_iff (hspace : request.space = server.db.spaceId) (hn : nativeRpcOperations.contains request.op.spelling = true) :
    checkEnvelope server request = .ok () ↔ (pagedRpcOperations.contains request.op.spelling = true ∨ request.page = none) ∧
      (request.op = ⟨"rpc/query"⟩ ∨ request.timeoutMs = none) := by
  unfold checkEnvelope
  rw [if_neg (not_not.2 hspace), hn, if_neg Bool.noConfusion]
  cases hp : pagedRpcOperations.contains request.op.spelling <;> cases hpage : request.page <;>
    by_cases hop : request.op = ⟨"rpc/query"⟩ <;> cases ht : request.timeoutMs <;> simp [serverFail, hop]

/-- A mutation with a stale version is told of the conflict if it is taken and well formed, and of something else if it is not. -/
theorem mutation_cases (hsync : Synced server) (hn : nativeRpcOperations.contains request.op.spelling = true)
    (hr : readOnlyRpcOperations.contains request.op.spelling = false) (he : request.expectedVersion = some e)
    (hne : e ≠ server.published.version) {handled : Handled × Server}
    (hhandled : ∀ mutation, mutationOf Γ server request cancelled nowMs = .ok mutation →
      handled = sequenceCommit Γ J server cancelled mutation)
    (hfails : ∀ fault, mutationOf Γ server request cancelled nowMs = .error fault → handled = (.error fault, server)) :
    ((WellFormed request ∧ cancelled = false ∧ requireWriter server = .ok () ∧ server.sequencing = true) ∧
        ∃ fault : Fault, fault.type = ⟨"rpc/conflict"⟩ ∧ handled = (.error fault, server)) ∨
      (¬(WellFormed request ∧ cancelled = false ∧ requireWriter server = .ok () ∧ server.sequencing = true) ∧
        ∃ fault : Fault, fault.type ≠ ⟨"rpc/conflict"⟩ ∧ handled.1 = .error fault) := by
  have hdecides : Decides Γ J server request (WellFormed request) (mutationOf Γ server request cancelled nowMs) :=
    decides_mutationOf hn hr
  by_cases htaken : cancelled = false ∧ requireWriter server = .ok () ∧ server.sequencing = true
  · obtain ⟨rfl, hw, hs⟩ := htaken
    rcases hdecides with ⟨hwell, mutation, hparsed, hrun⟩ | ⟨hmal, fault, hfault, hparsed | hparsed⟩
    · rw [hsync (requireMutationReady_of_requireWriter hw)] at hne
      obtain ⟨fault, hfault, hrun⟩ := hrun ⟨server.log, server.db, []⟩ e rfl hw he hne
      exact .inl ⟨⟨hwell, rfl, hw, hs⟩, fault, hfault, (hhandled _ hparsed).trans (sequenceCommit_of_run hw hs hrun)⟩
    · exact .inr ⟨fun h => hmal h.1, fault, hfault, by rw [hfails _ hparsed]⟩
    · refine .inr ⟨fun h => hmal h.1, fault, hfault, ?_⟩
      rw [hhandled _ hparsed, sequenceCommit_of_run hw hs rfl]
  · refine .inr ⟨fun h => htaken h.2, ?_⟩
    rcases hdecides with ⟨-, mutation, hparsed, -⟩ | ⟨-, fault, hfault, hparsed | hparsed⟩
    · rw [hhandled _ hparsed]
      exact sequenceCommit_not_taken _ htaken
    · exact ⟨fault, hfault, by rw [hfails _ hparsed]⟩
    · rw [hhandled _ hparsed]
      exact sequenceCommit_not_taken _ htaken

/-- A request with a stale version is told of the conflict if it is unhindered, and of something else if it is not. -/
theorem serve_cases {A : Answers} (hsync : Synced server) (hspace : request.space = server.db.spaceId)
    (hn : nativeRpcOperations.contains request.op.spelling = true) (he : request.expectedVersion = some e)
    (hne : e ≠ server.published.version) : (Unhindered server request cancelled ∧
        ∃ fault : Fault, fault.type = ⟨"rpc/conflict"⟩ ∧ serve Γ J A server request cancelled nowMs = (.error fault, server)) ∨
      (¬Unhindered server request cancelled ∧
        ∃ fault : Fault, fault.type ≠ ⟨"rpc/conflict"⟩ ∧ (serve Γ J A server request cancelled nowMs).1 = .error fault) := by
  cases henvelope : checkEnvelope server request with
  | error fault =>
    refine .inr ⟨fun h => ?_, fault, spares_checkEnvelope server request fault henvelope, by rw [serve, henvelope]⟩
    rw [(checkEnvelope_iff hspace hn).2 ⟨h.page, h.timeout⟩] at henvelope
    cases henvelope
  | ok u =>
    obtain ⟨hpage, htimeout⟩ := (checkEnvelope_iff hspace hn).1 henvelope
    cases hr : readOnlyRpcOperations.contains request.op.spelling with
    | true =>
      refine .inl ⟨⟨hpage, htimeout, wellFormed_of_readOnly hr, .inl hr⟩,
        ⟨⟨"rpc/conflict"⟩, "expected-version does not match current version"⟩, rfl, ?_⟩
      simp only [serve, henvelope, hr, if_true, requireVersionExpected_stale he hne]
      rfl
    | false =>
      rcases @mutation_cases Γ J server request cancelled nowMs e hsync hn hr he hne (serve Γ J A server request cancelled nowMs)
        (fun mutation hparsed => by simp only [serve, henvelope, hr, hparsed, Bool.false_eq_true, if_false])
        (fun fault hparsed => by simp only [serve, henvelope, hr, hparsed, Bool.false_eq_true, if_false]) with
        ⟨⟨hwell, htaken⟩, hconflict⟩ | ⟨hnot, hother⟩
      · exact .inl ⟨⟨hpage, htimeout, hwell, .inr htaken⟩, hconflict⟩
      · refine .inr ⟨fun h => ?_, hother⟩
        rcases h.mutation with hr' | htaken
        · rw [hr] at hr'
          cases hr'
        · exact hnot ⟨h.payload, htaken⟩

end Handlers

/-! ## The version first -/

/-- A failure is told as a conflict exactly when it is one. -/
theorem tellsConflict_respond_iff {request : RpcRequest} {fault : Fault} {version : Int} :
    TellsConflict (respond request (.error fault) version) ↔ fault.type = ⟨"rpc/conflict"⟩ := by
  have hcode : codeOf fault = ⟨"rpc/conflict"⟩ ↔ fault.type = ⟨"rpc/conflict"⟩ := by
    unfold codeOf
    split
    · rename_i hhost
      constructor
      · intro h
        exact absurd (congrArg Keyword.spelling h) (by decide)
      · intro h
        rw [h] at hhost
        exact absurd hhost (by decide)
    · exact Iff.rfl
  constructor
  · rintro ⟨error, herror, h⟩
    cases herror
    exact hcode.1 h
  · intro h
    exact ⟨_, rfl, hcode.2 h⟩

/-- A request of a reachable server, whose space is the server's and whose expected version is not the current one. The native server
always answers that there is a conflict, and changes nothing. The JVM's does so exactly when the request is unhindered. -/
theorem version_first (Γ : Host) (J : Gzip) (A : Answers) (R : Reads) (request : RpcRequest) (e : Int)
    (he : request.expectedVersion = some e) :
    (∀ (session : Session) (nowMs : Int), session.store.spaceId = request.space → e ≠ currentSequence session.store →
      ∃ response, Dispatch.dispatch Γ R session request nowMs = .ok (session, response) ∧ TellsConflict response) ∧
    ∀ (server fresh : Server) (cancelled : Bool) (nowMs : Int), Reached Γ J A server → refreshStandby Γ J server = .ok fresh →
      request.space = fresh.db.spaceId → nativeRpcOperations.contains request.op.spelling = true → e ≠ fresh.published.version →
        ((TellsConflict (handleRpcRequest Γ J A (some server) request cancelled nowMs).1 ∧
            (handleRpcRequest Γ J A (some server) request cancelled nowMs).2 = some fresh) ↔
          Unhindered fresh request cancelled) := by
  constructor
  · intro session nowMs hspace hne
    refine ⟨errorResponse request (currentSequence session.store) "rpc/conflict" true
      "expected-version does not match the served version", ?_, ⟨_, rfl, rfl⟩⟩
    have hstale : expectedVersionMatches (currentSequence session.store) request.expectedVersion = false := by
      simp [expectedVersionMatches, he, Ne.symm hne]
    simp [Dispatch.dispatch, hspace, hstale]
  · intro server fresh cancelled nowMs hreached hfresh hspace hn hne
    have hhandled : handleRpcRequest Γ J A (some server) request cancelled nowMs =
        (respond request (serve Γ J A fresh request cancelled nowMs).1
          (serve Γ J A fresh request cancelled nowMs).2.published.version, some (serve Γ J A fresh request cancelled nowMs).2) := by
      simp only [handleRpcRequest, hfresh]
    rw [hhandled]
    rcases @serve_cases Γ J fresh request cancelled nowMs e A (hreached.synced.refreshStandby hfresh) hspace hn he hne with
      ⟨hunhindered, fault, hfault, hserve⟩ | ⟨hhindered, fault, hfault, hserve⟩
    · rw [hserve]
      exact ⟨fun _ => hunhindered, fun _ => ⟨tellsConflict_respond_iff.2 hfault, rfl⟩⟩
    · rw [hserve]
      exact ⟨fun h => absurd (tellsConflict_respond_iff.1 h.1) hfault, fun h => absurd h hhindered⟩

/-- Answers to no read. -/
def noAnswers : Answers := ⟨fun _ _ => serverFail "rpc/unsupported-operation" "operation is not part of FRAMRPC v2"⟩

/-- Reads that answer nothing. -/
def noReads : Reads :=
  ⟨fun _ => "", fun _ _ => serverFail "rpc/native-operation-unavailable" "", fun _ _ => serverFail "rpc/native-operation-unavailable" "",
    fun _ _ => serverFail "rpc/native-operation-unavailable" ""⟩

/-- The version is asked for, with a stale one expected. -/
theorem version_first_asked : ∃ db, openDatabase Host.zero storingGzip (headerBytes "s") none true = .ok (db, headerBytes "s") ∧
    TellsConflict (handleRpcRequest Host.zero storingGzip noAnswers (some ⟨headerBytes "s", db, snapshotOf db, true, true, true⟩)
      ⟨"s", ⟨"rpc/version"⟩, some 7, none, none, .kw "rpc/unit"⟩ false 0).1 := by
  have hopened : ((openDatabase Host.zero storingGzip (headerBytes "s") none true).toOption.any fun r => decide (r.2 = headerBytes "s") &&
      (decide (r.1.spaceId = "s") && decide (currentSequence r.1.termStore = 0))) = true := by with_unfolding_all decide
  cases ho : openDatabase Host.zero storingGzip (headerBytes "s") none true with
  | error fault =>
    rw [ho] at hopened
    cases hopened
  | ok r =>
    obtain ⟨db, log⟩ := r
    simp only [ho, Except.toOption, Option.any_some, Bool.and_eq_true, decide_eq_true_eq] at hopened
    obtain ⟨rfl, hspace, hsequence⟩ := hopened
    refine ⟨db, rfl, (((version_first Host.zero storingGzip noAnswers noReads ⟨"s", ⟨"rpc/version"⟩, some 7, none, none, .kw "rpc/unit"⟩ 7
      rfl).2 ⟨headerBytes "s", db, snapshotOf db, true, true, true⟩ ⟨headerBytes "s", db, snapshotOf db, true, true, true⟩ false 0
      (.boot ho) rfl hspace.symm (by decide) ?_).2 ⟨.inr rfl, .inr rfl, wellFormed_of_readOnly (by decide), .inl (by decide)⟩).1⟩
    simp [snapshotOf, hsequence]

/-- The version is asked for with a page, and a triple asserted that is none: the page and the payload are told of, not the version. -/
theorem version_first_hindered : ∃ db, openDatabase Host.zero storingGzip (headerBytes "s") none true = .ok (db, headerBytes "s") ∧
    Reached Host.zero storingGzip noAnswers ⟨headerBytes "s", db, snapshotOf db, true, true, true⟩ ∧
    db.spaceId = "s" ∧ currentSequence db.termStore = 0 ∧
    ∀ request ∈ [⟨"s", ⟨"rpc/version"⟩, some 7, some ⟨1, none⟩, none, .kw "rpc/unit"⟩,
        ⟨"s", ⟨"rpc/assert"⟩, some 7, none, none, .int 0⟩],
      ¬TellsConflict (handleRpcRequest Host.zero storingGzip noAnswers (some ⟨headerBytes "s", db, snapshotOf db, true, true, true⟩)
        request false 0).1 := by
  have hrun : ∀ request ∈ [(⟨"s", ⟨"rpc/version"⟩, some 7, some ⟨1, none⟩, none, .kw "rpc/unit"⟩ : RpcRequest),
      ⟨"s", ⟨"rpc/assert"⟩, some 7, none, none, .int 0⟩],
      ((openDatabase Host.zero storingGzip (headerBytes "s") none true).toOption.any fun r => decide (r.2 = headerBytes "s") &&
        (decide (r.1.spaceId = "s") && (decide (currentSequence r.1.termStore = 0) &&
          !(handleRpcRequest Host.zero storingGzip noAnswers (some ⟨headerBytes "s", r.1, snapshotOf r.1, true, true, true⟩)
            request false 0).1.error.any fun error => decide (error.code = ⟨"rpc/conflict"⟩)))) = true := by with_unfolding_all decide
  cases ho : openDatabase Host.zero storingGzip (headerBytes "s") none true with
  | error fault =>
    have h := hrun _ List.mem_cons_self
    rw [ho] at h
    cases h
  | ok r =>
    obtain ⟨db, log⟩ := r
    simp only [ho, Except.toOption, Option.any_some, Bool.and_eq_true, decide_eq_true_eq] at hrun
    obtain ⟨rfl, hspace, hsequence, -⟩ := hrun _ List.mem_cons_self
    refine ⟨db, rfl, .boot ho, hspace, hsequence, fun request hrequest => ?_⟩
    obtain ⟨-, -, -, hnone⟩ := hrun request hrequest
    rintro ⟨error, herror, hcode⟩
    rw [herror] at hnone
    simp [hcode] at hnone

end Fram.JvmServer
