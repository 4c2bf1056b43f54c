import Fram.JvmServer
import Fram.Lemmas.Rpc
import Fram.Lib.ExceptList

/-!
# Requests of the JVM's server

What the parsers of payloads accept, and that no failure of theirs is a conflict (`Spares`). What a server has published is what its
database holds, as long as the database takes mutations (`Reached.synced`).
-/

namespace Fram.JvmServer

open Database Framrpc
open ExceptList (bind_eq_ok_iff)

variable {α β : Type}
variable {value : Term} {tag : String} {fields : List Term}

/-! ## Failures that are no conflicts -/

/-- What it throws, if it throws, is no conflict. -/
def Spares (x : Except Fault α) : Prop := ∀ fault, x = .error fault → fault.type ≠ ⟨"rpc/conflict"⟩

theorem spares_ok (a : α) : Spares (.ok a : Except Fault α) := by
  intro fault h
  cases h

theorem spares_error {fault : Fault} (h : fault.type ≠ ⟨"rpc/conflict"⟩) : Spares (.error fault : Except Fault α) := by
  intro fault' h'
  cases h'
  exact h

theorem spares_bind {x : Except Fault α} {f : α → Except Fault β} (hx : Spares x) (hf : ∀ a, Spares (f a)) : Spares (x >>= f) := by
  intro fault h
  cases x with
  | error fault' =>
    cases h
    exact hx fault rfl
  | ok a => exact hf a fault h

theorem spares_mapM {f : α → Except Fault β} {values : List α} (hf : ∀ a, Spares (f a)) : Spares (values.mapM f) := by
  induction values with
  | nil => exact spares_ok _
  | cons a values ih =>
    rw [List.mapM_cons]
    exact spares_bind (hf a) fun b => spares_bind ih fun bs => spares_ok _

theorem spares_listValues (value : Term) : Spares (listValues value) := by
  unfold listValues
  split
  · exact spares_ok _
  · exact spares_error (by simp [codecFail])

theorem spares_recordFields (value : Term) (tag : String) (count : Nat) : Spares (recordFields value tag count) := by
  unfold recordFields
  split
  · split
    · refine spares_bind (spares_listValues _) fun fields => ?_
      split
      · exact spares_ok _
      · exact spares_error (by simp [codecFail])
    · exact spares_error (by simp [codecFail])
  · exact spares_error (by simp [codecFail])

theorem spares_optionValue (value : Term) : Spares (optionValue value) := by
  unfold optionValue
  split
  · exact spares_ok _
  · exact spares_error (by simp [codecFail])

theorem spares_requireTriple (value : Term) (label : String) : Spares (requireTriple value label) := by
  unfold requireTriple
  split
  · exact spares_ok _
  · exact spares_error (by simp)

theorem spares_requireInt (value : Term) (label : String) : Spares (requireInt value label) := by
  unfold requireInt
  split
  · exact spares_ok _
  · exact spares_error (by simp)

theorem spares_requireKeyword (value : Term) (label : String) : Spares (requireKeyword value label) := by
  unfold requireKeyword
  split
  · exact spares_ok _
  · exact spares_error (by simp)

theorem spares_requirePositive (ttlMs : Int) : Spares (requirePositive ttlMs) := by
  unfold requirePositive
  split
  · exact spares_ok _
  · exact spares_error (by simp)

theorem spares_parseFence (value : Term) : Spares (parseFence value) := by
  refine spares_bind (spares_recordFields _ _ _) fun fields => ?_
  split
  · exact spares_bind (spares_requireInt _ _) fun _ => spares_ok _
  · exact spares_error (by simp [codecFail])

theorem spares_parsePolicy (value : Term) : Spares (parsePolicy value) := by
  refine spares_bind (spares_requireKeyword _ _) fun _ => ?_
  split
  · exact spares_ok _
  · exact spares_error (by simp)

theorem spares_parseAction (value : Term) : Spares (parseAction value) := by
  refine spares_bind (spares_recordFields _ _ _) fun fields => ?_
  split
  · refine spares_bind (spares_requireKeyword _ _) fun _ => ?_
    split
    · exact spares_error (by simp)
    · exact spares_bind (spares_requireTriple _ _) fun _ => spares_bind (spares_parsePolicy _) fun _ => spares_ok _
  · exact spares_error (by simp [codecFail])

theorem spares_requireMutationReady (db : Db) : Spares (requireMutationReady db) := by
  unfold requireMutationReady
  split
  · exact spares_ok _
  · exact spares_error (by simp)
  · exact spares_error (by simp)

theorem spares_requireWriter (server : Server) : Spares (requireWriter server) := by
  unfold requireWriter
  split
  · exact spares_error (by simp)
  · exact spares_requireMutationReady _

theorem spares_checkEnvelope (server : Server) (request : RpcRequest) : Spares (checkEnvelope server request) := by
  unfold checkEnvelope
  split_ifs
  · exact spares_error (by simp)
  · exact spares_error (by simp)
  · exact spares_error (by simp)
  · exact spares_error (by simp)
  · exact spares_ok _

/-! ## What the parsers accept -/

theorem listValues_eq_ok_iff {values : List Term} (h : values.length ≤ maxListValues) :
    listValues value = .ok values ↔ value = rpcList values := by
  constructor
  · intro hv
    unfold listValues at hv
    split at hv
    · rename_i read hread
      cases hv
      exact eq_rpcList_of_readListFrom hread
    · cases hv
  · rintro rfl
    rw [listValues, readList, readListFrom_rpcList values (by omega)]

theorem recordFields_eq_ok_iff {count : Nat} (hc : count ≤ maxListValues) :
    recordFields value tag count = .ok fields ↔ value = (rpcRecord tag fields).term ∧ fields.length = count := by
  constructor
  · intro h
    unfold recordFields at h
    split at h
    · split at h
      · rename_i t1 t2 t3 hk
        obtain ⟨fields', hread, h⟩ := bind_eq_ok_iff.1 h
        split at h
        · rename_i hlen
          cases h
          rw [(listValues_eq_ok_iff (by omega)).1 hread, hk.1, hk.2]
          exact ⟨rfl, hlen⟩
        · cases h
      · cases h
    · cases h
  · rintro ⟨rfl, rfl⟩
    simp only [rpcRecord, Triple.term, recordFields, and_self, if_true, (listValues_eq_ok_iff hc).2 rfl, bind, Except.bind]

/-- A record of three fields. -/
theorem recordFields_three (h : recordFields value tag 3 = .ok fields) :
    ∃ a b c, fields = [a, b, c] ∧ value = (rpcRecord tag [a, b, c]).term := by
  obtain ⟨hvalue, hlen⟩ := (recordFields_eq_ok_iff (by decide)).1 h
  obtain ⟨a, b, c, rfl⟩ := List.length_eq_three.1 hlen
  exact ⟨a, b, c, rfl, hvalue⟩

/-- A record of two fields. -/
theorem recordFields_two (h : recordFields value tag 2 = .ok fields) : ∃ a b, fields = [a, b] ∧ value = (rpcRecord tag [a, b]).term := by
  obtain ⟨hvalue, hlen⟩ := (recordFields_eq_ok_iff (by decide)).1 h
  obtain ⟨a, b, rfl⟩ := List.length_eq_two.1 hlen
  exact ⟨a, b, rfl, hvalue⟩

theorem optionValue_eq_ok_iff {option : Option Term} : optionValue value = .ok option ↔ value = rpcOption option := by
  constructor
  · intro h
    unfold optionValue at h
    split at h
    · rename_i read hread
      cases h
      exact eq_rpcOption_of_readOption hread
    · cases h
  · rintro rfl
    cases option <;> simp [optionValue, readOption, rpcOption, Term.kw]

theorem requireTriple_eq_ok_iff {label : String} {triple : Triple} : requireTriple value label = .ok triple ↔ value = triple.term := by
  constructor
  · intro h
    cases value with
    | atom a => cases h
    | triple t1 t2 t3 =>
      cases h
      rfl
  · rintro rfl
    rfl

theorem requireInt_eq_ok_iff {label : String} {n : Int} : requireInt value label = .ok n ↔ value = .int n := by
  constructor
  · intro h
    unfold requireInt at h
    split at h
    · rename_i m hm
      cases h
      unfold Term.asInt at hm
      split at hm
      · cases hm
        rfl
      · cases hm
    · cases h
  · rintro rfl
    rfl

theorem parseFence_eq_ok_iff {fence : Fence} :
    parseFence value = .ok fence ↔ value = (rpcRecord "rpc/fence" [fence.resource, fence.holder, .int fence.epoch]).term := by
  constructor
  · intro h
    obtain ⟨fields, hfields, hrest⟩ := bind_eq_ok_iff.1 h
    obtain ⟨resource, holder, epoch, rfl, rfl⟩ := recordFields_three hfields
    obtain ⟨n, hn, hrest⟩ := bind_eq_ok_iff.1 hrest
    cases hrest
    rw [requireInt_eq_ok_iff.1 hn]
  · rintro rfl
    exact bind_eq_ok_iff.2 ⟨_, (recordFields_eq_ok_iff (by decide)).2 ⟨rfl, rfl⟩, rfl⟩

theorem parsePolicy_eq_ok_iff {policy : Dispatch.Policy} : parsePolicy value = .ok policy ↔ Dispatch.policyOf value = some policy := by
  constructor
  · intro h
    obtain ⟨-, -, h⟩ := bind_eq_ok_iff.1 h
    split at h
    · rename_i hpolicy
      cases h
      exact hpolicy
    · cases h
  · intro h
    have hkeyword : ∃ k, value = .kw k := by
      unfold Dispatch.policyOf at h
      split at h
      · rename_i hv
        exact ⟨_, hv⟩
      · split at h
        · rename_i hv
          exact ⟨_, hv⟩
        · cases h
    obtain ⟨k, rfl⟩ := hkeyword
    exact bind_eq_ok_iff.2 ⟨⟨k⟩, rfl, by rw [h]⟩

/-- A term is an action of a batch. -/
def ActionRecord (value : Term) : Prop :=
  ∃ (operation : Term) (proposition : Triple) (policy : Term), value = (rpcRecord "rpc/action" [operation, proposition.term, policy]).term ∧
    (Dispatch.actionOf operation).isSome ∧ (Dispatch.policyOf policy).isSome

theorem parseAction_eq_ok_iff : (∃ action, parseAction value = .ok action) ↔ ActionRecord value := by
  constructor
  · rintro ⟨action, h⟩
    obtain ⟨fields, hfields, hrest⟩ := bind_eq_ok_iff.1 h
    obtain ⟨operation, proposition, policy, rfl, rfl⟩ := recordFields_three hfields
    obtain ⟨-, -, hread⟩ := bind_eq_ok_iff.1 hrest
    cases ha : Dispatch.actionOf operation with
    | none =>
      rw [ha] at hread
      cases hread
    | some o =>
      rw [ha] at hread
      obtain ⟨triple, htriple, hread⟩ := bind_eq_ok_iff.1 hread
      obtain ⟨p, hp, -⟩ := bind_eq_ok_iff.1 hread
      rw [requireTriple_eq_ok_iff.1 htriple]
      exact ⟨operation, triple, policy, rfl, by rw [ha]; rfl, by rw [parsePolicy_eq_ok_iff.1 hp]; rfl⟩
  · rintro ⟨operation, proposition, policy, rfl, hoperation, hpolicy⟩
    obtain ⟨o, ho⟩ := Option.isSome_iff_exists.1 hoperation
    obtain ⟨p, hp⟩ := Option.isSome_iff_exists.1 hpolicy
    have hkeyword : ∃ k, operation = .kw k := by
      unfold Dispatch.actionOf at ho
      split at ho
      · rename_i hv
        exact ⟨_, hv⟩
      · split at ho
        · rename_i hv
          exact ⟨_, hv⟩
        · cases ho
    obtain ⟨k, rfl⟩ := hkeyword
    refine ⟨⟨o, proposition, p⟩, ?_⟩
    refine bind_eq_ok_iff.2 ⟨[.kw k, proposition.term, policy], (recordFields_eq_ok_iff (by decide)).2 ⟨rfl, rfl⟩, ?_⟩
    refine bind_eq_ok_iff.2 ⟨⟨k⟩, rfl, ?_⟩
    rw [ho]
    exact bind_eq_ok_iff.2 ⟨proposition, rfl, bind_eq_ok_iff.2 ⟨p, parsePolicy_eq_ok_iff.2 hp, rfl⟩⟩

/-! ## Reachable servers -/

/-- The servers that there are: one that was booted, as the writer of its log or as a standby; one that has handled a request; a standby
whose log another process has written; one that has lost its lock or whose sequencer has stopped. -/
inductive Reached (Γ : Host) (J : Gzip) (A : Answers) : Server → Prop where
  | boot {bytes log : Bytes} {expected : Option String} {active : Bool} {db : Db}
    (h : openDatabase Γ J bytes expected active = .ok (db, log)) : Reached Γ J A ⟨log, db, snapshotOf db, active, active, active⟩
  | request {server after : Server} {request : RpcRequest} {cancelled : Bool} {nowMs : Int} (h : Reached Γ J A server)
    (hafter : (handleRpcRequest Γ J A (some server) request cancelled nowMs).2 = some after) : Reached Γ J A after
  | written {server : Server} (bytes : Bytes) (h : Reached Γ J A server) (hs : server.active = false) :
    Reached Γ J A { server with log := bytes }
  | unlocked {server : Server} (h : Reached Γ J A server) : Reached Γ J A { server with authority := false }
  | stopped {server : Server} (h : Reached Γ J A server) : Reached Γ J A { server with sequencing := false }

/-- A server whose database takes mutations has published it as it is. -/
def Synced (server : Server) : Prop := requireMutationReady server.db = .ok () → server.published = snapshotOf server.db

section Synced

variable {Γ : Host} {J : Gzip} {A : Answers} {server fresh : Server}

theorem Synced.refreshStandby (hs : Synced server) (h : refreshStandby Γ J server = .ok fresh) : Synced fresh := by
  unfold JvmServer.refreshStandby at h
  split at h
  · cases h
    exact hs
  · obtain ⟨⟨db, log⟩, -, h⟩ := bind_eq_ok_iff.1 h
    cases h
    intro _
    rfl

/-- A database that is fenced takes no mutations. -/
theorem requireMutationReady_fenceAndReconcile (log : Bytes) (db : Db) (cause : Fault) :
    requireMutationReady (fenceAndReconcile Γ J log db cause) ≠ .ok () := by
  intro h
  unfold fenceAndReconcile at h
  split at h <;> cases h

/-- A cohort leaves its database, or fences it, or answers that it has written. -/
theorem commitMutations_cases (log : Bytes) (db : Db) (mutations : List (Mutating α)) :
    (commitMutations Γ J log db mutations).db = db ∨ requireMutationReady (commitMutations Γ J log db mutations).db ≠ .ok () ∨
      ∃ answer, (commitMutations Γ J log db mutations).answer = .ok answer ∧ 0 < answer.frameCount := by
  unfold commitMutations
  split
  · exact .inl rfl
  · split
    · exact .inl rfl
    · rename_i results scratch _
      split
      · exact .inl rfl
      · rename_i hdeferred
        dsimp only
        split
        · exact .inr (.inl (requireMutationReady_fenceAndReconcile _ _ _))
        · split
          · exact .inr (.inl (requireMutationReady_fenceAndReconcile _ _ _))
          · exact .inr (.inr ⟨_, rfl, List.length_pos_iff.2 hdeferred⟩)

/-- A server that keeps its database, or has it fenced, needs to publish nothing. -/
theorem Synced.of_db (hs : Synced server) {db : Db} (log : Bytes) (h : db = server.db ∨ requireMutationReady db ≠ .ok ()) :
    Synced { server with log := log, db := db } := by
  intro hready
  rcases h with rfl | hfenced
  · exact hs hready
  · exact absurd hready hfenced

/-- What is published after a sequenced commit is what the database holds, if it is ready. -/
theorem Synced.sequenceCommit (hs : Synced server) (cancelled : Bool) (mutation : Mutating Term) :
    Synced (sequenceCommit Γ J server cancelled mutation).2 := by
  unfold JvmServer.sequenceCommit
  split
  · exact hs
  · split
    · exact hs
    · split
      · exact hs
      · have hcases := @commitMutations_cases _ Γ J server.log server.db [mutation]
        dsimp only
        split
        · rename_i fault hfault
          refine hs.of_db _ ?_
          rcases hcases with hdb | hfenced | ⟨answer, hanswer, -⟩
          · exact .inl hdb
          · exact .inr hfenced
          · rw [hfault] at hanswer
            cases hanswer
        · rename_i answer hanswer
          have hafter : Synced (if 0 < answer.frameCount then
              { server with
                log := server.log ++ (commitMutations Γ J server.log server.db [mutation]).appended
                db := (commitMutations Γ J server.log server.db [mutation]).db
                published := snapshotOf (commitMutations Γ J server.log server.db [mutation]).db }
            else
              { server with
                log := server.log ++ (commitMutations Γ J server.log server.db [mutation]).appended
                db := (commitMutations Γ J server.log server.db [mutation]).db }) := by
            split
            · intro _
              rfl
            · rename_i hcount
              refine hs.of_db _ ?_
              rcases hcases with hdb | hfenced | ⟨answer', hanswer', hpos⟩
              · exact .inl hdb
              · exact .inr hfenced
              · rw [hanswer] at hanswer'
                cases hanswer'
                exact absurd hpos hcount
          split
          · exact hafter
          · exact hafter

theorem Synced.handleRpcRequest (hs : Synced server) {request : RpcRequest} {cancelled : Bool} {nowMs : Int} {after : Server}
    (h : (handleRpcRequest Γ J A (some server) request cancelled nowMs).2 = some after) : Synced after := by
  unfold JvmServer.handleRpcRequest at h
  split at h
  · cases h
  · rename_i server' heq
    cases heq
    split at h
    · cases h
      exact hs
    · rename_i fresh hfresh
      cases h
      have hsfresh := hs.refreshStandby hfresh
      split
      · exact hsfresh
      · split
        · exact hsfresh
        · split
          · exact hsfresh
          · exact hsfresh.sequenceCommit _ _

/-- What a server has published is what its database holds, as long as the database takes mutations. -/
theorem Reached.synced (h : Reached Γ J A server) : Synced server := by
  induction h with
  | boot =>
    intro _
    rfl
  | request _ hafter ih => exact ih.handleRpcRequest hafter
  | written _ _ _ ih => exact ih
  | unlocked _ ih => exact ih
  | stopped _ ih => exact ih

end Synced

end Fram.JvmServer
