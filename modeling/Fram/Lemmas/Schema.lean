import Fram.Lemmas.Scan
import Fram.Lib.Stateful
import Fram.Schema

/-!
# What the writes of a session do

Every write of a schema leaves the session one of a longer history (`Onward`), whether it returns or throws. One that commits a
builder adds one frame, of the builder's operations at the sequence it was pinned to (`SessionFor.commitBuilder`).
-/

namespace Fram

open Stateful

namespace Schema

variable {α : Type} {session' : Session}

theorem lift_eq_ok_iff {result : Except Fault α} {session : Session} {a : α} :
    lift result session = (.ok a, session') ↔ result = .ok a ∧ session = session' := by
  rw [lift, Prod.mk.injEq]

theorem get_eq_ok_iff {session read : Session} :
    (get : SchemaM Session) session = (.ok read, session') ↔ session = read ∧ session = session' := by
  rw [get_run, Prod.mk.injEq, Except.ok.injEq]

theorem pure_eq_ok_iff {a b : α} {session : Session} : (pure a : SchemaM α) session = (.ok b, session') ↔ a = b ∧ session = session' := by
  rw [pure_run, Prod.mk.injEq, Except.ok.injEq]

/-- The second session is of a history that begins with that of the first. -/
def Onward (Γ : Host) (session session' : Session) : Prop :=
  ∀ spaceId frames, SessionFor Γ session spaceId frames → ∃ more, SessionFor Γ session' spaceId (frames ++ more)

section Onward

variable {Γ : Host} {print : Term → String}

theorem Onward.refl (session : Session) : Onward Γ session session := fun _ frames h => ⟨[], by rwa [List.append_nil]⟩

theorem Onward.trans (a b c : Session) (h : Onward Γ a b) (h' : Onward Γ b c) : Onward Γ a c := by
  intro spaceId frames hs
  obtain ⟨more, hmore⟩ := h spaceId frames hs
  obtain ⟨further, hfurther⟩ := h' spaceId _ hmore
  exact ⟨more ++ further, by rwa [← List.append_assoc]⟩

theorem steps_pure (a : α) : Steps (Onward Γ) (pure a : SchemaM α) := Steps.pure Onward.refl a

theorem steps_throw (fault : Fault) : Steps (Onward Γ) (throw fault : SchemaM α) := Steps.throw Onward.refl fault

theorem steps_get : Steps (Onward Γ) (get : SchemaM Session) := Steps.get Onward.refl

theorem steps_bind {β : Type} {m : SchemaM α} {f : α → SchemaM β} (hm : Steps (Onward Γ) m) (hf : ∀ a, Steps (Onward Γ) (f a)) :
    Steps (Onward Γ) (m >>= f) := Steps.bind Onward.trans hm hf

theorem steps_lift (result : Except Fault α) : Steps (Onward Γ) (lift result) := fun session => Onward.refl session

end Onward

end Schema

/-! ## Commits -/

section Commits

variable {Γ : Host} {session : Session} {spaceId : String} {frames : List TransactionFrame}

/-- The builder that a session opens is pinned to its next sequence. -/
theorem SessionFor.openBuilder (h : SessionFor Γ session spaceId frames) :
    Txn.openBuilder session.store = .ok ⟨⟨.str spaceId, txSequence, .int session.store.nextSequence⟩, [], 0⟩ := by
  have hq : 0 ≤ session.store.nextSequence := by
    have := h.represents.advances.next_pos
    omega
  simp only [Txn.openBuilder, h.space, transactionCoordinate_ok (h.space ▸ h.represents.space) hq, bind, Except.bind]
  rfl

/-- A builder that the store takes adds a frame of its operations at the sequence it is pinned to. -/
theorem SessionFor.commitTaken (h : SessionFor Γ session spaceId frames) {builder : Txn.Builder} {store : TermStore} {coordinate : Triple}
    (hc : Txn.commit Γ session.store builder = .ok (store, coordinate)) : ∃ session', Schema.commit Γ builder session = (.ok (), session') ∧
      SessionFor Γ session' spaceId (frames ++ [⟨session.store.nextSequence, builder.operations⟩]) := by
  have ht : commitTransaction Γ session.store builder.operations = .ok (store, coordinate) := by
    unfold Txn.commit at hc
    split at hc
    · cases hc
    · split at hc
      · cases hc
      · exact hc
  obtain ⟨hstore, hrep⟩ := h.represents.appendTransaction ht
  have hspace : store.spaceId = spaceId := by
    rw [show store = _ from hstore]
    exact (@appendValidTransaction_spaceId Γ _ session.store.nextSequence builder.operations).trans h.space
  clear hstore
  obtain ⟨r, hr, hcovers⟩ := refresh_ok (hspace.symm ▸ h.covers) hrep
  refine ⟨⟨store, r, session.orderedResults, session.derivedGeneration⟩, ?_, ⟨hrep, hspace, hspace ▸ hcovers⟩⟩
  simp only [Schema.commit, hc, refreshSession, hr, bind, Except.bind]

/-- The commit of a builder throws and changes nothing, or adds a frame of its operations at the sequence it is pinned to. -/
theorem SessionFor.commitBuilder (h : SessionFor Γ session spaceId frames) (builder : Txn.Builder) :
    (∃ fault, Schema.commit Γ builder session = (.error fault, session)) ∨
      ∃ session', Schema.commit Γ builder session = (.ok (), session') ∧
        SessionFor Γ session' spaceId (frames ++ [⟨session.store.nextSequence, builder.operations⟩]) := by
  cases hc : Txn.commit Γ session.store builder with
  | error fault => exact Or.inl ⟨fault, by simp only [Schema.commit, hc]⟩
  | ok result => exact Or.inr (h.commitTaken hc)

end Commits

namespace Schema

section Writes

variable {Γ : Host} {print : Term → String}

theorem steps_commit (builder : Txn.Builder) : Steps (Onward Γ) (commit Γ builder) := by
  intro session spaceId frames h
  rcases h.commitBuilder builder with ⟨fault, hc⟩ | ⟨session', hc, h'⟩
  · rw [hc]
    exact ⟨[], by rwa [List.append_nil]⟩
  · rw [hc]
    exact ⟨_, h'⟩

theorem steps_refresh : Steps (Onward Γ) (refresh Γ) := by
  intro session spaceId frames h
  have hrep : Represents Γ session.store (frames ++ []) := by
    rw [List.append_nil]
    exact h.represents
  obtain ⟨r, hr, hcovers⟩ := refresh_ok (h.space.symm ▸ h.covers : Covers Γ session.view session.store.spaceId frames) hrep
  rw [List.append_nil, h.space] at hcovers
  refine ⟨[], ?_⟩
  rw [List.append_nil]
  simp only [refresh, refreshSession, hr, bind, Except.bind]
  exact ⟨h.represents, h.space, hcovers⟩

theorem steps_registerPredicate (spelling : String) : Steps (Onward Γ) (registerPredicate Γ print spelling) := by
  unfold registerPredicate
  refine steps_bind steps_get fun session => steps_bind (steps_lift _) fun candidate => ?_
  have hrest (canonical : String) (aliasIds : List Term) (pid : Term) (named : List OperationOccurrence) :
      Steps (Onward Γ) (do
        let builder ← lift (Txn.openBuilder session.store)
        let builder ← lift (assertWhen named.isEmpty builder ⟨pid, .str predicateNamePredicate, .str spelling⟩)
        let builder ← lift (assertWhen aliasIds.isEmpty builder ⟨pid, .str predicateAliasPredicate, .str canonical⟩)
        if builder.operations.isEmpty then pure pid
        else do
          commit Γ builder
          pure pid) := by
    refine steps_bind (steps_lift _) fun opened => steps_bind (steps_lift _) fun named => steps_bind (steps_lift _) fun builder => ?_
    split
    · exact steps_pure pid
    · exact steps_bind (steps_commit builder) fun _ => steps_pure pid
  dsimp only
  split
  · exact steps_bind (steps_throw _) fun _ => hrest _ _ _ _
  · exact hrest _ _ _ _

theorem steps_assertRegistered (subject pid : Term) (pname : String) (value : Term) :
    Steps (Onward Γ) (assertRegistered Γ subject pid pname value) := by
  refine steps_bind steps_get fun session => steps_bind (steps_lift _) fun builder => steps_bind (steps_lift _) fun card => ?_
  refine steps_bind (steps_lift _) fun written => ?_
  exact steps_bind (steps_commit written.1) fun _ => steps_pure _

theorem steps_assert (subject : Term) (pname : String) (value : Term) : Steps (Onward Γ) (assert Γ print subject pname value) :=
  steps_bind (steps_registerPredicate pname) fun pid => steps_assertRegistered subject pid pname value

theorem steps_defPredicate (pname card kind : String) : Steps (Onward Γ) (defPredicate Γ print pname card kind) := by
  refine steps_bind (steps_registerPredicate pname) fun pid => ?_
  exact steps_bind (steps_assert _ _ _) fun _ => steps_bind (steps_assert _ _ _) fun _ => steps_pure pid

theorem steps_mintNode (pname : String) (value : Term) : Steps (Onward Γ) (mintNode Γ print pname value) := by
  refine steps_bind (steps_registerPredicate pname) fun pid => steps_bind steps_get fun session => ?_
  refine steps_bind (steps_lift _) fun builder => steps_bind (steps_lift _) fun minted => steps_bind (steps_lift _) fun written => ?_
  exact steps_bind (steps_commit written.1) fun _ => steps_pure _

/-- One assertion in a transaction of its own. -/
theorem steps_commitAssertion (session : Session) (proposition : Triple) (a : α) : Steps (Onward Γ) (do
      let builder ← lift (Txn.openBuilder session.store)
      let (builder, _) ← lift (Txn.assert builder proposition)
      commit Γ builder
      pure a) := by
  refine steps_bind (steps_lift _) fun builder => steps_bind (steps_lift _) fun written => ?_
  exact steps_bind (steps_commit written.1) fun _ => steps_pure a

theorem steps_aliasPredicate (spelling aliasName : String) : Steps (Onward Γ) (aliasPredicate Γ print spelling aliasName) := by
  unfold aliasPredicate
  refine steps_bind steps_get fun session => steps_bind (steps_lift _) fun resolved => ?_
  have hrest : Steps (Onward Γ) (do
      let pid ← registerPredicate Γ print spelling
      let session ← get
      if (predicateIds Γ session aliasName).isEmpty then do
        let builder ← lift (Txn.openBuilder session.store)
        let (builder, _) ← lift (Txn.assert builder ⟨pid, .str predicateAliasPredicate, .str aliasName⟩)
        commit Γ builder
        pure pid
      else pure pid) := by
    refine steps_bind (steps_registerPredicate spelling) fun pid => steps_bind steps_get fun session => ?_
    split
    · exact steps_commitAssertion session _ pid
    · exact steps_pure pid
  split
  · exact steps_bind (steps_throw _) fun _ => hrest
  · exact hrest

theorem steps_keepOldName (pid : Term) (oldName : String) : Steps (Onward Γ) (keepOldName Γ pid oldName) := by
  refine steps_bind steps_get fun session => ?_
  dsimp only
  split
  · exact steps_pure ()
  · refine steps_bind (steps_lift _) fun builder => steps_bind (steps_lift _) fun written => ?_
    exact steps_commit written.1

/-- A renaming only adds to the history. -/
theorem steps_renamePredicate (spelling newName : String) : Steps (Onward Γ) (renamePredicate Γ print spelling newName) := by
  unfold renamePredicate
  refine steps_bind steps_get fun session => steps_bind (steps_lift _) fun resolved => ?_
  have hrest : Steps (Onward Γ) (do
      let pid ← registerPredicate Γ print spelling
      let oldName := predicateName Γ print (← get) pid
      if oldName = newName then pure pid
      else do
        keepOldName Γ pid oldName
        let _ ← assert Γ print pid predicateNamePredicate (.str newName)
        let _ ← aliasPredicate Γ print newName (":" ++ newName)
        pure pid) := by
    refine steps_bind (steps_registerPredicate spelling) fun pid => steps_bind steps_get fun session => ?_
    dsimp only
    split
    · exact steps_pure pid
    · refine steps_bind (steps_keepOldName _ _) fun _ => steps_bind (steps_assert _ _ _) fun _ => ?_
      exact steps_bind (steps_aliasPredicate _ _) fun _ => steps_pure pid
  dsimp only
  split
  · refine steps_bind (steps_throw _) fun _ => ?_
    split
    · exact steps_bind (steps_throw _) fun _ => hrest
    · exact hrest
  · split
    · exact steps_bind (steps_throw _) fun _ => hrest
    · exact hrest

theorem steps_setup : Steps (Onward Γ) (setup Γ print) := by
  refine steps_bind (steps_defPredicate _ _ _) fun _ => steps_bind (steps_defPredicate _ _ _) fun _ => ?_
  refine steps_bind (steps_defPredicate _ _ _) fun _ => steps_bind (steps_defPredicate _ _ _) fun _ => ?_
  exact steps_bind (steps_defPredicate _ _ _) fun _ => steps_pure ()

theorem steps_transact (steps : List Txn.Step) : Steps (Onward Γ) (transact Γ steps) := by
  refine steps_bind steps_get fun session => steps_bind (steps_lift _) fun builder => steps_bind (steps_lift _) fun written => ?_
  exact steps_bind (steps_commit written.1) fun _ => steps_pure _

end Writes

end Schema

end Fram
