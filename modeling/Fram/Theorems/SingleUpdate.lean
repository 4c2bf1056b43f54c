import Fram.Lemmas.SingleUpdate

/-!
# Single-cardinality updates

An update leaves one live assertion of its subject and predicate, at the coordinate that the write returned, and coordinates are minted
once. Two updates of one subject and predicate in one transaction leave both values, and a value with a NaN cannot be updated.
-/

namespace Fram

open Stateful

namespace Schema

/-- The writes that a caller makes through a session. -/
inductive Act where
  | assert (subject : Term) (pname : String) (value : Term)
  | mintNode (pname : String) (value : Term)
  | registerPredicate (spelling : String)
  | defPredicate (pname card kind : String)
  | aliasPredicate (spelling aliasName : String)
  | renamePredicate (spelling newName : String)
  | setup
  | refresh
  | transact (steps : List Txn.Step)
  deriving DecidableEq

/-- A write returns the coordinates that it minted. -/
def Act.run (Γ : Host) (print : Term → String) : Act → SchemaM (List Triple)
  | .assert subject pname value => do
    let _ ← Schema.assert Γ print subject pname value
    pure []
  | .mintNode pname value => do
    let node ← Schema.mintNode Γ print pname value
    pure [node]
  | .registerPredicate spelling => do
    let _ ← Schema.registerPredicate Γ print spelling
    pure []
  | .defPredicate pname card kind => do
    let _ ← Schema.defPredicate Γ print pname card kind
    pure []
  | .aliasPredicate spelling aliasName => do
    let _ ← Schema.aliasPredicate Γ print spelling aliasName
    pure []
  | .renamePredicate spelling newName => do
    let _ ← Schema.renamePredicate Γ print spelling newName
    pure []
  | .setup => do
    Schema.setup Γ print
    pure []
  | .refresh => do
    Schema.refresh Γ
    pure []
  | .transact steps => do
    let coordinates ← Schema.transact Γ steps
    pure (Txn.mintedOf steps coordinates)

/-- The session after writes, some of which may throw, and the coordinates that those that returned have minted. -/
def run (Γ : Host) (print : Term → String) (session : Session) (acts : List Act) : Session × List Triple :=
  acts.foldl (fun x act => ((act.run Γ print x.1).2, x.2 ++ (act.run Γ print x.1).1.toOption.getD [])) (session, [])

end Schema

/-! ## What one write does -/

section Calls

variable {Γ : Host} {print : Term → String} {session session' : Session} {spaceId : String} {frames : List TransactionFrame}

/-- A builder that was committed adds a frame of its operations. -/
theorem SessionFor.transact (h : SessionFor Γ session spaceId frames) {steps : List Txn.Step} {coordinates : List Triple}
    (ht : Schema.transact Γ steps session = (.ok coordinates, session')) :
    ∃ builder, Txn.steps Γ session.view ⟨⟨.str spaceId, txSequence, .int session.store.nextSequence⟩, [], 0⟩ steps =
        .ok (builder, coordinates) ∧
      SessionFor Γ session' spaceId (frames ++ [⟨session.store.nextSequence, builder.operations⟩]) := by
  simp only [Schema.transact, bind_eq_ok_iff, Schema.get_eq_ok_iff, Schema.lift_eq_ok_iff, Schema.pure_eq_ok_iff] at ht
  obtain ⟨_, _, ⟨rfl, rfl⟩, builder, _, ⟨hopen, rfl⟩, ⟨last, cs⟩, _, ⟨hsteps, rfl⟩, _, _, hcommit, rfl, rfl⟩ := ht
  rw [h.openBuilder] at hopen
  cases hopen
  exact ⟨last, hsteps, h.commit_ok hcommit⟩

/-- A write to a registered predicate adds a frame: a single update, or one assertion. -/
theorem SessionFor.assertRegistered (h : SessionFor Γ session spaceId frames) {subject pid value : Term} {pname : String} {c : Triple}
    (ha : Schema.assertRegistered Γ subject pid pname value session = (.ok c, session')) :
    ∃ card operations, Schema.cardinality Γ session pname = .ok card ∧
      operations = (if card = Schema.single then Txn.compileSingleUpdate Γ session.view subject pid value
        else [⟨.assert, ⟨subject, pid, value⟩⟩]) ∧
      c = coordinateOf spaceId session.store.nextSequence (operations.length - 1 : Nat) ∧
      SessionFor Γ session' spaceId (frames ++ [⟨session.store.nextSequence, operations⟩]) := by
  simp only [Schema.assertRegistered, bind_eq_ok_iff, Schema.get_eq_ok_iff, Schema.lift_eq_ok_iff, Schema.pure_eq_ok_iff] at ha
  obtain ⟨_, _, ⟨rfl, rfl⟩, builder, _, ⟨hopen, rfl⟩, card, _, ⟨hcard, rfl⟩, ⟨last, c'⟩, _, ⟨hwrite, rfl⟩, _, _, hcommit, rfl, rfl⟩ := ha
  rw [h.openBuilder] at hopen
  cases hopen
  have hs : 0 < spaceId.length := h.space ▸ h.represents.space
  have hq : 0 ≤ session.store.nextSequence := h.represents.advances.next_pos.trans' (by decide)
  have hpinned : Txn.Builder.Pinned ⟨⟨.str spaceId, txSequence, .int session.store.nextSequence⟩, [], 0⟩ spaceId
    session.store.nextSequence := rfl
  refine ⟨card, _, hcard, rfl, ?_⟩
  split at hwrite
  · rename_i hsingle
    rw [if_pos hsingle]
    have happend := @Txn.Builder.Pinned.append _ _ _ hpinned hs hq (Txn.compileSingleUpdate Γ session.view subject pid value)
      (by simp [Txn.compileSingleUpdate])
    rw [Txn.updateSingle, happend] at hwrite
    cases hwrite
    refine ⟨by simp, ?_⟩
    simpa using h.commit_ok hcommit
  · rename_i hmulti
    rw [if_neg hmulti]
    have happend := @Txn.Builder.Pinned.append _ _ _ hpinned hs hq [⟨.assert, ⟨subject, pid, value⟩⟩] (by simp)
    rw [Txn.assert, happend] at hwrite
    cases hwrite
    refine ⟨by simp, ?_⟩
    simpa using h.commit_ok hcommit

/-- A minted node is of the sequence of the frame that it adds. -/
theorem SessionFor.mintNode (h : SessionFor Γ session spaceId frames) {pname : String} {value : Term} {node : Triple}
    (hm : Schema.mintNode Γ print pname value session = (.ok node, session')) :
    ∃ more frame, node = Txn.mintOf spaceId frame.sequence 0 ∧ SessionFor Γ session' spaceId (frames ++ (more ++ [frame])) := by
  simp only [Schema.mintNode, bind_eq_ok_iff, Schema.get_eq_ok_iff, Schema.lift_eq_ok_iff, Schema.pure_eq_ok_iff] at hm
  obtain ⟨pid, registered, hreg, _, _, ⟨rfl, rfl⟩, builder, _, ⟨hopen, rfl⟩, ⟨minted, c⟩, _, ⟨hmint, rfl⟩, ⟨last, c'⟩, _,
    ⟨hwrite, rfl⟩, _, _, hcommit, rfl, rfl⟩ := hm
  obtain ⟨more, hmore⟩ := @Schema.steps_registerPredicate Γ print pname session spaceId frames h
  rw [hreg] at hmore
  rw [hmore.openBuilder] at hopen
  cases hopen
  have hs : 0 < spaceId.length := h.space ▸ h.represents.space
  have hq : 0 ≤ registered.store.nextSequence := hmore.represents.advances.next_pos.trans' (by decide)
  have hpinned : Txn.Builder.Pinned ⟨⟨.str spaceId, txSequence, .int registered.store.nextSequence⟩, [], 0⟩ spaceId
    registered.store.nextSequence := rfl
  rw [hpinned.mint hs hq] at hmint
  cases hmint
  refine ⟨more, ⟨registered.store.nextSequence, last.operations⟩, rfl, ?_⟩
  rw [← List.append_assoc]
  exact hmore.commit_ok hcommit

/-- Minted coordinates of one space are equal when they have one sequence and one ordinal. -/
theorem mintOf_eqv_iff {q q' : Int} {k k' : Nat} : (Txn.mintOf spaceId q k).eqv (Txn.mintOf spaceId q' k') = true ↔ q = q' ∧ k = k' := by
  simp [Txn.mintOf, Triple.eqv, Triple.term, Term.eqv, Atom.eqv, txSequence, Txn.mintOrdinal]

/-- The coordinates were minted under frames, and no two are equal. -/
structure Minted (spaceId : String) (frames : List TransactionFrame) (minted : List Triple) : Prop where
  under : ∀ c ∈ minted, ∃ f ∈ frames, ∃ k, c = Txn.mintOf spaceId f.sequence k
  distinct : minted.Pairwise fun a b => a.eqv b = false

theorem minted_nil (frames : List TransactionFrame) : Minted spaceId frames [] := ⟨by simp, .nil⟩

/-- The coordinates that one transaction mints in turn. -/
theorem minted_range (frame : TransactionFrame) (n : Nat) :
    Minted spaceId [frame] ((List.range' 0 n).map (Txn.mintOf spaceId frame.sequence)) := by
  refine ⟨fun c hc => ?_, ?_⟩
  · obtain ⟨k, -, rfl⟩ := List.mem_map.1 hc
    exact ⟨frame, List.mem_singleton_self _, k, rfl⟩
  · refine List.pairwise_map.2 ((List.pairwise_lt_range' 1).imp fun {k k'} hlt => ?_)
    rw [Bool.eq_false_iff]
    intro he
    have := (mintOf_eqv_iff.1 he).2
    omega

/-- Coordinates of later frames differ from those of earlier ones. -/
theorem Minted.append {more : List TransactionFrame} {minted minted' : List Triple} (h : Minted spaceId frames minted)
    (h' : Minted spaceId more minted') (hs : ((frames ++ more).map (·.sequence)).Pairwise (· < ·)) :
    Minted spaceId (frames ++ more) (minted ++ minted') := by
  refine ⟨fun c hc => ?_, List.pairwise_append.2 ⟨h.distinct, h'.distinct, fun a ha b hb => ?_⟩⟩
  · rcases List.mem_append.1 hc with hc | hc
    · obtain ⟨f, hf, hk⟩ := h.under c hc
      exact ⟨f, List.mem_append_left _ hf, hk⟩
    · obtain ⟨f, hf, hk⟩ := h'.under c hc
      exact ⟨f, List.mem_append_right _ hf, hk⟩
  · obtain ⟨f, hf, k, rfl⟩ := h.under a ha
    obtain ⟨g, hg, k', rfl⟩ := h'.under b hb
    rw [List.map_append, List.pairwise_append] at hs
    have hlt := hs.2.2 _ (List.mem_map_of_mem hf) _ (List.mem_map_of_mem hg)
    rw [Bool.eq_false_iff]
    intro he
    have := (mintOf_eqv_iff.1 he).1
    omega

/-- A write leaves the session one of a longer history, and what it minted was minted under the new frames. -/
theorem SessionFor.act (h : SessionFor Γ session spaceId frames) (act : Schema.Act) :
    ∃ more, SessionFor Γ (act.run Γ print session).2 spaceId (frames ++ more) ∧
      Minted spaceId more ((act.run Γ print session).1.toOption.getD []) := by
  -- A write that mints nothing.
  have hplain {α : Type} {m : SchemaM α} (hm : Steps (Schema.Onward Γ) m) :
      ∃ more, SessionFor Γ ((m >>= fun _ => pure []) session : Except Fault (List Triple) × Session).2 spaceId (frames ++ more) ∧
        Minted spaceId more (((m >>= fun _ => pure []) session : Except Fault (List Triple) × Session).1.toOption.getD []) := by
    obtain ⟨more, hmore⟩ := hm session spaceId frames h
    cases hms : m session with
    | mk result session' =>
      rw [hms] at hmore
      cases result with
      | error fault =>
        rw [bind_of_error hms]
        exact ⟨more, hmore, minted_nil more⟩
      | ok a =>
        rw [bind_of_ok hms]
        exact ⟨more, hmore, minted_nil more⟩
  cases act with
  | assert subject pname value => exact hplain (Schema.steps_assert subject pname value)
  | registerPredicate spelling => exact hplain (Schema.steps_registerPredicate spelling)
  | defPredicate pname card kind => exact hplain (Schema.steps_defPredicate pname card kind)
  | aliasPredicate spelling aliasName => exact hplain (Schema.steps_aliasPredicate spelling aliasName)
  | renamePredicate spelling newName => exact hplain (Schema.steps_renamePredicate spelling newName)
  | setup => exact hplain Schema.steps_setup
  | refresh => exact hplain Schema.steps_refresh
  | mintNode pname value =>
    cases hms : Schema.mintNode Γ print pname value session with
    | mk result session' =>
      cases result with
      | error fault =>
        obtain ⟨more, hmore⟩ := @Schema.steps_mintNode Γ print pname value session spaceId frames h
        rw [hms] at hmore
        rw [Schema.Act.run, bind_of_error hms]
        exact ⟨more, hmore, minted_nil more⟩
      | ok node =>
        obtain ⟨more, frame, hnode, hfor⟩ := h.mintNode hms
        rw [Schema.Act.run, bind_of_ok hms, hnode]
        refine ⟨more ++ [frame], hfor, ?_⟩
        have hfor' := hfor.represents.advances.sorted
        rw [List.map_append, List.pairwise_append] at hfor'
        exact (minted_nil more).append (minted_range frame 1) hfor'.2.1
  | transact steps =>
    cases hms : Schema.transact Γ steps session with
    | mk result session' =>
      cases result with
      | error fault =>
        obtain ⟨more, hmore⟩ := Schema.steps_transact (Γ := Γ) steps session spaceId frames h
        rw [hms] at hmore
        rw [Schema.Act.run, bind_of_error hms]
        exact ⟨more, hmore, minted_nil more⟩
      | ok coordinates =>
        obtain ⟨builder, hsteps, hfor⟩ := h.transact hms
        rw [Schema.Act.run, bind_of_ok hms]
        refine ⟨_, hfor, ?_⟩
        have hpinned : Txn.Builder.Pinned ⟨⟨.str spaceId, txSequence, .int session.store.nextSequence⟩, [], 0⟩ spaceId
          session.store.nextSequence := rfl
        obtain ⟨last, cs, hcs, -, -, -, ⟨n, hn⟩, -⟩ := @Txn.Builder.Pinned.steps Γ session.view _ _ _ hpinned (h.space ▸ h.represents.space)
          (h.represents.advances.next_pos.trans' (by decide)) steps
        obtain ⟨rfl, rfl⟩ := Prod.mk.inj (Except.ok.inj (hsteps.symm.trans hcs))
        rw [pure_run]
        exact hn ▸ minted_range ⟨session.store.nextSequence, builder.operations⟩ n

/-- A run leaves the session one of a longer history, under which its coordinates were minted. -/
theorem SessionFor.run (h : SessionFor Γ session spaceId frames) (acts : List Schema.Act) :
    ∃ more, SessionFor Γ (Schema.run Γ print session acts).1 spaceId (frames ++ more) ∧
      Minted spaceId more (Schema.run Γ print session acts).2 := by
  induction acts using List.reverseRecOn with
  | nil => exact ⟨[], by rwa [List.append_nil], minted_nil []⟩
  | append_singleton acts act ih =>
    obtain ⟨more, hmore, hminted⟩ := ih
    obtain ⟨further, hfurther, hminted'⟩ := @SessionFor.act Γ print _ _ _ hmore act
    rw [Schema.run, List.foldl_append, List.foldl_cons, List.foldl_nil]
    refine ⟨more ++ further, by rwa [← List.append_assoc], hminted.append hminted' ?_⟩
    have hsorted := hfurther.represents.advances.sorted
    rw [List.append_assoc, List.map_append, List.pairwise_append] at hsorted
    exact hsorted.2.1

end Calls

/-! ## The steps of a transaction on one subject and predicate -/

namespace Txn

/-- The operation that a step returns the coordinate of. -/
def Step.written : Step → Option CommitOperation
  | .mint => none
  | .assert proposition => some ⟨.assert, proposition⟩
  | .retract proposition => some ⟨.retract, proposition⟩
  | .updateSingle subject predicate value => some ⟨.assert, ⟨subject, predicate, value⟩⟩

/-- The step writes something of the subject and the predicate. -/
def Step.concerns (subject predicate : Term) : Step → Bool
  | .mint => false
  | .assert proposition => patternMatch proposition (some subject) (some predicate) none
  | .retract proposition => patternMatch proposition (some subject) (some predicate) none
  | .updateSingle subject' predicate' _ => subject.eqv subject' && predicate.eqv predicate'

section Steps

variable {Γ : Host} {view : Rotation} {subject predicate : Term}

theorem Step.getLast?_operations {step : Step} {operation : CommitOperation} (h : step.written = some operation) :
    (step.operations Γ view).getLast? = some operation := by
  cases step <;> simp [Step.written, Step.operations, compileSingleUpdate] at h ⊢ <;> exact h

/-- A step that does not concern a subject and a predicate adds no operation of them. -/
theorem Step.apart {spaceId : String} {log : List LoggedOperation} (hview : Follows Γ view spaceId log) {step : Step}
    (h : step.concerns subject predicate = false) :
    ∀ o ∈ step.operations Γ view, patternMatch o.proposition (some subject) (some predicate) none = false := by
  intro o ho
  cases step with
  | mint => cases ho
  | assert proposition =>
    rw [List.mem_singleton.1 ho]
    exact h
  | retract proposition =>
    rw [List.mem_singleton.1 ho]
    exact h
  | updateSingle subject' predicate' value =>
    rw [Bool.eq_false_iff]
    intro hm
    -- What the step writes is of its own subject and predicate.
    have hown : subject'.eqv o.proposition.t1 = true ∧ predicate'.eqv o.proposition.t2 = true ∨
        o.proposition.t1 = subject' ∧ o.proposition.t2 = predicate' := by
      rcases List.mem_append.1 ho with ho | ho
      · obtain ⟨event, he, rfl⟩ := List.mem_map.1 ho
        have hread := matching_eq hview.indexed (some subject') (some predicate') none
        have he' : event ∈ matching Γ view (some subject') (some predicate') none := List.mem_reverse.1 he
        rw [hread] at he'
        have hmatch := (List.mem_filter.1 he').2
        simp only [matchesPattern, patternMatch, slotMatches, Bool.and_true, Bool.and_eq_true] at hmatch
        exact Or.inl hmatch
      · rw [List.mem_singleton.1 ho]
        exact Or.inr ⟨rfl, rfl⟩
    simp only [patternMatch, slotMatches, Bool.and_true, Bool.and_eq_true] at hm
    have hboth : subject.eqv subject' = true ∧ predicate.eqv predicate' = true := by
      rcases hown with ⟨h1, h2⟩ | ⟨h1, h2⟩
      · exact ⟨Term.eqv_trans hm.1 (Term.eqv_symm h1), Term.eqv_trans hm.2 (Term.eqv_symm h2)⟩
      · rw [← h1, ← h2]
        exact hm
    simp [Step.concerns, hboth.1, hboth.2] at h

end Steps

end Txn

/-! ## The result -/

/-- What a write of one proposition through a session does: the coordinate it returns is the one its assertion has in the history,
and a write to a single predicate leaves one live assertion of the subject and the predicate, of the new value. -/
def Schema.Writes (Γ : Host) (print : Term → String) (session : Session) : Prop :=
  ∀ subject pname value c after, Schema.assert Γ print subject pname value session = (.ok c, after) →
    ∃ pid registered, Schema.registerPredicate Γ print pname session = (.ok pid, registered) ∧
      Schema.Recorded after c ⟨.assert, ⟨subject, pid, value⟩⟩ ∧
      (Schema.cardinality Γ registered pname = .ok Schema.single → Schema.Clean Γ registered subject pid →
        Schema.Alone Γ after c ⟨subject, pid, value⟩)

/-- What a transaction through a session does: each coordinate it returns for an operation is the one the operation has in the
history, and an update that alone concerns its subject and predicate leaves one live assertion of them, of the new value. -/
def Schema.Transacts (Γ : Host) (session : Session) : Prop :=
  ∀ steps coordinates after, Schema.transact Γ steps session = (.ok coordinates, after) →
    coordinates.length = steps.length ∧ ∀ (i : Nat) step c, steps[i]? = some step → coordinates[i]? = some c →
      (∀ operation, step.written = some operation → Schema.Recorded after c operation) ∧
      ∀ subject predicate value, step = .updateSingle subject predicate value →
        (∀ (j : Nat) other, j ≠ i → steps[j]? = some other → other.concerns subject predicate = false) →
        Schema.Clean Γ session subject predicate → Schema.Alone Γ after c ⟨subject, predicate, value⟩

section Result

variable {Γ : Host} {print : Term → String} {session : Session} {spaceId : String} {frames : List TransactionFrame}

theorem SessionFor.writes (h : SessionFor Γ session spaceId frames) : Schema.Writes Γ print session := by
  intro subject pname value c after hcall
  obtain ⟨pid, registered, hreg, hcall⟩ := bind_eq_ok_iff.1 hcall
  obtain ⟨more, hmore⟩ := @Schema.steps_registerPredicate Γ print pname session spaceId frames h
  rw [hreg] at hmore
  obtain ⟨card, operations, hcard, hoperations, rfl, hafter⟩ := hmore.assertRegistered hcall
  refine ⟨pid, registered, hreg, hafter.recorded ?_, fun hsingle hclean => ?_⟩
  · rw [hoperations, ← List.getLast?_eq_getElem?]
    split
    · simp [Txn.compileSingleUpdate]
    · rfl
  · rw [hsingle] at hcard
    obtain rfl := Except.ok.inj hcard
    rw [if_pos rfl] at hoperations
    subst hoperations
    have halone := @SessionFor.alone Γ registered after spaceId (frames ++ more) hmore subject pid value hclean
      registered.store.nextSequence [] [] (by simp) (by simp) (by simpa using hafter)
    simpa using halone

theorem SessionFor.transacts (h : SessionFor Γ session spaceId frames) : Schema.Transacts Γ session := by
  intro steps coordinates after hcall
  obtain ⟨builder, hsteps, hafter⟩ := h.transact hcall
  have hpinned : Txn.Builder.Pinned ⟨⟨.str spaceId, txSequence, .int session.store.nextSequence⟩, [], 0⟩ spaceId
    session.store.nextSequence := rfl
  obtain ⟨last, cs, hcs, -, hops, hlen, -, hat⟩ := @Txn.Builder.Pinned.steps Γ session.view _ _ _ hpinned (h.space ▸ h.represents.space)
    (h.represents.advances.next_pos.trans' (by decide)) steps
  obtain ⟨rfl, rfl⟩ := Prod.mk.inj (Except.ok.inj (hsteps.symm.trans hcs))
  rw [List.nil_append] at hops
  simp only [List.length_nil, Nat.zero_add] at hat
  refine ⟨hlen, fun i step c hi hci => ?_⟩
  obtain ⟨hlt, hget⟩ := List.getElem?_eq_some_iff.1 hi
  have htake : steps.take (i + 1) = steps.take i ++ [step] := by rw [← List.take_append_getElem hlt, hget]
  have hsplit : steps = steps.take i ++ (step :: steps.drop (i + 1)) := by
    rw [← hget, List.cons_getElem_drop_succ, List.take_append_drop]
  have hoperations : builder.operations = (steps.take i).flatMap (·.operations Γ session.view) ++
      (step.operations Γ session.view ++ (steps.drop (i + 1)).flatMap (·.operations Γ session.view)) := by
    rw [hops]
    conv_lhs => rw [hsplit]
    rw [List.flatMap_append, List.flatMap_cons]
  have hc : step ≠ .mint → c = coordinateOf spaceId session.store.nextSequence
      (((steps.take i).flatMap (·.operations Γ session.view)).length + (step.operations Γ session.view).length - 1 : Nat) := by
    intro hm
    rw [hat i step c hi hci hm, htake, List.flatMap_append, List.length_append, List.flatMap_singleton]
  refine ⟨fun operation hw => ?_, fun subject predicate value hstep hothers hclean => ?_⟩
  · have hm : step ≠ .mint := by
      rintro rfl
      cases hw
    have hpos := List.length_pos_iff.2 (@Txn.Step.operations_ne_nil Γ session.view step hm)
    rw [hc hm]
    refine hafter.recorded ?_
    rw [hoperations, List.getElem?_append_right (by omega), List.getElem?_append_left (by omega),
      ← Txn.Step.getLast?_operations hw, List.getLast?_eq_getElem?]
    congr 1
    omega
  · have hm : step ≠ .mint := by
      rintro rfl
      cases hstep
    rw [hc hm]
    subst hstep
    have hapart (l : List Txn.Step) (hl : ∀ other ∈ l, ∃ j : Nat, j ≠ i ∧ steps[j]? = some other) :
        ∀ o ∈ l.flatMap (·.operations Γ session.view), patternMatch o.proposition (some subject) (some predicate) none = false := by
      intro o ho
      obtain ⟨other, hother, ho⟩ := List.mem_flatMap.1 ho
      obtain ⟨j, hj, hother⟩ := hl other hother
      exact Txn.Step.apart h.covers.toFollows (hothers j other hj hother) o ho
    refine h.alone hclean (hapart (steps.take i) fun other ho => ?_) (hapart (steps.drop (i + 1)) fun other ho => ?_)
      (hoperations ▸ hafter)
    · obtain ⟨j, hj⟩ := List.mem_iff_getElem?.1 ho
      rw [List.getElem?_take] at hj
      split at hj
      · exact ⟨j, by omega, hj⟩
      · cases hj
    · obtain ⟨j, hj⟩ := List.mem_iff_getElem?.1 ho
      rw [List.getElem?_drop] at hj
      exact ⟨i + 1 + j, by omega, hj⟩

end Result

/-- **Single-cardinality updates.** A session over a store after any commits and replays, and after any writes through the session,
some of which may have thrown: no two minted coordinates are equal; a write to a single predicate leaves one live assertion of the
subject and the predicate, of the new value, at the coordinate that it returned, when neither the two terms nor what stood of them
holds a NaN; and so does an update in a transaction that does not write of the two otherwise. -/
theorem single_update (Γ : Host) (print : Term → String) {spaceId : String} {a t b : Nat} {s : TermStore}
    (h : newTermStoreSized spaceId a t b = .ok s) (stores : List StoreAct) {session : Session}
    (hsession : newSession Γ (runActs Γ s stores).1 = .ok session) (acts : List Schema.Act) :
    (Schema.run Γ print session acts).2.Pairwise (fun x y => x.eqv y = false) ∧
      Schema.Writes Γ print (Schema.run Γ print session acts).1 ∧ Schema.Transacts Γ (Schema.run Γ print session acts).1 := by
  obtain ⟨hrep, -⟩ := represents_runActs (Γ := Γ) h stores
  obtain ⟨session', hs, -, hfor⟩ := newSession_ok hrep
  obtain rfl := Except.ok.inj (hsession.symm.trans hs)
  obtain ⟨more, hmore, hminted⟩ := @SessionFor.run Γ print _ _ _ hfor acts
  exact ⟨hminted.distinct, hmore.writes, hmore.transacts⟩

/-- A session that declares a predicate single and writes to it, mints a node, and updates two predicates of the node at once. -/
theorem single_update_declared : ∃ s session, newTermStoreSized "s" 0 0 0 = .ok s ∧ newSession Host.zero (runActs Host.zero s []).1 = .ok session ∧
    (Schema.run Host.zero (fun _ => "") session [.registerPredicate "cardinality", .assert (.str "p") "cardinality" (.str "single"),
        .mintNode "q" (.int 1), .transact [.mint, .mint, .updateSingle (.int 1) (.str "p") (.int 2)]]).2.length = 3 ∧
    (Schema.run Host.zero (fun _ => "") session [.registerPredicate "cardinality", .assert (.str "p") "cardinality" (.str "single"),
        .mintNode "q" (.int 1), .transact [.mint, .mint, .updateSingle (.int 1) (.str "p") (.int 2)]]).2.Pairwise
      (fun x y => x.eqv y = false) ∧
    Schema.Writes Host.zero (fun _ => "") (Schema.run Host.zero (fun _ => "") session [.registerPredicate "cardinality",
      .assert (.str "p") "cardinality" (.str "single"), .mintNode "q" (.int 1),
      .transact [.mint, .mint, .updateSingle (.int 1) (.str "p") (.int 2)]]).1 :=
  ⟨_, _, rfl, rfl, by with_unfolding_all decide, (@single_update Host.zero (fun _ => "") "s" 0 0 0 _ rfl [] _ rfl _).1,
    (@single_update Host.zero (fun _ => "") "s" 0 0 0 _ rfl [] _ rfl _).2.1⟩

/-- Two updates of one subject and predicate in one transaction leave both values. A NaN written to a single predicate stands beside the
next value. A coordinate minted in a transaction that is not committed is minted again. -/
theorem single_update_twice : ∃ s session, newTermStoreSized "s" 0 0 0 = .ok s ∧ newSession Host.zero s = .ok session ∧
    (∃ coordinates after, Schema.transact Host.zero [.updateSingle (.int 1) (.int 2) (.int 3), .updateSingle (.int 1) (.int 2) (.int 4)]
        session = (.ok coordinates, after) ∧
      livePropositions Host.zero after.store = .ok [⟨.int 1, .int 2, .int 3⟩, ⟨.int 1, .int 2, .int 4⟩]) ∧
    Schema.cardinality Host.zero (Schema.run Host.zero (fun _ => "") session [.registerPredicate "cardinality",
      .assert (.str "p") "cardinality" (.str "single"), .assert (.int 1) "p" (.atom (.float .nan)), .assert (.int 1) "p" (.int 5)]).1 "p" =
        .ok Schema.single ∧
    ((liveOccurrences Host.zero (Schema.run Host.zero (fun _ => "") session [.registerPredicate "cardinality",
      .assert (.str "p") "cardinality" (.str "single"), .assert (.int 1) "p" (.atom (.float .nan)),
      .assert (.int 1) "p" (.int 5)]).1.store).map fun os => (os.filter (ofPair (.int 1) (.str "p"))).map (·.proposition.t3)) =
        .ok [.atom (.float .nan), .int 5] ∧
    ∃ builder minted node coordinates after, Txn.openBuilder session.store = .ok builder ∧ Txn.mint builder = .ok (minted, node) ∧
      Schema.transact Host.zero [.mint] session = (.error ⟨⟨"invalid-transaction-frame"⟩,
        "fram: transaction requires at least one valid operation"⟩, session) ∧
      Schema.transact Host.zero [.mint, .assert ⟨node.term, .int 2, .int 3⟩] session = (.ok coordinates, after) ∧
      coordinates.head? = some node := by
  refine ⟨_, _, rfl, rfl, ⟨_, _, rfl, ?_⟩, ?_, ?_, _, _, _, _, _, rfl, rfl, rfl, rfl, rfl⟩ <;> with_unfolding_all decide

end Fram
