import Fram.Lemmas.EventAt
import Fram.Lemmas.Requests
import Fram.Lemmas.SingleUpdate

/-!
# Receipts of mutations

A mutation is planned over the live propositions, or over none when its plan reads none, and its receipt is made before it is committed.
The plan and the commit read the same history: an action of the plan removes a proposition exactly when its retraction withdraws an
occurrence (`plan_decides`, `withdrawn_iff`).
-/

namespace Fram

open Dispatch (BatchAction PreparedMutation)
open ExceptList (bind_eq_ok_iff)

/-! ## What an operation withdraws -/

section Withdrawing

variable {log more : List LoggedOperation} {e : LoggedOperation}

theorem reading_concat (log : List LoggedOperation) (e : LoggedOperation) :
    reading (log ++ [e]) = History.step Triple.eqv (reading log) e.op := by
  rw [reading, List.map_append, List.map_singleton, History.run_concat]
  rfl

/-- The step of an operation adds one target. -/
theorem step_targets (r : History.Reading Triple) (o : History.Op Triple) :
    ∃ target, (History.step Triple.eqv r o).targets = r.targets ++ [target] := by
  unfold History.step
  split
  · exact ⟨none, rfl⟩
  · split
    · exact ⟨none, rfl⟩
    · rename_i x live _
      exact ⟨some x.1, rfl⟩

/-- What operations withdrew does not change by later ones. -/
theorem targets_append (log more : List LoggedOperation) : ∃ targets, (reading (log ++ more)).targets = (reading log).targets ++ targets := by
  induction more using List.reverseRecOn with
  | nil => exact ⟨[], by simp⟩
  | append_singleton more e ih =>
    obtain ⟨targets, ht⟩ := ih
    obtain ⟨target, hstep⟩ := step_targets (reading (log ++ more)) e.op
    rw [← List.append_assoc, reading_concat, hstep, ht]
    exact ⟨targets ++ [target], List.append_assoc _ _ _⟩

/-- An operation withdraws an assertion exactly when it retracts a proposition that is live at its place. -/
theorem withdrawn_iff (log : List LoggedOperation) (e : LoggedOperation) (more : List LoggedOperation) :
    (∃ target, (reading (log ++ e :: more)).targets[log.length]? = some (some target)) ↔
      e.action = .retract ∧ ∃ p ∈ Reference.livePropositions log, p.eqv e.proposition = true := by
  obtain ⟨targets, ht⟩ := targets_append (log ++ [e]) more
  have hlen : (reading log).targets.length = log.length := by
    simpa using (reads_reading log).length
  rw [show log ++ e :: more = log ++ [e] ++ more by simp, ht, reading_concat, History.step]
  cases ha : e.action with
  | assert =>
    rw [show e.op.adds = true by simp [LoggedOperation.op, ha], if_pos rfl]
    simp [← hlen]
  | retract =>
    rw [show e.op.adds = false by simp [LoggedOperation.op, ha], if_neg (by simp)]
    simp only [true_and]
    cases hx : (reading log).live.extractLast fun x => x.2.eqv e.op.content with
    | none =>
      rw [List.extractLast_eq_none_iff] at hx
      simp only [← hlen]
      constructor
      · rintro ⟨target, h⟩
        simp at h
      · rintro ⟨p, hp, hpe⟩
        obtain ⟨x, hm, rfl⟩ := List.mem_map.1 hp
        have := hx x hm
        rw [show e.op.content = e.proposition from rfl, hpe] at this
        cases this
    | some found =>
      obtain ⟨hm, hpe⟩ := List.mem_of_extractLast hx
      simp only [← hlen]
      exact ⟨fun _ => ⟨found.1.2, List.mem_map_of_mem hm, hpe⟩, fun _ => ⟨found.1.1, by simp⟩⟩

/-- What is live after one more operation. -/
theorem livePropositions_concat (log : List LoggedOperation) (e : LoggedOperation) : Reference.livePropositions (log ++ [e]) =
      match e.action with
      | .assert => Reference.livePropositions log ++ [e.proposition]
      | .retract => (Dispatch.removeLastEqual (Reference.livePropositions log) e.proposition).1 := by
  unfold Reference.livePropositions
  rw [reading_concat, History.step]
  cases ha : e.action with
  | assert =>
    rw [show e.op.adds = true by simp [LoggedOperation.op, ha], if_pos rfl]
    simp [LoggedOperation.op]
  | retract =>
    rw [show e.op.adds = false by simp [LoggedOperation.op, ha], if_neg (by simp)]
    have hcongr : (reading log).live.extractLast (fun x => x.2.eqv e.op.content) =
        (reading log).live.extractLast (fun x => e.proposition.eqv x.2) :=
      List.extractLast_congr fun x _ => by
        rw [Bool.eq_iff_iff]
        exact ⟨Triple.eqv_symm, Triple.eqv_symm⟩
    have hmap := List.extractLast_map (fun p : Triple => e.proposition.eqv p) (fun x : Nat × Triple => x.2) (reading log).live
    unfold Dispatch.removeLastEqual
    rw [hcongr, hmap]
    cases (reading log).live.extractLast fun x => e.proposition.eqv x.2 with
    | none => simp
    | some found => simp

/-- Propositions that are the same as ones in order, without the newest equal one. -/
theorem removeLastEqual_same {ps qs : List Triple} (h : List.Forall₂ Triple.same ps qs) (p : Triple) :
    List.Forall₂ Triple.same (Dispatch.removeLastEqual ps p).1 (Dispatch.removeLastEqual qs p).1 ∧
      ((Dispatch.removeLastEqual ps p).2 = true ↔ ∃ q ∈ qs, q.eqv p = true) := by
  have hrel := List.extractLast_rel (p := fun v : Triple => p.eqv v) (q := fun v : Triple => p.eqv v) h fun x y hxy =>
    Triple.eqv_congr (Triple.same_refl p) hxy
  have hfound : (qs.extractLast fun v => p.eqv v) = none ↔ ¬∃ q ∈ qs, q.eqv p = true := by
    rw [List.extractLast_eq_none_iff]
    push Not
    refine forall₂_congr fun q _ => ?_
    rw [Bool.eq_false_iff, Ne, not_iff_not]
    exact ⟨Triple.eqv_symm, Triple.eqv_symm⟩
  unfold Dispatch.removeLastEqual
  revert hrel hfound
  cases ps.extractLast fun v => p.eqv v <;> cases qs.extractLast fun v => p.eqv v <;> intro hrel hfound
  · exact ⟨h, by simpa using hfound⟩
  · cases hrel
  · cases hrel
  · cases hrel with
    | some hrel => exact ⟨hrel.2, by simpa using hfound⟩

end Withdrawing

/-! ## What a plan decides -/

section Planning

variable {log : List LoggedOperation} {simulated : List Triple} {actions : List BatchAction} {prepared : PreparedMutation}

/-- What a plan decides of an action, which it takes after a history. -/
structure Decides (log : List LoggedOperation) (action : BatchAction) (changed : Bool) : Prop where
  changed : changed = true ↔ action.operation = .assert ∨ ∃ p ∈ Reference.livePropositions log, p.eqv action.proposition = true
  subject : action.policy = .subjectExisting → ∃ p ∈ Reference.livePropositions log, action.proposition.t1.eqv p.t1 = true

/-- The history that an action of a transaction is taken after: that before the transaction, and the actions before it. -/
def historyAt (log : List LoggedOperation) (sequence : Int) (ordinal : Nat) (actions : List BatchAction) (i : Nat) : List LoggedOperation :=
  log ++ loggedFrom sequence ordinal ((actions.take i).map (·.commit))

theorem historyAt_succ (log : List LoggedOperation) (sequence : Int) (ordinal : Nat) (action : BatchAction) (actions : List BatchAction)
    (i : Nat) : historyAt log sequence ordinal (action :: actions) (i + 1) =
      historyAt (log ++ [⟨sequence, ordinal, action.operation, action.proposition⟩]) sequence (ordinal + 1) actions i := by
  simp [historyAt, loggedFrom, BatchAction.commit]

theorem subjectKnown_same {ps qs : List Triple} (h : List.Forall₂ Triple.same ps qs) (p : Triple) :
    Dispatch.subjectKnown ps p = true ↔ ∃ q ∈ qs, p.t1.eqv q.t1 = true := by
  induction h with
  | nil => simp [Dispatch.subjectKnown]
  | @cons x y ps qs hxy _ ih =>
    have hx : p.t1.eqv x.t1 = p.t1.eqv y.t1 := Term.eqv_congr (Term.same_refl _) (Term.same_triple_iff.1 hxy).1
    simp only [Dispatch.subjectKnown, List.any_cons, Bool.or_eq_true, List.exists_mem_cons_iff, hx] at ih ⊢
    rw [ih]

/-- **A plan decides what its commit does.** Over the propositions that are live, or with none when the plan does not read them. -/
theorem plan_decides (hlive : Dispatch.planReadsLive actions = true → List.Forall₂ Triple.same simulated (Reference.livePropositions log))
    (h : Dispatch.prepareActions simulated actions = .ok prepared) (sequence : Int) (ordinal : Nat) :
    prepared.decisions.length = actions.length ∧ ∀ (i : Nat) action, actions[i]? = some action → ∃ changed,
      prepared.decisions[i]? = some ⟨action.index, changed⟩ ∧ Decides (historyAt log sequence ordinal actions i) action changed := by
  induction actions generalizing simulated log prepared ordinal with
  | nil =>
    cases h
    exact ⟨rfl, by simp⟩
  | cons action actions ih =>
    rw [Dispatch.prepareActions] at h
    split at h
    · cases h
    · rename_i hpolicy
      have hsubject : action.policy = .subjectExisting → ∃ p ∈ Reference.livePropositions log, action.proposition.t1.eqv p.t1 = true := by
        intro hexisting
        have hreads : Dispatch.planReadsLive (action :: actions) = true := by simp [Dispatch.planReadsLive, hexisting]
        refine (subjectKnown_same (hlive hreads) action.proposition).1 ?_
        simpa [hexisting] using hpolicy
      have hrest : Dispatch.planReadsLive actions = true → List.Forall₂ Triple.same simulated (Reference.livePropositions log) := by
        intro hreads
        refine hlive ?_
        simp only [Dispatch.planReadsLive, List.any_cons, Bool.or_eq_true] at hreads ⊢
        exact .inr hreads
      -- The action itself, and those after it, which are taken after its operation.
      have hcons : ∀ {changed : Bool} {rest : PreparedMutation} {next : List Triple},
          Decides log action changed →
          (Dispatch.planReadsLive actions = true → List.Forall₂ Triple.same next
            (Reference.livePropositions (log ++ [⟨sequence, ordinal, action.operation, action.proposition⟩]))) →
          Dispatch.prepareActions next actions = .ok rest →
          (⟨action.index, changed⟩ :: rest.decisions).length = (action :: actions).length ∧
            ∀ (i : Nat) a, (action :: actions)[i]? = some a → ∃ c,
              ((⟨action.index, changed⟩ : Dispatch.Decision) :: rest.decisions)[i]? = some ⟨a.index, c⟩ ∧
                Decides (historyAt log sequence ordinal (action :: actions) i) a c := by
        intro changed rest next hdecides hnext hprepared
        obtain ⟨hlength, hall⟩ := ih hnext hprepared (ordinal + 1)
        refine ⟨by simp [hlength], fun i a hi => ?_⟩
        cases i with
        | zero =>
          obtain rfl : action = a := by simpa using hi
          exact ⟨changed, rfl, by simpa [historyAt, loggedFrom] using hdecides⟩
        | succ i =>
          obtain ⟨c, hc, hd⟩ := hall i a (by simpa using hi)
          exact ⟨c, by simpa using hc, by rw [historyAt_succ]; exact hd⟩
      split at h
      · rename_i hop
        obtain ⟨rest, hprepared, h⟩ := bind_eq_ok_iff.1 h
        cases h
        refine hcons ⟨by simp [hop], hsubject⟩ (fun hreads => ?_) hprepared
        rw [livePropositions_concat]
        dsimp only
        rw [hop]
        exact List.rel_append (hrest hreads) (.cons (Triple.same_refl _) .nil)
      · rename_i hop
        obtain ⟨rest, hprepared, h⟩ := bind_eq_ok_iff.1 h
        cases h
        have hreads : Dispatch.planReadsLive (action :: actions) = true := by simp [Dispatch.planReadsLive, hop]
        obtain ⟨hremoved, hchanged⟩ := removeLastEqual_same (hlive hreads) action.proposition
        refine hcons ⟨by rw [hchanged]; simp [hop], hsubject⟩ (fun _ => ?_) hprepared
        rw [livePropositions_concat]
        dsimp only
        rw [hop]
        exact hremoved

end Planning

/-! ## What a store shows of a commit -/

section Showing

variable {Γ : Host} {s : TermStore} {frames : List TransactionFrame}

/-- The withdrawals of a store name an operation exactly when it withdrew an assertion. -/
theorem Represents.withdrawal_iff (h : Represents Γ s frames) {i : Nat} {e : LoggedOperation} (hi : (logOf frames)[i]? = some e) :
    ∃ ws, Fram.withdrawals s = .ok ws ∧ ((∃ w ∈ ws, w.retraction.coordinate = coordinateOf s.spaceId e.sequence e.ordinal) ↔
      ∃ target, (reading (logOf frames)).targets[i]? = some (some target)) := by
  obtain ⟨ws, hws, hsame⟩ := h.withdrawals
  refine ⟨ws, hws, ?_⟩
  have hcoordinates : (∃ w ∈ ws, w.retraction.coordinate = coordinateOf s.spaceId e.sequence e.ordinal) ↔
      ∃ w ∈ Reference.withdrawals s.spaceId (logOf frames), w.retraction.coordinate = coordinateOf s.spaceId e.sequence e.ordinal := by
    generalize Reference.withdrawals s.spaceId (logOf frames) = named at hsame
    clear hws
    induction hsame with
    | nil => simp
    | @cons w w' ws ws' hw _ ih => simp only [List.exists_mem_cons_iff, hw.1.1, ih]
  rw [hcoordinates]
  constructor
  · rintro ⟨w, hw, hc⟩
    obtain ⟨j, -, hj⟩ := List.mem_filterMap.1 hw
    simp only [Reference.withdrawalAt, Option.bind_eq_bind, Option.bind_eq_some_iff, Option.some.injEq] at hj
    obtain ⟨target, htarget, o, ho, a, -, rfl⟩ := hj
    obtain ⟨b, hb, rfl⟩ := by simpa [Reference.occurrences] using ho
    have heqv := coordinateOf_eqv_iff.1 (show (coordinateOf s.spaceId b.sequence b.ordinal).eqv
      (coordinateOf s.spaceId e.sequence e.ordinal) = true by
        rw [← hc]
        exact coordinateOf_eqv_iff.2 ⟨rfl, rfl⟩)
    obtain rfl := h.position_unique hb hi heqv.1 (by exact_mod_cast heqv.2)
    exact ⟨target, Option.join_eq_some_iff.1 htarget⟩
  · rintro ⟨target, htarget⟩
    obtain ⟨-, a, b, ha, hb, -⟩ := reading_target htarget
    obtain rfl : b = e := Option.some.inj (hb.symm.trans hi)
    refine ⟨⟨b.occurrence s.spaceId, a.occurrence s.spaceId⟩, List.mem_filterMap.2 ⟨i, ?_, ?_⟩, rfl⟩
    · exact List.mem_range.2 (List.getElem?_eq_some_iff.1 hb).1
    · simp [Reference.withdrawalAt, htarget, Reference.occurrences, ha, hb]

end Showing

/-! ## The receipt -/

theorem parseAction_index {value : Term} {index : Nat} {action : BatchAction} (h : Dispatch.parseAction value index = .ok action) :
    action.index = index := by
  unfold Dispatch.parseAction at h
  split at h
  · split at h
    · cases h
    split at h
    · cases h
    split at h
    · cases h
    · cases h
      rfl
  · cases h

theorem parseActionsFrom_index {values : List Term} {index : Nat} {actions : List BatchAction}
    (h : Dispatch.parseActionsFrom index values = .ok actions) : ∀ (i : Nat) action, actions[i]? = some action → action.index = index + i := by
  induction values generalizing index actions with
  | nil =>
    cases h
    simp
  | cons value values ih =>
    rw [Dispatch.parseActionsFrom] at h
    obtain ⟨first, hfirst, h⟩ := bind_eq_ok_iff.1 h
    obtain ⟨rest, hrest, h⟩ := bind_eq_ok_iff.1 h
    cases h
    intro i action hi
    cases i with
    | zero =>
      obtain rfl : first = action := by simpa using hi
      exact parseAction_index hfirst
    | succ i =>
      have := ih hrest i action (by simpa using hi)
      omega

/-- The actions that a mutation asks for are numbered in order. -/
theorem Asks.index {request : RpcRequest} {actions : List BatchAction} (h : Asks request actions) (i : Nat) (action : BatchAction)
    (hi : actions[i]? = some action) : action.index = i := by
  cases h with
  | @write _ _ _ single _ _ haction =>
    cases i with
    | zero =>
      obtain rfl : single = action := by simpa using hi
      exact parseAction_index haction
    | succ i => simp at hi
  | batch _ _ _ hactions =>
    unfold Dispatch.parseActions at hactions
    split at hactions
    · cases hactions
    split at hactions
    · cases hactions
    simpa using parseActionsFrom_index hactions i action hi

/-- The records of a receipt are those of its decisions, with the coordinates of the transaction. -/
theorem actionResultsFrom_getElem {spaceId : String} (hs : 0 < spaceId.length) {q : Int} (hq : 0 ≤ q) {decisions : List Dispatch.Decision}
    {ordinal : Nat} {results : List Triple}
    (h : Dispatch.actionResultsFrom ⟨.str spaceId, txSequence, .int q⟩ ordinal decisions = .ok results) :
    results.length = decisions.length ∧ ∀ (i : Nat) decision, decisions[i]? = some decision →
      results[i]? = some (Dispatch.rpcActionResult decision.index decision.changed (coordinateOf spaceId q (ordinal + i : Nat))) := by
  induction decisions generalizing ordinal results with
  | nil =>
    cases h
    exact ⟨rfl, by simp⟩
  | cons decision decisions ih =>
    rw [Dispatch.actionResultsFrom, occurrenceCoordinate_transaction hs hq] at h
    obtain ⟨occurrence, hoccurrence, h⟩ := bind_eq_ok_iff.1 h
    obtain ⟨rest, hrest, h⟩ := bind_eq_ok_iff.1 h
    cases hoccurrence
    cases h
    obtain ⟨hlength, hall⟩ := ih hrest
    refine ⟨by simp [hlength], fun i d hi => ?_⟩
    cases i with
    | zero =>
      obtain rfl : decision = d := by simpa using hi
      rfl
    | succ i =>
      rw [List.getElem?_cons_succ, hall i d (by simpa using hi), show ordinal + 1 + i = ordinal + (i + 1) by omega]

/-- The record of an action tells what its commit did: its operation has the coordinate, it changed something exactly when it asserts or
withdrew an occurrence, and its subject was live at its place where its policy asks for that. -/
def Tells (spaceId : String) (log : List LoggedOperation) (after : TermStore) (sequence : Int) (actions : List BatchAction) (i : Nat)
    (action : BatchAction) (record : Triple) : Prop :=
  ∃ changed, record = Dispatch.rpcActionResult i changed (coordinateOf spaceId sequence i) ∧
    (∃ os o, occurrences after = .ok os ∧ os[log.length + i]? = some o ∧ o.coordinate = coordinateOf spaceId sequence i ∧
      o.action = action.operation ∧ o.proposition.same action.proposition) ∧
    (changed = true ↔ action.operation = .assert ∨
      ∃ ws, withdrawals after = .ok ws ∧ ∃ w ∈ ws, w.retraction.coordinate = coordinateOf spaceId sequence i) ∧
    (action.policy = .subjectExisting →
      ∃ p ∈ Reference.livePropositions (historyAt log sequence 0 actions i), action.proposition.t1.eqv p.t1 = true)

section Receipts

variable {Γ : Host} {R : Reads} {session session' : Session} {spaceId : String} {frames : List TransactionFrame} {request : RpcRequest}
  {actions : List BatchAction} {answer : RpcResponse} {simulated : List Triple} {prepared : PreparedMutation} {transaction receipt : Triple}

/-- The operation of an action in the history after its transaction, and what comes behind it. -/
theorem logOf_split (frames : List TransactionFrame) (sequence : Int) {i : Nat} {action : BatchAction} (hi : actions[i]? = some action) :
    ∃ more, logOf (frames ++ [⟨sequence, actions.map (·.commit)⟩]) =
        historyAt (logOf frames) sequence 0 actions i ++ ⟨sequence, i, action.operation, action.proposition⟩ :: more ∧
      (historyAt (logOf frames) sequence 0 actions i).length = (logOf frames).length + i := by
  obtain ⟨hlt, hget⟩ := List.getElem?_eq_some_iff.1 hi
  have hsplit : actions.map (·.commit) = (actions.take i).map (·.commit) ++ action.commit :: (actions.drop (i + 1)).map (·.commit) := by
    rw [← List.map_cons (f := fun a : BatchAction => a.commit), ← List.map_append, ← hget, List.getElem_cons_drop, List.take_append_drop]
  have hlen : ((actions.take i).map (·.commit)).length = i := by
    rw [List.length_map, List.length_take]
    omega
  refine ⟨loggedFrom sequence (i + 1) ((actions.drop (i + 1)).map (·.commit)), ?_, ?_⟩
  · rw [logOf_append, logOf_singleton, TransactionFrame.logged, hsplit, loggedFrom_append, hlen, Nat.zero_add, loggedFrom, historyAt,
      List.append_assoc]
    rfl
  · rw [historyAt, List.length_append, length_loggedFrom, hlen]

/-- **The receipt of a committed mutation is true.** -/
theorem Receipted.tells (h : SessionFor Γ session spaceId frames) (hasks : Asks request actions)
    (hr : Receipted Γ session session' request actions answer simulated prepared transaction receipt) :
    ∃ results, answer = response request session.store.nextSequence (Dispatch.rpcMutationResult results).term ∧
      results.length = actions.length ∧ ∀ (i : Nat) action, actions[i]? = some action → ∃ record, results[i]? = some record ∧
        Tells spaceId (logOf frames) session'.store session.store.nextSequence actions i action record := by
  obtain ⟨hfor, -⟩ := h.commit hr.commits
  have hspace : 0 < spaceId.length := h.space ▸ h.represents.space
  have hq : 0 ≤ session.store.nextSequence := by
    have := h.represents.one_le_nextSequence
    omega
  have hlive : Dispatch.planReadsLive actions = true → List.Forall₂ Triple.same simulated (Reference.livePropositions (logOf frames)) := by
    intro hreads
    obtain ⟨ps, hps, hsame⟩ := h.represents.livePropositions
    cases (hr.live hreads).symm.trans hps
    exact hsame
  obtain ⟨hdecisions, hdecides⟩ := plan_decides hlive hr.prepares session.store.nextSequence 0
  have htransaction := hr.coordinate
  rw [h.space, transactionCoordinate_ok hspace hq] at htransaction
  cases htransaction
  obtain ⟨results, hresults, hreceipt⟩ := bind_eq_ok_iff.1 hr.results
  cases hreceipt
  obtain ⟨hlength, hrecords⟩ := actionResultsFrom_getElem hspace hq hresults
  refine ⟨results, hr.answers, hlength.trans hdecisions, fun i action hi => ?_⟩
  obtain ⟨changed, hdecision, hchanged⟩ := hdecides i action hi
  obtain ⟨more, hsplit, hbefore⟩ := logOf_split frames session.store.nextSequence hi
  have hat : (logOf (frames ++ [⟨session.store.nextSequence, actions.map (·.commit)⟩]))[(logOf frames).length + i]? =
      some ⟨session.store.nextSequence, i, action.operation, action.proposition⟩ := by
    rw [hsplit, ← hbefore, List.getElem?_append_right (Nat.le_refl _), Nat.sub_self]
    rfl
  refine ⟨_, hrecords i _ hdecision, changed, ?_, ?_, ?_, hchanged.subject⟩
  · rw [hasks.index i action hi, Nat.zero_add]
  · obtain ⟨os, hos, hsame⟩ := hfor.represents.occurrences
    have hreference : (Reference.occurrences session'.store.spaceId
        (logOf (frames ++ [⟨session.store.nextSequence, actions.map (·.commit)⟩])))[(logOf frames).length + i]? =
          some ⟨coordinateOf spaceId session.store.nextSequence i, action.operation, action.proposition⟩ := by
      rw [Reference.occurrences, List.getElem?_map, hat, hfor.space]
      rfl
    obtain ⟨hlt, hget⟩ := List.getElem?_eq_some_iff.1 hreference
    have hlt' : (logOf frames).length + i < os.length := by rw [hsame.length_eq]; exact hlt
    have ho := List.Forall₂.get hsame hlt' hlt
    rw [List.get_eq_getElem, List.get_eq_getElem, hget] at ho
    exact ⟨os, _, hos, List.getElem?_eq_getElem hlt', ho⟩
  · obtain ⟨ws, hws, hwithdrawn⟩ := hfor.represents.withdrawal_iff hat
    have hiff := withdrawn_iff (historyAt (logOf frames) session.store.nextSequence 0 actions i)
      ⟨session.store.nextSequence, i, action.operation, action.proposition⟩ more
    rw [← hsplit, hbefore] at hiff
    rw [hfor.space] at hwithdrawn
    rw [hchanged.changed]
    constructor
    · rintro (hassert | hfound)
      · exact .inl hassert
      · cases hop : action.operation with
        | assert => exact .inl rfl
        | retract => exact .inr ⟨ws, hws, hwithdrawn.2 (hiff.2 ⟨hop, hfound⟩)⟩
    · rintro (hassert | ⟨ws', hws', hw⟩)
      · exact .inl hassert
      · cases hws'.symm.trans hws
        exact .inr (hiff.1 (hwithdrawn.1 hw)).2

end Receipts

/-- The result carries a response without an error. -/
def Succeeds (result : ResponseResult) : Prop :=
  ∃ frame answer, result.response = .ok frame ∧ frame.response = some answer ∧ answer.error = none

/-- A mutation of a store failed, leaves the store as it was and appends nothing; or it succeeded, commits and appends one frame, of its
actions in order, and its receipt tells of each what the commit did. -/
def IsAtomic (Γ : Host) (store : Store) (frame : RpcFrameV2) (request : RpcRequest) (result : ResponseResult) : Prop :=
  ∃ spaceId frames next, SessionFor Γ store.session spaceId frames ∧ result.nextStore.store = .ok next ∧
    ((¬Succeeds result ∧ next.session.store = store.session.store ∧ result.appendBytes = []) ∨
      (Succeeds result ∧ ∃ actions results f, Asks request actions ∧
        currentSequence next.session.store = currentSequence store.session.store + 1 ∧
        HasHistory Γ next.session.store spaceId (frames ++ [⟨store.session.store.nextSequence, actions.map (·.commit)⟩]) ∧
        f.same ⟨store.session.store.nextSequence, actions.map (·.commit)⟩ ∧ appendFrameBytes f = .ok result.appendBytes ∧
        result.response = .ok (wrapRpcResponse frame
          (response request store.session.store.nextSequence (Dispatch.rpcMutationResult results).term)) ∧
        results.length = actions.length ∧ ∀ (i : Nat) action, actions[i]? = some action → ∃ record, results[i]? = some record ∧
          Tells spaceId (logOf frames) next.session.store store.session.store.nextSequence actions i action record))

/-- **A mutation is atomic, and its receipt is true.** From every store that a server comes to, a mutation that fails leaves the store as it
was and appends nothing; one that succeeds appends one frame, of its actions in order, and its receipt tells what the commit did. -/
theorem mutation_receipts {Γ : Host} {R : Reads} {storeResult : StoreResult} {store : Store} (h : Reachable Γ R storeResult)
    (hs : storeResult.store = .ok store) {frame : RpcFrameV2} {request : RpcRequest} (hq : frame.request = some request)
    (hm : Dispatch.mutationRequest request.op = true) {nowMs : Int} {result : ResponseResult}
    (hd : dispatchRequest Γ R storeResult store frame nowMs = .ok result) :
    IsAtomic Γ store frame request result := by
  obtain ⟨spaceId, frames, hfor⟩ := h.sessionFor hs
  rcases dispatchRequest_cases hd with ⟨message, rfl⟩ | ⟨request', hq', hop, -⟩ |
    ⟨request', session, answer, hq', hdispatch, hencoded, hresponse, hnext⟩
  · refine ⟨spaceId, frames, store, hfor, hs, .inl ⟨?_, rfl, rfl⟩⟩
    rintro ⟨frame', answer, hresponse, -⟩
    cases hresponse
  · obtain rfl : request = request' := Option.some.inj (hq.symm.trans hq')
    rw [hop] at hm
    exact absurd hm (by decide)
  · obtain rfl : request = request' := Option.some.inj (hq.symm.trans hq')
    refine ⟨spaceId, frames, ⟨store.canonicalLogPath, session, store.logByteCount + result.appendBytes.length⟩, hfor, by rw [hnext]; rfl, ?_⟩
    rcases (dispatch_cases hdispatch).2 hm with
      ⟨rfl, herror⟩ | ⟨actions, simulated, prepared, transaction, receipt, hasks, hreceipted⟩
    · have hkept := hfor.encodeStoreAppend_kept (.refl _)
      refine .inl ⟨?_, rfl, (Except.ok.inj (Except.ok.inj (hencoded.symm.trans hkept)))⟩
      rintro ⟨frame', answer', hresponse', hanswer, hnone⟩
      cases hresponse.symm.trans hresponse'
      cases hanswer
      rw [hnone] at herror
      cases herror
    · obtain ⟨hversion, f, hf, hbytes⟩ := hfor.encodeStoreAppend_commit hreceipted.commits
      obtain ⟨results, rfl, hlength, htells⟩ := hreceipted.tells hfor hasks
      refine .inr ⟨⟨_, _, hresponse, rfl, rfl⟩, actions, results, f, hasks, hversion, ?_, hf, Except.ok.inj (hbytes.symm.trans hencoded),
        hresponse, hlength, htells⟩
      exact (hfor.commit hreceipted.commits).1.hasHistory

/-- A server without read operations. -/
def writeOnly : Reads where
  sha256 _ := ""
  query _ _ := .error invalidTermHandle
  occurrences _ _ := .error invalidTermHandle
  validate _ _ := .error invalidTermHandle

/-- A batch that asserts a triple, and retracts it twice. -/
def retractingBatch : RpcRequest :=
  ⟨"s", ⟨"rpc/batch"⟩, some 0, none, none, (rpcRecord "rpc/batch" [rpcList (
    [.kw "rpc/assert", .kw "rpc/retract", .kw "rpc/retract"].map fun operation =>
      (rpcRecord "rpc/action" [operation, .triple (.int 1) (.int 2) (.int 3), .kw "rpc/subject-any"]).term), .kw "rpc/none"]).term⟩

/-- The batch on a new store. -/
theorem mutation_receipts_batch : ∃ storeResult store result, bootStore Host.zero "" "s" [] [] = .ok storeResult ∧
    storeResult.store = .ok store ∧
    dispatchRequest Host.zero writeOnly storeResult store ⟨⟨"request"⟩, 0, 1, some retractingBatch, none⟩ 0 = .ok result ∧
    IsAtomic Host.zero store ⟨⟨"request"⟩, 0, 1, some retractingBatch, none⟩ retractingBatch result := by
  have hboot : (bootStore Host.zero "" "s" [] []).toOption.any (fun r => r.store.toOption.any fun store =>
      (Dispatch.dispatch Host.zero writeOnly store.session retractingBatch 0).isOk) = true := by
    decide +kernel
  cases hb : bootStore Host.zero "" "s" [] [] with
  | error fault =>
    rw [hb] at hboot
    cases hboot
  | ok storeResult =>
    rw [hb] at hboot
    cases hs : storeResult.store with
    | error message =>
      simp only [Except.toOption, Option.any_some, hs] at hboot
      cases hboot
    | ok store =>
      simp only [Except.toOption, Option.any_some, hs] at hboot
      have hreachable : Reachable Host.zero writeOnly storeResult := .boot (by decide) (.none _) hb
      obtain ⟨spaceId, frames, hfor⟩ := hreachable.sessionFor hs
      cases hd : Dispatch.dispatch Host.zero writeOnly store.session retractingBatch 0 with
      | error fault =>
        rw [hd] at hboot
        cases hboot
      | ok answered =>
        obtain ⟨result, hresult⟩ := @SessionFor.dispatchRequest_ok _ _ storeResult _
          ⟨⟨"request"⟩, 0, 1, some retractingBatch, none⟩ _ _ _ hfor _ _ rfl (by decide) hd
        exact ⟨storeResult, store, result, rfl, hs, hresult, mutation_receipts hreachable hs rfl (by decide) hresult⟩

end Fram
