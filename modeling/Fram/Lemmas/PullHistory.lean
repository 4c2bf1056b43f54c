import Fram.Lemmas.EventAt
import Fram.Lemmas.Historical
import Fram.Lemmas.Pull
import Fram.Lemmas.Run

/-!
# What a pull of the past reads

The frames of a store can be chosen so that its occurrences are theirs, sign of zeros included. The events that a pull reads at a version
are then those that stood at the end of the frames up to the version. Two readers that read alike give one evaluation.
-/

namespace Fram

/-! ## The frames of a store as it spells them -/

section Spelled

variable {Γ : Host} {s : TermStore} {frames : List TransactionFrame}

/-- Triples over one list of atoms that are the same are identical. -/
theorem Triple.eq_of_same {l : List Atom} (h : Apart l) {p q : Triple} (hp : ∀ a ∈ p.term.atoms, a ∈ l) (hq : ∀ a ∈ q.term.atoms, a ∈ l)
    (hs : p.same q) : p = q := Triple.term_injective (Term.eq_of_same h hp hq hs)

/-- Frames over one list of atoms that are the same are identical. -/
theorem frames_eq_of_same {l : List Atom} (h : Apart l) {fs fs' : List TransactionFrame} (hf : ∀ f ∈ fs, MadeOf l f.operations)
    (hf' : ∀ f ∈ fs', MadeOf l f.operations) (hs : List.Forall₂ TransactionFrame.same fs fs') : fs = fs' := by
  have hoperations : ∀ {os os' : List CommitOperation}, MadeOf l os → MadeOf l os' → List.Forall₂ CommitOperation.same os os' → os = os' := by
    intro os os' hm hm' hs
    induction hs with
    | nil => rfl
    | @cons o o' os os' ho _ ih =>
      have hp := Triple.eq_of_same h (hm o List.mem_cons_self) (hm' o' List.mem_cons_self) ho.2
      have ho' : o = o' := by
        cases o
        cases o'
        exact CommitOperation.mk.injEq .. ▸ ⟨ho.1, hp⟩
      rw [ho', ih (fun x hx => hm x (List.mem_cons_of_mem _ hx)) fun x hx => hm' x (List.mem_cons_of_mem _ hx)]
  induction hs with
  | nil => rfl
  | @cons f f' fs fs' hff _ ih =>
    have ho := hoperations (hf f List.mem_cons_self) (hf' f' List.mem_cons_self) hff.2
    have hf'' : f = f' := by
      cases f
      cases f'
      exact TransactionFrame.mk.injEq .. ▸ ⟨hff.1, ho⟩
    rw [hf'', ih (fun x hx => hf x (List.mem_cons_of_mem _ hx)) fun x hx => hf' x (List.mem_cons_of_mem _ hx)]

/-- What an occurrence proposes is made of atoms of the store. -/
theorem Represents.occurrence_atoms (h : Represents Γ s frames) {i : Nat} {o : OperationOccurrence}
    (ho : Fram.operationOccurrenceAt s i = Except.ok o) : ∀ a ∈ o.proposition.term.atoms, a ∈ s.atoms := by
  unfold Fram.operationOccurrenceAt nth at ho
  obtain ⟨row, hrow, hcoordinate⟩ := ExceptList.bind_eq_ok_iff.1 ho
  obtain ⟨coordinate, -, hresolve⟩ := ExceptList.bind_eq_ok_iff.1 hcoordinate
  obtain ⟨proposition, hp, hend⟩ := ExceptList.bind_eq_ok_iff.1 hresolve
  split at hrow
  · rename_i found hfound
    cases hrow
    obtain ⟨e, hfor⟩ := h.exists_rowFor (List.mem_of_getElem? hfound)
    obtain ⟨p, hr, -⟩ := hfor.proposition
    rw [h.interned.resolveTripleHandle hr] at hp
    cases hp
    unfold operationOccurrence at hend
    split at hend <;> cases hend
    exact hr.atoms
  · cases hrow

/-- The store holds exactly the history of the frames, with the atoms that it has. -/
structure Spelt (Γ : Host) (s : TermStore) (frames : List TransactionFrame) : Prop where
  represents : Represents Γ s frames
  madeOf : ∀ f ∈ frames, MadeOf s.atoms f.operations

/-- Every store spells its history. -/
theorem Represents.exists_spelt (h : Represents Γ s frames) : ∃ fs, List.Forall₂ TransactionFrame.same fs frames ∧ Spelt Γ s fs := by
  have hall : Represents Γ s ([] ++ (frames ++ [])) := by rwa [List.append_nil]
  obtain ⟨fs, hfs, hsame⟩ := @Represents.framesBetween Γ s [] frames [] 0 s.nextSequence hall (List.forall_mem_nil _)
    (fun f hf => by
      have := h.advances.lower f (by simpa using hf)
      omega)
    (fun f hf => by
      have := h.advances.upper f (by simpa using hf)
      omega)
    (List.forall_mem_nil _)
  have hflip : List.Forall₂ TransactionFrame.same frames fs :=
    List.Forall₂.imp (fun _ _ hff => TransactionFrame.same_symm hff) (List.Forall₂.flip hsame)
  exact ⟨fs, hsame, h.of_same hflip, h.madeOf hfs⟩

theorem mem_loggedFrom {q : Int} {ordinal : Nat} {operations : List CommitOperation} {e : LoggedOperation}
    (he : e ∈ loggedFrom q ordinal operations) : ∃ o ∈ operations, e.proposition = o.proposition := by
  induction operations generalizing ordinal with
  | nil => cases he
  | cons o operations ih =>
    rcases List.mem_cons.1 he with rfl | he
    · exact ⟨o, List.mem_cons_self, rfl⟩
    · obtain ⟨o', ho', heq⟩ := ih he
      exact ⟨o', List.mem_cons_of_mem _ ho', heq⟩

/-- The occurrence at a position, as the store spells it. -/
theorem Spelt.operationOccurrenceAt (h : Spelt Γ s frames) {i : Nat} {e : LoggedOperation} (he : (logOf frames)[i]? = some e) :
    Fram.operationOccurrenceAt s i = .ok (e.occurrence s.spaceId) := by
  obtain ⟨o, ho, hcoordinate, haction, hproposition⟩ := h.represents.operationOccurrenceAt he
  obtain ⟨f, hf, hm⟩ := List.mem_flatMap.1 (List.mem_of_getElem? he)
  obtain ⟨operation, hop, hpe⟩ := mem_loggedFrom hm
  have hatoms : ∀ a ∈ e.proposition.term.atoms, a ∈ s.atoms := by
    rw [hpe]
    exact h.madeOf f hf operation hop
  have hp : o.proposition = e.proposition :=
    Triple.eq_of_same h.represents.interned.apart (h.represents.occurrence_atoms ho) hatoms hproposition
  rw [ho]
  cases o
  simp only at hcoordinate haction hp
  rw [hcoordinate, haction, hp]
  rfl

/-- All occurrences, as the store spells them. -/
theorem Spelt.occurrences (h : Spelt Γ s frames) : Fram.occurrences s = .ok (Reference.occurrences s.spaceId (logOf frames)) := by
  unfold Fram.occurrences
  rw [h.represents.rows.length_eq]
  have hread : ∀ i ∈ List.range (logOf frames).length, Fram.operationOccurrenceAt s i =
      .ok (((Reference.occurrences s.spaceId (logOf frames))[i]?).getD ⟨coordinateOf s.spaceId 0 0, .assert, ⟨.int 0, .int 0, .int 0⟩⟩) := by
    intro i hi
    have hlt := List.mem_range.1 hi
    rw [h.operationOccurrenceAt (List.getElem?_eq_getElem hlt)]
    simp [Reference.occurrences, hlt]
  rw [ExceptList.mapM_eq_ok hread]
  congr 1
  refine List.ext_getElem (by simp [Reference.occurrences]) fun i h1 h2 => ?_
  simp only [List.getElem_map, List.getElem_range, List.getElem?_eq_getElem h2, Option.getD_some]

/-- The live occurrences, as the store spells them. -/
theorem Spelt.liveOccurrences (h : Spelt Γ s frames) :
    Fram.liveOccurrences Γ s = .ok (Reference.liveOccurrences s.spaceId (logOf frames)) := by
  unfold Fram.liveOccurrences Reference.liveOccurrences
  rw [h.represents.livePositions]
  have hlt : ∀ i ∈ Reference.livePositions (logOf frames), i < (logOf frames).length := fun i hi => lt_of_mem_livePositions hi
  generalize Reference.livePositions (logOf frames) = positions at hlt
  induction positions with
  | nil => rfl
  | cons i positions ih =>
    rw [List.forall_mem_cons] at hlt
    have hi : (Reference.occurrences s.spaceId (logOf frames))[i]? = some ((logOf frames)[i].occurrence s.spaceId) := by
      simp [Reference.occurrences, hlt.1]
    rw [List.filterMap_cons_some hi, List.mapM_cons, h.operationOccurrenceAt (List.getElem?_eq_getElem hlt.1), ih hlt.2]
    rfl

/-- A store that goes on spells what it spelled. -/
theorem Spelt.exists_of_base {past : TermStore} {base rest : List TransactionFrame} (hpast : Spelt Γ past base)
    (h : Represents Γ s (base ++ rest)) (ha : ∀ a ∈ past.atoms, a ∈ s.atoms) :
    ∃ rest', List.Forall₂ TransactionFrame.same rest' rest ∧ Spelt Γ s (base ++ rest') := by
  obtain ⟨fs, hsame, hspelt⟩ := h.exists_spelt
  have hbase := List.forall₂_take_append fs base rest hsame
  have hrest := List.forall₂_drop_append fs base rest hsame
  rw [← List.take_append_drop base.length fs] at hspelt
  generalize fs.take base.length = base' at hbase hspelt
  generalize fs.drop base.length = rest' at hrest hspelt
  have heq : base' = base := by
    refine frames_eq_of_same h.interned.apart (fun f hf => hspelt.madeOf f (List.mem_append_left _ hf)) (fun f hf o ho a hm => ?_) hbase
    exact ha a (hpast.madeOf f hf o ho a hm)
  rw [heq] at hspelt
  exact ⟨rest', hrest, hspelt⟩

end Spelled

namespace Pull

/-! ## The events at a version -/

theorem eventSequence_occurrence (spaceId : String) (e : LoggedOperation) : eventSequence (e.occurrence spaceId) = e.sequence := rfl

/-- Among events of unequal coordinates, without the newest assertion of a proposition. -/
theorem withdrawn_eq {active : List OperationOccurrence} (h : active.Pairwise fun a b => a.coordinate.eqv b.coordinate = false)
    (hself : ∀ o ∈ active, o.coordinate.eqv o.coordinate = true) (p : Triple) : withdrawn active p = withoutNewestOf active p := by
  unfold withdrawn withoutNewestOf
  cases hx : active.extractLast fun event => p.eqv event.proposition with
  | none =>
    have hnone : (active.filter fun candidate => p.eqv candidate.proposition) = [] := by
      rw [List.filter_eq_nil_iff]
      intro o ho
      rw [(List.extractLast_eq_none_iff _ _).1 hx o ho]
      exact Bool.false_ne_true
    rw [hnone]
    rfl
  | some found =>
    obtain ⟨o, rest⟩ := found
    obtain ⟨as, bs, rfl, rfl, hp, hbs⟩ := (List.extractLast_eq_some_iff _ _ _ _).1 hx
    have hlast : ((as ++ o :: bs).filter fun candidate => p.eqv candidate.proposition).getLast? = some o := by
      have hnil : (bs.filter fun candidate => p.eqv candidate.proposition) = [] := by
        rw [List.filter_eq_nil_iff]
        intro x hm
        rw [hbs x hm]
        exact Bool.false_ne_true
      rw [List.filter_append, List.filter_cons_of_pos (by exact hp), hnil, List.getLast?_concat]
    rw [hlast]
    obtain ⟨has, hcons, hcross⟩ := List.pairwise_append.1 h
    obtain ⟨hob, hbs'⟩ := List.pairwise_cons.1 hcons
    have hkeepLeft : ∀ x ∈ as, (!o.coordinate.eqv x.coordinate) = true := by
      intro x hm
      have hne := hcross x hm o List.mem_cons_self
      rw [Bool.not_eq_true', Bool.eq_false_iff]
      intro he
      rw [Triple.eqv_symm he] at hne
      cases hne
    have hkeepRight : ∀ x ∈ bs, (!o.coordinate.eqv x.coordinate) = true := fun x hm => by rw [hob x hm]; rfl
    have hdrop : (!o.coordinate.eqv o.coordinate) = false := by rw [hself o (by simp)]; rfl
    simp only [List.filter_append, List.filter_eq_self.2 hkeepLeft]
    rw [List.filter_cons_of_neg (by rw [hdrop]; exact Bool.false_ne_true), List.filter_eq_self.2 hkeepRight]

/-- The events at a version are those that stand of a log up to it. -/
theorem eventsAt_occurrences {spaceId : String} {cutoff : Int} {log : List LoggedOperation}
    (hu : (Reference.occurrences spaceId log).Pairwise fun a b => a.coordinate.eqv b.coordinate = false)
    (hc : ∀ e ∈ log, e.sequence ≤ cutoff) (hp : 0 < spaceId.length) (hq : ∀ e ∈ log, 0 ≤ e.sequence) :
    eventsAt (Reference.occurrences spaceId log) cutoff = Reference.liveOccurrences spaceId log := by
  induction log using List.reverseRecOn with
  | nil => rfl
  | append_singleton log e ih =>
    have hsplit : Reference.occurrences spaceId (log ++ [e]) = Reference.occurrences spaceId log ++ [e.occurrence spaceId] := by
      simp [Reference.occurrences]
    have hbefore := ih (by rw [hsplit] at hu; exact (List.pairwise_append.1 hu).1) (fun x hx => hc x (List.mem_append_left _ hx))
      fun x hx => hq x (List.mem_append_left _ hx)
    rw [hsplit, eventsAt, List.foldl_append, ← eventsAt, hbefore, liveOccurrences_concat]
    have hle : ¬cutoff < eventSequence (e.occurrence spaceId) := by
      rw [eventSequence_occurrence]
      exact not_lt.2 (hc e (by simp))
    rw [List.foldl_cons, List.foldl_nil, if_neg hle]
    have hcoordinate : isOccurrenceCoordinate (coordinateOf spaceId e.sequence e.ordinal).term = true :=
      isOccurrenceCoordinate_coordinateOf hp (hq e (by simp)) (by omega)
    cases ha : e.action with
    | assert =>
      rw [if_pos]
      simp [isAssertionOccurrence, LoggedOperation.occurrence, hcoordinate, ha]
    | retract =>
      rw [if_neg (by simp [isAssertionOccurrence, LoggedOperation.occurrence, ha])]
      have hsub := liveOccurrences_sublist spaceId log
      rw [hsplit] at hu
      refine withdrawn_eq ((List.pairwise_append.1 hu).1.sublist hsub) (fun o ho => ?_) e.proposition
      obtain ⟨x, hx, rfl⟩ := List.mem_map.1 (hsub.subset ho)
      exact coordinateOf_eqv_iff.2 ⟨rfl, rfl⟩

/-- Events past the version change nothing. -/
theorem eventsAt_append {events later : List OperationOccurrence} {cutoff : Int} (h : ∀ o ∈ later, cutoff < eventSequence o) :
    eventsAt (events ++ later) cutoff = eventsAt events cutoff := by
  unfold eventsAt
  rw [List.foldl_append]
  generalize events.foldl _ [] = active
  induction later with
  | nil => rfl
  | cons o later ih =>
    rw [List.foldl_cons, if_pos (h o List.mem_cons_self)]
    exact ih fun o' ho' => h o' (List.mem_cons_of_mem o ho')

/-! ## Readers that read alike -/

/-- Two readers have one schema and the same bounds, and read the same events with the same values. -/
structure SameReads (r q : Reader) : Prop where
  host : q.Γ = r.Γ
  print : q.print = r.print
  session : q.session = r.session
  maxDepth : q.maxDepth = r.maxDepth
  maxNodes : q.maxNodes = r.maxNodes
  fwd : q.fwdEvents = r.fwdEvents
  rev : q.revEvents = r.revEvents
  subject : q.subjectEvents = r.subjectEvents
  leaf : leaf q = leaf r

namespace SameReads

variable {r q : Reader} (h : SameReads r q)

include h

theorem pidOf : q.pidOf = r.pidOf := by
  unfold Reader.pidOf
  rw [h.host, h.session]

theorem nameOf : q.nameOf = r.nameOf := by
  unfold Reader.nameOf Reader.lookup
  rw [h.pidOf, h.host, h.session]

theorem nmOf : q.nmOf = r.nmOf := by
  unfold Reader.nmOf
  rw [h.nameOf]

theorem resolveName : q.resolveName = r.resolveName := by
  unfold Reader.resolveName
  rw [h.pidOf, h.host, h.session]

theorem values : Pull.values q = Pull.values r := by
  unfold Pull.values
  rw [h.fwd, h.leaf, h.host, h.session]

theorem withRendered : Pull.withRendered q = Pull.withRendered r := by
  funext key entries rendered
  cases rendered with
  | nil => rfl
  | cons first rest => rw [Pull.withRendered, Pull.withRendered, h.host, h.session]

theorem starEntry : Pull.starEntry q = Pull.starEntry r := by
  unfold Pull.starEntry
  rw [h.values, h.host, h.print, h.session]

theorem recurTarget : Pull.recurTarget q = Pull.recurTarget r := by
  unfold Pull.recurTarget
  rw [h.nmOf, h.maxDepth]

theorem nested : Pull.nested q = Pull.nested r := by
  unfold Pull.nested
  rw [h.nameOf, h.recurTarget]

theorem mapEntry : Pull.mapEntry q = Pull.mapEntry r := by
  unfold Pull.mapEntry
  rw [h.pidOf, h.rev, h.fwd, h.recurTarget, h.nested, h.withRendered]

theorem flatReverse : Pull.flatReverse q = Pull.flatReverse r := by
  unfold Pull.flatReverse
  rw [h.nmOf]

theorem elem : Pull.elem q = Pull.elem r := by
  funext expand left depth visited entries element
  cases element with
  | star => rw [Pull.elem, Pull.elem, h.subject, h.starEntry]
  | attr name => rw [Pull.elem, Pull.elem, h.pidOf, h.rev, h.flatReverse, h.values]
  | map fields => rw [Pull.elem, Pull.elem, h.mapEntry]

theorem node : Pull.node q = Pull.node r := by
  funext fuel
  induction fuel with
  | zero => rfl
  | succ fuel ih =>
    funext subject name requested depth visited
    rw [Pull.node, Pull.node, ih, h.elem, h.maxNodes]

/-- Readers that read alike give one evaluation. -/
theorem roots (fuel : Nat) (pattern : List Element) (root : Root) : Pull.roots q fuel pattern root = Pull.roots r fuel pattern root := by
  have hone : Pull.one q fuel pattern = Pull.one r fuel pattern := by
    funext name
    rw [Pull.one, Pull.one, h.resolveName, h.node]
  cases root with
  | one name => rw [Pull.roots, Pull.roots, hone]
  | several names => rw [Pull.roots, Pull.roots, hone]

end SameReads

/-- The reader of a store of the past under the schema of now, with nothing withdrawn to show. -/
def Reader.under (past now : Reader) : Reader :=
  { past with session := now.session, occurrences := past.liveNow, withdrawals := [] }

/-- A reader at a version reads what the reader of the store of the version reads under the schema of now. -/
theorem sameReads_under {past now : Reader} {cutoff : Int} (hhost : past.Γ = now.Γ) (hprint : past.print = now.print)
    (hprovenance : past.provenance = now.provenance) (hdepth : past.maxDepth = now.maxDepth) (hnodes : past.maxNodes = now.maxNodes)
    (hpast : past.asOf = none) (hnow : now.asOf = some cutoff) (hevents : eventsAt now.occurrences cutoff = past.liveNow)
    (hlive : ∀ o ∈ past.liveNow, isAssertionOccurrence o = true ∧ o.coordinate.eqv o.coordinate = true ∧ eventSequence o ≤ cutoff) :
    SameReads now (past.under now) := by
  have hsnap : (past.under now).snapshotEvents = now.snapshotEvents := by
    simp only [Reader.snapshotEvents, Reader.under, hpast, hnow, hevents]
  have hsnapNow : now.snapshotEvents = past.liveNow := by simp only [Reader.snapshotEvents, hnow, hevents]
  have hmeta : (past.under now).metadataValue = now.metadataValue := by
    funext owner predicate
    unfold Reader.metadataValue
    rw [hsnap, hsnapNow]
    congr 2
    refine List.filter_congr fun o ho => ?_
    have hle : decide (eventSequence o ≤ cutoff) = true := decide_eq_true (hlive o ho).2.2
    simp only [Reader.under, hpast, hnow, Option.all_none, Option.all_some, hle]
  have hmetaOf : (past.under now).metadataOf = now.metadataOf := by
    unfold Reader.metadataOf
    rw [hmeta]
  have hall : (past.liveNow.filter fun event => isAssertionOccurrence event &&
      ((past.under now).liveEvent event || ((past.under now).withdrawalFor event.coordinate).isSome)) = past.liveNow := by
    refine List.filter_eq_self.2 fun o ho => ?_
    obtain ⟨ha, hself, -⟩ := hlive o ho
    have hshown : (past.under now).liveEvent o = true := List.any_eq_true.2 ⟨o, ho, hself⟩
    rw [ha, hshown]
    rfl
  have hnm : (past.under now).nmOf = now.nmOf := by
    unfold Reader.nmOf Reader.nameOf Reader.lookup Reader.pidOf
    simp only [Reader.under, hhost]
  have hlookup : (past.under now).lookup = now.lookup := by
    unfold Reader.lookup Reader.pidOf
    simp only [Reader.under, hhost]
  refine ⟨hhost, hprint, rfl, hdepth, hnodes, ?_, ?_, ?_, ?_⟩
  · funext left predicate
    have hcandidates : (if (past.under now).asOf.isSome then (past.under now).snapshotEvents
        else if (past.under now).provenance then (past.under now).occurrences.filter fun event =>
          isAssertionOccurrence event && ((past.under now).liveEvent event || ((past.under now).withdrawalFor event.coordinate).isSome)
        else (past.under now).liveNow) = past.liveNow := by
      rw [if_neg (by simp [Reader.under, hpast])]
      split
      · exact hall
      · rfl
    unfold Reader.fwdEvents
    rw [hcandidates, if_pos (by simp [hnow]), hsnapNow]
  · unfold Reader.revEvents
    rw [hsnap]
  · unfold Reader.subjectEvents
    rw [hsnap]
  · funext predicate event
    have hnone : (past.under now).withdrawalFor event.coordinate = none := rfl
    have hwithdrawal : (if (past.under now).asOf.isSome then none else (past.under now).withdrawalFor event.coordinate) = none := by
      rw [hnone, ite_self]
    have hwithdrawal' : (if now.asOf.isSome then none else now.withdrawalFor event.coordinate) = none := by simp [hnow]
    have hprov : (past.under now).provenance = now.provenance := hprovenance
    unfold leaf Reader.agentOf Reader.recordedAtOf
    rw [hlookup, hnm, hmetaOf, hwithdrawal, hwithdrawal', hprov]

end Pull

end Fram
