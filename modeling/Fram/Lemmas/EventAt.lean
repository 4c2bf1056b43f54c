import Fram.Lemmas.Rotation

/-!
# What a rotation answers for a coordinate

The coordinates of a log of frames are unequal, so a coordinate has one event at most among the events and the pending operations
of a rotation (`Follows.unique`). `eventAt` answers with that event when it stands and its proposition is equal to itself
(`eventAt_eq`).
-/

namespace Fram

variable {pending l : List OperationOccurrence}

/-- Coordinates of one space are equal when they have one sequence and one ordinal. -/
theorem coordinateOf_eqv_iff {spaceId : String} {q o q' o' : Int} :
    (coordinateOf spaceId q o).eqv (coordinateOf spaceId q' o') = true ↔ q = q' ∧ o = o' := by
  simp [coordinateOf, Triple.eqv, Triple.term, Term.eqv, Atom.eqv, txSequence, opOrdinal]

section Unique

variable {spaceId : String} {frames : List TransactionFrame} {next : Int}

/-- No two operations of advancing frames have equal coordinates. -/
theorem Advances.coordinates (h : Advances frames next) :
    (Reference.occurrences spaceId (logOf frames)).Pairwise fun a b => a.coordinate.eqv b.coordinate = false := by
  unfold Reference.occurrences
  rw [List.pairwise_map]
  refine h.pairwise.imp fun {a b} hab => ?_
  rw [Bool.eq_false_iff]
  intro he
  obtain ⟨hq, ho⟩ := coordinateOf_eqv_iff.1 he
  omega

/-- A list without its newest equal event is a part of it. -/
theorem withoutNewestOf_sublist (events : List OperationOccurrence) (p : Triple) : (withoutNewestOf events p).Sublist events := by
  unfold withoutNewestOf
  split
  · rename_i hx
    exact List.extractLast_sublist hx
  · exact List.Sublist.refl _

/-- What stands of a log is a part of it. -/
theorem liveOccurrences_sublist (spaceId : String) (log : List LoggedOperation) :
    (Reference.liveOccurrences spaceId log).Sublist (Reference.occurrences spaceId log) := by
  induction log using List.reverseRecOn with
  | nil => exact List.Sublist.refl _
  | append_singleton log e ih =>
    rw [liveOccurrences_concat, Reference.occurrences, List.map_append]
    cases e.action with
    | assert => exact ih.append (List.Sublist.refl _)
    | retract => exact (withoutNewestOf_sublist _ _).trans (ih.trans (List.sublist_append_left _ _))

/-- Occurrences that are the same have the same coordinates. -/
theorem coordinates_same {os os' : List OperationOccurrence} (h : List.Forall₂ OperationOccurrence.same os os') :
    os.map (·.coordinate) = os'.map (·.coordinate) := by
  induction h with
  | nil => rfl
  | cons hoo _ ih => rw [List.map_cons, List.map_cons, hoo.1, ih]

/-- Occurrences that are the same as ones with unequal coordinates have unequal coordinates. -/
theorem unique_of_same {os os' : List OperationOccurrence} (h : List.Forall₂ OperationOccurrence.same os os')
    (hu : os'.Pairwise fun a b => a.coordinate.eqv b.coordinate = false) :
    os.Pairwise fun a b => a.coordinate.eqv b.coordinate = false := by
  rw [← List.pairwise_map (f := fun o : OperationOccurrence => o.coordinate) (R := fun a b => a.eqv b = false)] at hu ⊢
  rwa [coordinates_same h]

/-- The events and the pending operations of a rotation that follows a log have unequal coordinates. -/
theorem Follows.unique {Γ : Host} {r : Rotation} (h : Follows Γ r spaceId (logOf frames)) (ha : Advances frames next) :
    (r.events ++ r.pending).Pairwise fun a b => a.coordinate.eqv b.coordinate = false := by
  obtain ⟨base, later, hlog, he, hp⟩ := h.parts
  have hall : (Reference.occurrences spaceId (base ++ later)).Pairwise fun a b => a.coordinate.eqv b.coordinate = false :=
    hlog ▸ ha.coordinates
  have hpart : ((r.events ++ r.pending).map (·.coordinate)).Sublist
      ((Reference.occurrences spaceId (base ++ later)).map (·.coordinate)) := by
    have hoccs : Reference.occurrences spaceId (base ++ later) =
        Reference.occurrences spaceId base ++ Reference.occurrences spaceId later := List.map_append
    rw [List.map_append, coordinates_same he, coordinates_same hp, hoccs, List.map_append]
    exact ((liveOccurrences_sublist spaceId base).map _).append (List.Sublist.refl _)
  rw [← List.pairwise_map (f := fun o : OperationOccurrence => o.coordinate) (R := fun a b => a.eqv b = false)] at hall ⊢
  exact hall.sublist hpart

end Unique

/-! ## Events by coordinate -/

section EventAt

variable {Γ : Host} {r : Rotation}

/-- What a rotation shows is among its events and its pending assertions. -/
theorem mem_of_mem_mergedMatching {base : List OperationOccurrence} {t1 t2 t3 : Option Term} {o : OperationOccurrence}
    (h : o ∈ mergedMatching base pending t1 t2 t3) : o ∈ base ∨ o ∈ pending ∧ o.action = .assert := by
  unfold mergedMatching at h
  induction pending generalizing base with
  | nil => exact Or.inl h
  | cons op pending ih =>
    rw [List.foldl_cons] at h
    rcases ih h with h | ⟨h, ha⟩
    · cases hact : op.action with
      | assert =>
        simp only [hact] at h
        split at h
        · rcases List.mem_append.1 h with h | h
          · exact Or.inl h
          · rw [List.mem_singleton.1 h]
            exact Or.inr ⟨List.mem_cons_self, hact⟩
        · exact Or.inl h
      | retract =>
        simp only [hact] at h
        exact Or.inl ((withoutNewestOf_sublist _ _).subset h)
    · exact Or.inr ⟨List.mem_cons_of_mem _ h, ha⟩

/-- The newest pending assertion of a coordinate, or the event found before. -/
def newestAssertion (occurrence : Triple) (found : Option OperationOccurrence) (pending : List OperationOccurrence) :
    Option OperationOccurrence :=
  pending.foldl (fun found op => if op.action = .assert ∧ occurrence.eqv op.coordinate = true then some op else found) found

/-- The newest assertion is one of the coordinate. -/
theorem newestAssertion_some {c : Triple} {found : Option OperationOccurrence}
    {o : OperationOccurrence} (h : newestAssertion c found pending = some o) :
    found = some o ∨ o ∈ pending ∧ c.eqv o.coordinate = true := by
  unfold newestAssertion at h
  induction pending generalizing found with
  | nil => exact Or.inl h
  | cons op pending ih =>
    rw [List.foldl_cons] at h
    rcases ih h with h | ⟨h, ho⟩
    · split at h
      · rename_i hop
        cases h
        exact Or.inr ⟨List.mem_cons_self, hop.2⟩
      · exact Or.inl h
    · exact Or.inr ⟨List.mem_cons_of_mem _ h, ho⟩

/-- Where there is none, nothing was found before and no pending assertion is of the coordinate. -/
theorem newestAssertion_none {c : Triple} {found : Option OperationOccurrence} (h : newestAssertion c found pending = none) :
    found = none ∧ ∀ o ∈ pending, o.action = .assert → c.eqv o.coordinate = false := by
  unfold newestAssertion at h
  induction pending generalizing found with
  | nil => exact ⟨h, by simp⟩
  | cons op pending ih =>
    rw [List.foldl_cons] at h
    obtain ⟨hf, hrest⟩ := ih h
    split at hf
    · cases hf
    · rename_i hop
      refine ⟨hf, ?_⟩
      intro o ho ha
      rcases List.mem_cons.1 ho with rfl | ho
      · exact Bool.eq_false_iff.2 fun he => hop ⟨ha, he⟩
      · exact hrest o ho ha

/-- A list of unequal coordinates has one event of a coordinate at most. -/
theorem eq_of_coordinate_eqv (h : l.Pairwise fun a b => a.coordinate.eqv b.coordinate = false)
    {c : Triple} {a b : OperationOccurrence} (ha : a ∈ l) (hb : b ∈ l) (hca : c.eqv a.coordinate = true)
    (hcb : c.eqv b.coordinate = true) : a = b := by
  by_contra hne
  have hab := Triple.eqv_trans (Triple.eqv_symm hca) hcb
  have hsymm : Std.Symm fun x y : OperationOccurrence => x.coordinate.eqv y.coordinate = false := by
    refine ⟨fun x y hxy => ?_⟩
    rw [Bool.eq_false_iff] at hxy ⊢
    exact fun hyx => hxy (Triple.eqv_symm hyx)
  cases hab.symm.trans (h.forall ha hb hne)

/-- The event of a coordinate is the one that stands, where its proposition is equal to itself. -/
theorem eventAt_eq (hi : Indexed Γ r) (hl : Located Γ r)
    (hu : (r.events ++ r.pending).Pairwise fun a b => a.coordinate.eqv b.coordinate = false) (c : Triple) :
    eventAt Γ r c = ((allOccurrences r).find? fun e => c.eqv e.coordinate).filter fun e => !e.proposition.hasNaN := by
  have hmem : ∀ o ∈ allOccurrences r, o ∈ r.events ++ r.pending := fun o ho =>
    List.mem_append.2 ((mem_of_mem_mergedMatching ho).imp_right And.left)
  have hread : ∀ p : Triple, byProposition Γ r p = (allOccurrences r).filter (matchesPattern (some p.t1) (some p.t2) (some p.t3)) :=
    fun p => matching_eq hi (some p.t1) (some p.t2) (some p.t3)
  have hloc := hl c
  -- The candidate of the source.
  have hunfold : eventAt Γ r c =
      (newestAssertion c (occurrenceEvent Γ r.byOccurrence r.events c) r.pending).bind fun present =>
        if (byProposition Γ r present.proposition).any fun event => c.eqv event.coordinate then some present else none := by
    simp only [eventAt, newestAssertion]
    generalize r.pending.foldl _ (occurrenceEvent Γ r.byOccurrence r.events c) = candidate
    cases candidate <;> rfl
  rw [hunfold]
  cases hc : newestAssertion c (occurrenceEvent Γ r.byOccurrence r.events c) r.pending with
  | none =>
    obtain ⟨hbase, hpending⟩ := newestAssertion_none hc
    rw [hbase] at hloc
    have : (allOccurrences r).find? (fun e => c.eqv e.coordinate) = none := by
      rw [List.find?_eq_none]
      intro o ho
      rcases mem_of_mem_mergedMatching ho with ho | ⟨ho, ha⟩
      · simp [hloc o ho]
      · simp [hpending o ho ha]
    rw [this]
    rfl
  | some x =>
    have hx : x ∈ r.events ++ r.pending ∧ c.eqv x.coordinate = true := by
      rcases newestAssertion_some hc with hbase | ⟨hm, hcx⟩
      · rw [hbase] at hloc
        exact ⟨List.mem_append_left _ hloc.1, hloc.2⟩
      · exact ⟨List.mem_append_right _ hm, hcx⟩
    rw [Option.bind_some, hread]
    cases hf : (allOccurrences r).find? (fun e => c.eqv e.coordinate) with
    | none =>
      have hnone := List.find?_eq_none.1 hf
      rw [if_neg]
      · rfl
      · rw [List.any_eq_true]
        rintro ⟨o, ho, hco⟩
        exact hnone o (List.mem_filter.1 ho).1 hco
    | some e =>
      have he := List.mem_of_find?_eq_some hf
      have hce : c.eqv e.coordinate = true := by simpa using List.find?_some hf
      obtain rfl := eq_of_coordinate_eqv hu hx.1 (hmem e he) hx.2 hce
      -- Only the event itself is of the coordinate, so its own pattern decides.
      have hself : ((allOccurrences r).filter (matchesPattern (some x.proposition.t1) (some x.proposition.t2)
          (some x.proposition.t3))).any (fun event => c.eqv event.coordinate) = !x.proposition.hasNaN := by
        rw [Bool.eq_iff_iff, List.any_eq_true, Bool.not_eq_true', ← Triple.eqv_self_iff]
        constructor
        · rintro ⟨o, ho, hco⟩
          obtain ⟨ho, hm⟩ := List.mem_filter.1 ho
          obtain rfl := eq_of_coordinate_eqv hu (hmem o ho) (hmem x he) hco hce
          simpa [matchesPattern, patternMatch, slotMatches, Triple.eqv, Triple.term, Term.eqv, and_assoc] using hm
        · intro hp
          refine ⟨x, List.mem_filter.2 ⟨he, ?_⟩, hce⟩
          simpa [matchesPattern, patternMatch, slotMatches, Triple.eqv, Triple.term, Term.eqv, and_assoc] using hp
      rw [hself, Option.filter_some]

end EventAt

/-! ## Agreement with what stands -/

theorem OperationOccurrence.same_symm {o o' : OperationOccurrence} (h : o.same o') : o'.same o :=
  ⟨h.1.symm, h.2.1.symm, h.2.2.symm⟩

theorem OperationOccurrence.same_trans {a b c : OperationOccurrence} (h : a.same b) (h' : b.same c) : a.same c :=
  ⟨h.1.trans h'.1, h.2.1.trans h'.2.1, h.2.2.trans h'.2.2⟩

/-- Lists that are the same as one list are the same. -/
theorem forall₂_same_of_same {m n : List OperationOccurrence} (h : List.Forall₂ OperationOccurrence.same l n)
    (h' : List.Forall₂ OperationOccurrence.same m n) : List.Forall₂ OperationOccurrence.same l m := by
  induction h generalizing m with
  | nil =>
    cases h'
    exact .nil
  | cons ho _ ih =>
    cases h' with
    | cons ho' h' => exact .cons (OperationOccurrence.same_trans ho (OperationOccurrence.same_symm ho')) (ih h')

/-- The first events of related lists that pass tests which agree are related. -/
theorem find?_same {m : List OperationOccurrence} (h : List.Forall₂ OperationOccurrence.same l m)
    {p : OperationOccurrence → Bool} (hp : ∀ x y : OperationOccurrence, x.same y → p x = p y) :
    Option.Rel OperationOccurrence.same (l.find? p) (m.find? p) := by
  induction h with
  | nil => exact .none
  | cons ho _ ih =>
    rename_i a b l m _
    rw [List.find?_cons, List.find?_cons, hp a b ho]
    cases p b with
    | true => exact .some ho
    | false => exact ih

/-- The events whose propositions are equal to the bound positions. -/
def boundTo (t1 t2 t3 : Option Term) (e : OperationOccurrence) : Bool :=
  t1.all (·.eqv e.proposition.t1) && t2.all (·.eqv e.proposition.t2) && t3.all (·.eqv e.proposition.t3)

/-- Occurrences that are the same are equal to the same bound positions. -/
theorem boundTo_same {t1 t2 t3 : Option Term} {x y : OperationOccurrence} (h : x.same y) : boundTo t1 t2 t3 x = boundTo t1 t2 t3 y := by
  obtain ⟨h1, h2, h3⟩ := Term.same_triple_iff.1 h.2.2
  have hslot : ∀ (t : Option Term) (a b : Term), a.same b → t.all (·.eqv a) = t.all (·.eqv b) := by
    intro t a b hab
    cases t with
    | none => rfl
    | some t => exact Term.eqv_congr (Term.same_refl t) hab
  simp only [boundTo, hslot _ _ _ h1, hslot _ _ _ h2, hslot _ _ _ h3]

theorem isSome_rel {o o' : Option OperationOccurrence} (h : Option.Rel OperationOccurrence.same o o') : o.isSome = o'.isSome := by
  cases h <;> rfl

/-- The rotation answers as the list of what stands does: a pattern with the events that are equal to it, in order and each once; a
coordinate with the event that has it, unless its proposition holds a NaN. -/
structure Agrees (Γ : Host) (r : Rotation) (live : List OperationOccurrence) : Prop where
  matching : ∀ t1 t2 t3, List.Forall₂ OperationOccurrence.same (matching Γ r t1 t2 t3) (live.filter (boundTo t1 t2 t3))
  once : ∀ t1 t2 t3, (Fram.matching Γ r t1 t2 t3).Pairwise fun a b => a.coordinate.eqv b.coordinate = false
  eventAt : ∀ c, Option.Rel OperationOccurrence.same (eventAt Γ r c)
    ((live.find? fun e => c.eqv e.coordinate).filter fun e => !e.proposition.hasNaN)
  liveOccurrence : ∀ c, liveOccurrence Γ r c = live.any fun e => c.eqv e.coordinate && !e.proposition.hasNaN

theorem matchesPattern_eq_boundTo (t1 t2 t3 : Option Term) : matchesPattern t1 t2 t3 = boundTo t1 t2 t3 := by
  funext e
  cases t1 <;> cases t2 <;> cases t3 <;> simp [matchesPattern, patternMatch, slotMatches, boundTo, Bool.and_assoc]

/-- A rotation that follows a log answers as what stands of the log does. -/
theorem Follows.agrees {Γ : Host} {r : Rotation} {spaceId : String} {frames : List TransactionFrame} {next : Int}
    (h : Follows Γ r spaceId (logOf frames)) (ha : Advances frames next) {live : List OperationOccurrence}
    (hlive : List.Forall₂ OperationOccurrence.same live (Reference.liveOccurrences spaceId (logOf frames))) : Agrees Γ r live := by
  have hsame := forall₂_same_of_same h.live hlive
  have hu := h.unique ha
  have hnan : ∀ x y : OperationOccurrence, x.same y → x.proposition.hasNaN = y.proposition.hasNaN :=
    fun x y hxy => hxy.2.2.hasNaN
  have hevent : ∀ c, Option.Rel OperationOccurrence.same (Fram.eventAt Γ r c)
      ((live.find? fun e => c.eqv e.coordinate).filter fun e => !e.proposition.hasNaN) := by
    intro c
    rw [eventAt_eq h.indexed h.located hu]
    have hfind := find?_same hsame (p := fun e => c.eqv e.coordinate) fun x y hxy => by rw [hxy.1]
    revert hfind
    cases (allOccurrences r).find? (fun e => c.eqv e.coordinate) <;> cases live.find? (fun e => c.eqv e.coordinate) <;>
      intro hfind
    · exact .none
    · cases hfind
    · cases hfind
    · cases hfind with
      | some hxy =>
        rw [Option.filter_some, Option.filter_some, hnan _ _ hxy]
        split
        · exact .some hxy
        · exact .none
  have hlu := unique_of_same hlive (ha.coordinates.sublist (liveOccurrences_sublist spaceId _))
  refine ⟨fun t1 t2 t3 => ?_, fun t1 t2 t3 => ?_, hevent, fun c => ?_⟩
  · rw [matching_eq h.indexed, matchesPattern_eq_boundTo]
    exact List.rel_filter (fun x y hxy => iff_of_eq (congrArg (· = true) (boundTo_same hxy))) hsame
  · rw [matching_eq h.indexed]
    exact (unique_of_same hsame hlu).sublist List.filter_sublist
  · rw [Fram.liveOccurrence, isSome_rel (hevent c)]
    cases hf : live.find? (fun e => c.eqv e.coordinate) with
    | none =>
      have hnone := List.find?_eq_none.1 hf
      symm
      rw [Option.filter_none, Option.isSome_none, List.any_eq_false]
      intro e he hce
      exact hnone e he (Bool.and_eq_true _ _ ▸ hce).1
    | some e =>
      have he := List.mem_of_find?_eq_some hf
      have hce : c.eqv e.coordinate = true := by simpa using List.find?_some hf
      rw [Option.filter_some, Bool.eq_iff_iff, List.any_eq_true]
      constructor
      · intro hsome
        refine ⟨e, he, ?_⟩
        split at hsome
        · rename_i hn
          rw [hce, hn]
          rfl
        · cases hsome
      · rintro ⟨x, hx, hcx⟩
        rw [Bool.and_eq_true] at hcx
        obtain rfl := eq_of_coordinate_eqv hlu hx he hcx.1 hce
        rw [if_pos hcx.2]
        rfl

end Fram
