import Fram.Lemmas.Forest
import Fram.Lemmas.KnownTerms

/-!
# Forks are isolated, and terms are hash-consed

Forks of a store share its slot tables, and each writes its own positions into them. A member of a family answers as a lone store does
that was given the acts of the member and of its ancestors before the forks, and it has one handle for each term without NaN. A term
that holds a NaN gets a new handle every time and is never known.
-/

namespace Fram

/-- The second store answers every observation as the first: its history, its terms and their handles, and its dump. -/
structure Undisturbed (Γ : Host) (s s' : TermStore) : Prop extends Alike Γ s s' where
  resolve : ∀ handle, resolveHandle s' handle = resolveHandle s handle
  known : ∀ t, knownTermHandle Γ s' t = knownTermHandle Γ s t
  dump : dumpTermStore s' = dumpTermStore s

/-- A member of a family answers as the lone store beside it. -/
theorem Stands.undisturbed {Γ : Host} {s : TermStore} {heap : Heap} {refs : StoreRefs} {history : List MemberAct}
    (h : Stands Γ s heap refs history) : Undisturbed Γ (runMember Γ s history).1 (Held.read ⟨heap, refs⟩) := by
  refine ⟨h.twin.alike h.lone h.member, h.twin.resolveHandle, h.twin.knownTermHandle h.lone.interned h.member.interned, ?_⟩
  simp only [dumpTermStore, h.twin.spaceId, h.twin.nextSequence, h.twin.atoms, h.twin.triples, h.twin.transactions, h.twin.operations]

/-- **Forks are isolated.** After any acts on a family that forks make of a new store, each member answers as a lone store does that
was given the acts of the member and those of its ancestors before the forks, and no other. -/
theorem fork_isolation (Γ : Host) {spaceId : String} {a t b : Nat} {root : Held}
    (h : Held.newTermStoreSized spaceId a t b = .ok root) (acts : List ForestAct) :
    newTermStoreSized spaceId a t b = .ok root.read ∧ (historiesOf acts).length = (grow Γ root acts).members.length ∧
      ∀ (i : Nat) refs history, (grow Γ root acts).members[i]? = some refs → (historiesOf acts)[i]? = some history →
        Undisturbed Γ (runMember Γ root.read history).1 (Held.read ⟨(grow Γ root acts).heap, refs⟩) := by
  have hisolated := isolated_grow (Γ := Γ) h acts
  exact ⟨(newTermStoreSized_read h).1, hisolated.length, fun i refs history hi hhistory =>
    (hisolated.stands i refs history hi hhistory).undisturbed⟩

/-- A parent and its fork intern different atoms at one position of the table they share, and then commit. -/
theorem fork_isolation_pair : ∃ root, Held.newTermStoreSized "s" 0 0 0 = .ok root ∧
      ∀ (i : Nat) refs history,
        (grow Host.zero root [.fork 0, .on 0 (.plain (.intern (.atom (.int 1)))), .on 1 (.plain (.intern (.atom (.int 2)))),
          .on 1 (.plain (.commit [⟨.assert, ⟨.int 1, .int 2, .int 3⟩⟩])), .on 0 (.internTriple 0 0 0)]).members[i]? = some refs →
        (historiesOf [.fork 0, .on 0 (.plain (.intern (.atom (.int 1)))), .on 1 (.plain (.intern (.atom (.int 2)))),
          .on 1 (.plain (.commit [⟨.assert, ⟨.int 1, .int 2, .int 3⟩⟩])), .on 0 (.internTriple 0 0 0)])[i]? = some history →
        Undisturbed Host.zero (runMember Host.zero root.read history).1
          (Held.read ⟨(grow Host.zero root [.fork 0, .on 0 (.plain (.intern (.atom (.int 1)))),
            .on 1 (.plain (.intern (.atom (.int 2)))), .on 1 (.plain (.commit [⟨.assert, ⟨.int 1, .int 2, .int 3⟩⟩])),
            .on 0 (.internTriple 0 0 0)]).heap, refs⟩) :=
  ⟨_, rfl, (@fork_isolation Host.zero "s" 0 0 0 _ rfl _).2.2⟩

/-- One handle stands for each term without NaN, and the terms in it have handles: a triple in it has a lesser one. -/
structure HashConsed (Γ : Host) (s : TermStore) : Prop where
  shared : ∀ t t' h h', knownTermHandle Γ s t = some h → knownTermHandle Γ s t' = some h' → (h = h' ↔ t.eqv t' = true)
  known : ∀ t h, t.hasNaN = false → (knownTermHandle Γ s t = some h ↔ ∃ u, resolveHandle s h = .ok u ∧ u.same t)
  nan : ∀ t, t.hasNaN = true → knownTermHandle Γ s t = none
  inner : ∀ h t, resolveHandle s h = .ok t → ∀ part ∈ t.inner,
    ∃ h', resolveHandle s h' = .ok part ∧ (isAtomHandle h' = true ∨ h' < h)

/-- The second store is the first after a term was interned and the handle returned. -/
structure Consed (Γ : Host) (s s' : TermStore) (t : Term) (h : Int) : Prop where
  resolves : ∃ u, resolveHandle s' h = .ok u ∧ u.same t
  known : t.hasNaN = false → knownTermHandle Γ s' t = some h
  kept : ∀ u k, knownTermHandle Γ s u = some k → knownTermHandle Γ s' u = some k
  others : ∀ u, (∃ k, knownTermHandle Γ s' u = some k) ↔ (∃ k, knownTermHandle Γ s u = some k) ∨ ∃ part ∈ t.parts, part.eqv u = true

section Stores

variable {Γ : Host} {s : TermStore}

theorem Interned.hashConsed (hi : Interned Γ s) : HashConsed Γ s := by
  refine ⟨fun t t' h h' hk hk' => hi.knownTermHandle_inj hk hk', fun t h hn => ?_, fun t hn => hi.knownTermHandle_nan hn,
    fun h t hr part hp => ?_⟩
  · rw [hi.knownTermHandle_iff]
    constructor
    · intro ⟨u, hr, he⟩
      exact ⟨u, hi.resolveHandle_iff.2 hr, ((Term.eqv_iff u t).1 he).2⟩
    · intro ⟨u, hr, hs⟩
      exact ⟨u, hi.resolveHandle_iff.1 hr, (Term.eqv_iff u t).2 ⟨hs.hasNaN.trans hn, hs⟩⟩
  · obtain ⟨h', hr', hlt⟩ := hi.inner_resolves (hi.resolveHandle_iff.1 hr) hp
    exact ⟨h', hi.resolveHandle_iff.2 hr', hlt⟩

/-- What interning a term does. -/
theorem Interned.consed (hi : Interned Γ s) (t : Term) : Consed Γ s (internHandle Γ s t).1 t (internHandle Γ s t).2 := by
  obtain ⟨hi', hg, u, hr, hs, -⟩ := internHandle_spec hi t
  refine ⟨⟨u, hi'.resolveHandle_iff.2 hr, hs⟩, fun hn => ?_, fun v k hk => hi.knownTermHandle_mono hi' hg.atoms hg.triples hk,
    hi.known_internHandle t⟩
  exact (hi'.knownTermHandle_iff t _).2 ⟨u, hr, (Term.eqv_iff u t).2 ⟨hs.hasNaN.trans hn, hs⟩⟩

end Stores

/-! ## Rows stay -/

/-- The rows of the first store begin those of the second. -/
structure Retains (s s' : TermStore) : Prop where
  atoms : s.atoms <+: s'.atoms
  triples : s.triples <+: s'.triples

theorem Retains.refl (s : TermStore) : Retains s s := ⟨List.prefix_refl _, List.prefix_refl _⟩

theorem Retains.trans {s s' s'' : TermStore} (h : Retains s s') (h' : Retains s' s'') : Retains s s'' :=
  ⟨h.atoms.trans h'.atoms, h.triples.trans h'.triples⟩

theorem Grows.retains {s s' : TermStore} (h : Grows s s') : Retains s s' := ⟨h.atoms, h.triples⟩

section Acts

variable {Γ : Host} {s : TermStore}

theorem retains_appendRows (s : TermStore) (sequence : Int) (rows : List (Action × Int)) : Retains s (appendRows Γ s sequence rows) := by
  obtain ⟨-, -, ha, ht, -⟩ := appendRows_rows Γ s sequence rows
  exact ⟨ha ▸ List.prefix_refl _, ht ▸ List.prefix_refl _⟩

theorem retains_appendValidTransaction (s : TermStore) (sequence : Int) (operations : List CommitOperation) :
    Retains s (appendValidTransaction Γ s sequence operations) :=
  (operationHandles_grows Γ s operations).1.retains.trans (retains_appendRows _ sequence _)

theorem retains_appendTransaction {sequence : Int} {operations : List CommitOperation} {s' : TermStore} {c : Triple}
    (h : appendTransaction Γ s sequence operations = .ok (s', c)) : Retains s s' := by
  unfold appendTransaction at h
  split at h
  · cases h
  · split at h
    · cases h
    · simp only [ExceptList.bind_eq_ok_iff, Except.ok.injEq, Prod.mk.injEq] at h
      obtain ⟨_, _, rfl, -⟩ := h
      exact retains_appendValidTransaction s sequence operations

/-- No act takes a row away. -/
theorem StoreAct.retains (act : StoreAct) : Retains s (act.apply Γ s).1 := by
  cases act with
  | commit operations =>
    simp only [StoreAct.apply]
    cases he : commitTransaction Γ s operations with
    | ok r => exact retains_appendTransaction (c := r.2) he
    | error e => exact Retains.refl s
  | replay frame =>
    simp only [StoreAct.apply]
    cases he : replayTransaction Γ s frame with
    | ok r =>
      unfold replayTransaction at he
      split at he
      · exact retains_appendTransaction (c := r.2) he
      · cases he
    | error e => exact Retains.refl s
  | replayResult frame =>
    simp only [StoreAct.apply, replayTransactionResult, appendTransactionResult]
    repeat' split
    all_goals first | exact Retains.refl s | exact retains_appendValidTransaction s _ _
  | replayFused frame =>
    have hg := (operationHandles_grows Γ s frame.operations).1.retains
    simp only [StoreAct.apply, appendReplayedTransaction]
    repeat' split
    all_goals first | exact hg | exact hg.trans (retains_appendRows _ _ _)
  | intern term => exact (internHandle_grows Γ s term).1.retains
  | openFold =>
    have hf := openFold_frame s
    exact ⟨by rw [StoreAct.apply, hf], by rw [StoreAct.apply, hf]⟩
  | closeFold =>
    have hf := closeFold_frame s
    exact ⟨by rw [StoreAct.apply, hf], by rw [StoreAct.apply, hf]⟩

theorem MemberAct.retains (act : MemberAct) : Retains s (act.apply Γ s).1 := by
  cases act with
  | plain act => exact act.retains
  | internTriple t1 t2 t3 =>
    simp only [MemberAct.apply, internTripleHandle]
    split
    · rename_i r he
      split at he
      · have hrow := (internRow_grows Γ s ⟨t1, t2, t3⟩).1.retains
        rwa [Except.ok.inj he] at hrow
      · cases he
    · exact Retains.refl s

theorem retains_runMember (root : TermStore) (history more : List MemberAct) :
    Retains (runMember Γ root history).1 (runMember Γ root (history ++ more)).1 := by
  induction more using List.reverseRecOn with
  | nil =>
    rw [List.append_nil]
    exact Retains.refl _
  | append_singleton more act ih =>
    rw [← List.append_assoc, runMember_concat]
    exact ih.trans act.retains

/-- A member keeps the acts it was given. -/
theorem historiesOf_append (acts more : List ForestAct) {i : Nat} {history : List MemberAct}
    (h : (historiesOf acts)[i]? = some history) : ∃ further, (historiesOf (acts ++ more))[i]? = some (history ++ further) := by
  induction more using List.reverseRecOn with
  | nil => exact ⟨[], by rw [List.append_nil, List.append_nil, h]⟩
  | append_singleton more act ih =>
    obtain ⟨further, hfurther⟩ := ih
    have hlast : historiesOf (acts ++ (more ++ [act])) = act.record (historiesOf (acts ++ more)) := by
      simp only [historiesOf, ← List.append_assoc, List.foldl_append, List.foldl_cons, List.foldl_nil]
    rw [hlast]
    cases act with
    | on member act =>
      simp only [ForestAct.record, List.getElem?_modify, hfurther]
      by_cases hm : member = i
      · exact ⟨further ++ [act], by simp [hm]⟩
      · exact ⟨further, by simp [hm]⟩
    | fork member =>
      exact ⟨further, by rw [ForestAct.record, List.getElem?_append_left (List.getElem?_eq_some_iff.1 hfurther).1, hfurther]⟩

end Acts

/-- **Terms are hash-consed.** After any acts on a family that forks make of a new store, each member has one handle for each term
without NaN. Interning a term in a member returns the handle of the term and makes known its parts and nothing else, and a known term
keeps its handle whatever is done to the family afterwards. -/
theorem hash_consing (Γ : Host) {spaceId : String} {a t b : Nat} {root : Held}
    (h : Held.newTermStoreSized spaceId a t b = .ok root) (acts : List ForestAct) {i : Nat} {refs : StoreRefs}
    (hi : (grow Γ root acts).members[i]? = some refs) : HashConsed Γ (Held.read ⟨(grow Γ root acts).heap, refs⟩) ∧
      (∀ term, Consed Γ (Held.read ⟨(grow Γ root acts).heap, refs⟩)
        (Held.internHandle Γ ⟨(grow Γ root acts).heap, refs⟩ term).1.read term
        (Held.internHandle Γ ⟨(grow Γ root acts).heap, refs⟩ term).2) ∧
      ∀ more refs', (grow Γ root (acts ++ more)).members[i]? = some refs' →
        ∀ term handle, knownTermHandle Γ (Held.read ⟨(grow Γ root acts).heap, refs⟩) term = some handle →
          knownTermHandle Γ (Held.read ⟨(grow Γ root (acts ++ more)).heap, refs'⟩) term = some handle := by
  have hisolated := isolated_grow (Γ := Γ) h acts
  obtain ⟨history, hhistory⟩ := hisolated.history hi
  have hstands := hisolated.stands i refs history hi hhistory
  refine ⟨hstands.member.interned.hashConsed, fun term => ?_, fun more refs' hi' term handle hk => ?_⟩
  · obtain ⟨hb, hhandle⟩ := hstands.owns.internHandle (Γ := Γ) term
    rw [hb.read, hhandle]
    exact hstands.member.interned.consed term
  · obtain ⟨further, hfurther⟩ := historiesOf_append acts more hhistory
    have hstands' := (isolated_grow (Γ := Γ) h (acts ++ more)).stands i refs' _ hi' hfurther
    have hr := retains_runMember (Γ := Γ) root.read history further
    refine hstands.member.interned.knownTermHandle_mono hstands'.member.interned ?_ ?_ hk
    · rw [hstands.twin.atoms, hstands'.twin.atoms]
      exact hr.atoms
    · rw [hstands.twin.triples, hstands'.twin.triples]
      exact hr.triples

/-- A parent and its fork intern different terms at one position of the tables they share. -/
theorem hash_consing_forks : ∃ root, Held.newTermStoreSized "s" 0 0 0 = .ok root ∧ ∃ refs,
      (grow Host.zero root [.fork 0, .on 0 (.plain (.intern (.triple (.atom (.int 1)) (.atom (.int 2)) (.atom (.int 3))))),
        .on 1 (.plain (.intern (.atom (.int 2)))), .on 1 (.internTriple 0 0 0)]).members[1]? = some refs ∧
      HashConsed Host.zero (Held.read ⟨(grow Host.zero root
        [.fork 0, .on 0 (.plain (.intern (.triple (.atom (.int 1)) (.atom (.int 2)) (.atom (.int 3))))),
          .on 1 (.plain (.intern (.atom (.int 2)))), .on 1 (.internTriple 0 0 0)]).heap, refs⟩) :=
  ⟨_, rfl, _, rfl, (@hash_consing Host.zero "s" 0 0 0 _ rfl _ 1 _ rfl).1⟩

/-- A term of an interned triple can have a greater handle than the triple, when it is an atom; and a NaN is not known after it is
interned. -/
theorem inner_handle_greater : ∃ s, newTermStoreSized "s" 0 0 0 = .ok s ∧
      knownTermHandle Host.zero (internHandle Host.zero s (.triple (.atom (.int 1)) (.atom (.int 2)) (.atom (.int 3)))).1
        (.triple (.atom (.int 1)) (.atom (.int 2)) (.atom (.int 3))) = some 1 ∧
      knownTermHandle Host.zero (internHandle Host.zero s (.triple (.atom (.int 1)) (.atom (.int 2)) (.atom (.int 3)))).1
        (.atom (.int 3)) = some 4 ∧
      resolveHandle (internHandle Host.zero s (.atom (.float F64.nan))).1
        (internHandle Host.zero s (.atom (.float F64.nan))).2 = .ok (.atom (.float F64.nan)) ∧
      knownTermHandle Host.zero (internHandle Host.zero s (.atom (.float F64.nan))).1 (.atom (.float F64.nan)) = none :=
  ⟨_, rfl, by with_unfolding_all decide, by with_unfolding_all decide, by with_unfolding_all decide, by with_unfolding_all decide⟩

end Fram
