import Fram.Lemmas.EventAt
import Fram.Lemmas.Historical
import Fram.Lemmas.Run

/-!
# Stores show their history, and historical views are faithful

Whatever is done to a store that was built empty, it shows the occurrences, withdrawals and liveness of the reference history of its
accepted transactions. The stores rebuilt for a version show what the store showed when it stood there, except that `snapshot-root!`
refuses an earlier version of a store that holds a NaN. A rotation, projected and refreshed anywhere on a run, answers as the live
occurrences of the store do, and staged with the next transaction as the store does once that is committed.
-/

namespace Fram

/-- **A store shows the reference history.** After any acts on a store that was built empty, every observation is that of the
reference history of the accepted frames. In it each assertion is withdrawn at most once, by a strictly later retraction of a
proposition equal to its own. -/
theorem store_shows_history (Γ : Host) {spaceId : String} {a t b : Nat} {s : TermStore}
    (h : newTermStoreSized spaceId a t b = .ok s) (acts : List StoreAct) :
    Shows Γ spaceId (runActs Γ s acts).1 (logOf (runActs Γ s acts).2) ∧
      (∀ (p p' q : Nat), (reading (logOf (runActs Γ s acts).2)).targets[p]? = some (some q) →
        (reading (logOf (runActs Γ s acts).2)).targets[p']? = some (some q) → p = p') ∧
      (∀ (p q : Nat), (reading (logOf (runActs Γ s acts).2)).targets[p]? = some (some q) →
        q < p ∧ ∃ a b, (logOf (runActs Γ s acts).2)[q]? = some a ∧ (logOf (runActs Γ s acts).2)[p]? = some b ∧
          a.action = .assert ∧ b.action = .retract ∧ a.proposition.eqv b.proposition = true) := by
  obtain ⟨hr, hs⟩ := represents_runActs (Γ := Γ) h acts
  refine ⟨?_, (reads_reading _).injective, fun p q => reading_target⟩
  have := hr.shows
  rwa [hs] at this

/-- A commit that asserts one proposition twice and retracts it once, inside an open fold that is then closed. -/
theorem store_shows_history_batch : ∃ s, newTermStoreSized "s" 0 0 0 = .ok s ∧
      Shows Host.zero "s"
        (runActs Host.zero s [.openFold, .commit [⟨.assert, ⟨.int 1, .int 2, .int 3⟩⟩, ⟨.assert, ⟨.int 1, .int 2, .int 3⟩⟩,
          ⟨.retract, ⟨.int 1, .int 2, .int 3⟩⟩], .closeFold]).1
        (logOf (runActs Host.zero s [.openFold, .commit [⟨.assert, ⟨.int 1, .int 2, .int 3⟩⟩,
          ⟨.assert, ⟨.int 1, .int 2, .int 3⟩⟩, ⟨.retract, ⟨.int 1, .int 2, .int 3⟩⟩], .closeFold]).2) :=
  ⟨_, rfl, (@store_shows_history Host.zero "s" 0 0 0 _ rfl _).1⟩

/-- The run stands at a version after its first acts: they commit nothing past the version, and the later ones nothing up to it. -/
structure StandsAt (Γ : Host) (s : TermStore) (before after : List StoreAct) (version : Int) : Prop where
  reached : currentSequence (runActs Γ s before).1 ≤ version
  later : ∀ frame ∈ (runActs Γ s (before ++ after)).2.drop (runActs Γ s before).2.length, version < frame.sequence

/-- (`historical-root!`) The store rebuilt for a version shows what the store of the past showed. -/
def HistoricalFaithful (Γ : Host) (root past : TermStore) (version : Int) : Prop :=
  ∃ copy, Dispatch.historicalRoot Γ root version = .ok copy ∧ Alike Γ past copy

/-- (`snapshot-root!`) The store rebuilt for a version shows what the store of the past showed, and no error is recorded. -/
def SnapshotFaithful (Γ : Host) (root past : TermStore) (version : Int) : Prop :=
  ∀ context, ∃ copy, snapshotRoot Γ context root version = .ok (context, copy) ∧ Alike Γ past copy

/-- A checked read can go back to the version: the store stands at it, or holds no NaN and up to the version no sequence past the
greatest. -/
def ReadableAt (root : TermStore) (version : Int) : Prop :=
  version = currentSequence root ∨ validAtomRows root.atoms = true ∧
    ∀ row ∈ root.transactions, row.sequence ≤ version → row.sequence ≤ maxTransactionSequence

section Past

variable {Γ : Host} {s : TermStore}

/-- At every version from the first on there is a point at which the run stands. -/
theorem exists_standsAt {spaceId : String} {a t b : Nat} (h : newTermStoreSized spaceId a t b = .ok s) (acts : List StoreAct)
    {version : Int} (hpos : 0 ≤ version) : ∃ before after, acts = before ++ after ∧ StandsAt Γ s before after version := by
  induction acts using List.reverseRecOn with
  | nil =>
    refine ⟨[], [], rfl, ?_, by simp [runActs]⟩
    have hrep := (represents_runActs (Γ := Γ) h []).1
    rw [hrep.currentSequence]
    exact hpos
  | append_singleton acts act ih =>
    by_cases hv : currentSequence (runActs Γ s (acts ++ [act])).1 ≤ version
    · exact ⟨acts ++ [act], [], by simp, hv, by simp⟩
    · obtain ⟨before, after, rfl, hstands⟩ := ih
      refine ⟨before, after ++ [act], by simp, hstands.reached, ?_⟩
      obtain ⟨fs, hfs⟩ : ∃ fs, (runActs Γ s (before ++ after)).2 = (runActs Γ s before).2 ++ fs := runActs_append Γ s before after
      have hlater := hstands.later
      have hrep := (represents_runActs (Γ := Γ) h (before ++ after ++ [act])).1
      have hcur := hrep.currentSequence
      rw [← List.append_assoc]
      rw [runActs_concat] at hcur hv ⊢
      rw [hfs, List.drop_left] at hlater
      simp only [hfs, List.append_assoc, List.drop_left] at hcur hv ⊢
      intro frame hframe
      rcases List.mem_append.1 hframe with hframe | hframe
      · exact hlater frame hframe
      · cases haccept : (act.apply Γ (runActs Γ s (before ++ after)).1).2 with
        | none =>
          rw [haccept] at hframe
          cases hframe
        | some accepted =>
          rw [haccept] at hframe hcur
          obtain rfl : frame = accepted := by simpa using hframe
          rw [Option.toList_some, ← List.append_assoc, List.getLast?_concat, Option.map_some, Option.getD_some] at hcur
          omega

/-- The condition of a checked read, over the frames up to the version. -/
theorem readableAt_iff {root : TermStore} {base rest : List TransactionFrame} {version : Int} (h : Represents Γ root (base ++ rest))
    (he : Ends version base rest) : ReadableAt root version ↔ version = currentSequence root ∨
      validAtomRows root.atoms = true ∧ ∀ f ∈ base, f.sequence ≤ maxTransactionSequence := by
  have hrows : (∀ row ∈ root.transactions, row.sequence ≤ version → row.sequence ≤ maxTransactionSequence) ↔
      ∀ q ∈ (base ++ rest).map (·.sequence), q ≤ version → q ≤ maxTransactionSequence := by
    rw [← transactionRows_sequence 0 (base ++ rest), ← h.transactions]
    simp
  unfold ReadableAt
  rw [hrows]
  refine or_congr_right (and_congr_right fun _ => ⟨fun hall f hf => ?_, fun hall q hq hle => ?_⟩)
  · exact hall _ (List.mem_map_of_mem (List.mem_append_left _ hf)) (he.upper f hf)
  · obtain ⟨f, hf, rfl⟩ := List.mem_map.1 hq
    rcases List.mem_append.1 hf with hf | hf
    · exact hall f hf
    · have := he.lower f hf
      omega

end Past

/-- **Historical views are faithful.** For every version of a run there is a point at which the run stands. From wherever the run
has got to, `historical-root!` rebuilds a store that shows exactly what the store showed there, and `snapshot-root!` does so exactly
when a checked read can go back to the version. -/
theorem historical_views (Γ : Host) {spaceId : String} {a t b : Nat} {s : TermStore}
    (h : newTermStoreSized spaceId a t b = .ok s) (acts : List StoreAct) {version : Int} (hpos : 0 ≤ version)
    (hle : version ≤ currentSequence (runActs Γ s acts).1) : (∃ before after, acts = before ++ after ∧ StandsAt Γ s before after version) ∧
      ∀ before after, acts = before ++ after → StandsAt Γ s before after version →
        HistoricalFaithful Γ (runActs Γ s acts).1 (runActs Γ s before).1 version ∧
          (SnapshotFaithful Γ (runActs Γ s acts).1 (runActs Γ s before).1 version ↔ ReadableAt (runActs Γ s acts).1 version) := by
  refine ⟨exists_standsAt h acts hpos, ?_⟩
  rintro before after rfl hstands
  obtain ⟨hpast, hpastSpace⟩ := represents_runActs (Γ := Γ) h before
  obtain ⟨hroot, hrootSpace⟩ := represents_runActs (Γ := Γ) h (before ++ after)
  obtain ⟨rest, hrest⟩ := runActs_append Γ s before after
  have hatoms := runActs_atoms (Γ := Γ) h before after
  have hlater := hstands.later
  rw [hrest] at hroot hlater
  rw [List.drop_left] at hlater
  have hends : Ends version (runActs Γ s before).2 rest := by
    refine ⟨fun f hf => ?_, hlater⟩
    have h1 := hpast.advances.upper f hf
    have h2 := hstands.reached
    unfold currentSequence at h2
    omega
  -- A copy is over the atoms of the store, as the store of the past is.
  have halike : ∀ copy, CopyOf Γ (runActs Γ s (before ++ after)).1 (runActs Γ s before).2 copy → Alike Γ (runActs Γ s before).1 copy :=
    fun copy hcopy => hpast.alike hcopy.represents (hcopy.space.trans (hrootSpace.trans hpastSpace.symm)) hroot.interned.apart
      (fun x hx => hatoms.subset hx) hcopy.atoms
  refine ⟨?_, ?_⟩
  · obtain ⟨copy, hok, hcopy⟩ := hroot.historicalRoot hends
    exact ⟨copy, hok, halike copy hcopy⟩
  · rw [readableAt_iff hroot hends]
    rcases hle.lt_or_eq with hlt | heq
    · obtain ⟨hyes, hno⟩ := hroot.snapshotRoot hends hpos hlt
      rw [or_iff_right (by omega)]
      constructor
      · intro hfaithful
        by_contra hnot
        obtain ⟨error, herror⟩ := hno hnot
        obtain ⟨copy, hok, -⟩ := hfaithful none
        rw [herror] at hok
        cases hok
      · intro hcond context
        obtain ⟨copy, hcopy, hok⟩ := hyes hcond
        exact ⟨copy, hok context, halike copy hcopy⟩
    · refine iff_of_true (fun context => ⟨_, ?_, halike _ (hroot.copyOf_self (heq ▸ hends))⟩) (Or.inl heq)
      unfold snapshotRoot
      dsimp only
      rw [if_neg (by omega), if_pos heq]

/-- The run that the next two statements are about: an assertion, and its retraction in a later transaction. -/
def assertThenRetract (p : Triple) : List StoreAct := [.commit [⟨.assert, p⟩], .commit [⟨.retract, p⟩]]

/-- The first version of an assertion that is retracted later. -/
theorem historical_views_first : ∃ s, newTermStoreSized "s" 0 0 0 = .ok s ∧
    (∃ before after, assertThenRetract ⟨.int 1, .int 2, .int 3⟩ = before ++ after ∧ StandsAt Host.zero s before after 1) ∧
    ∀ before after, assertThenRetract ⟨.int 1, .int 2, .int 3⟩ = before ++ after → StandsAt Host.zero s before after 1 →
      HistoricalFaithful Host.zero (runActs Host.zero s (assertThenRetract ⟨.int 1, .int 2, .int 3⟩)).1
          (runActs Host.zero s before).1 1 ∧
        (SnapshotFaithful Host.zero (runActs Host.zero s (assertThenRetract ⟨.int 1, .int 2, .int 3⟩)).1
            (runActs Host.zero s before).1 1 ↔
          ReadableAt (runActs Host.zero s (assertThenRetract ⟨.int 1, .int 2, .int 3⟩)).1 1) :=
  ⟨_, rfl, @historical_views Host.zero "s" 0 0 0 _ rfl (assertThenRetract ⟨.int 1, .int 2, .int 3⟩) 1 (by decide) (by decide)⟩

/-- A store that holds a NaN refuses the snapshot of its first version. -/
theorem historical_views_nan : ∃ s, newTermStoreSized "s" 0 0 0 = .ok s ∧
    StandsAt Host.zero s [.commit [⟨.assert, ⟨.atom (.float .nan), .int 2, .int 3⟩⟩]]
      [.commit [⟨.retract, ⟨.atom (.float .nan), .int 2, .int 3⟩⟩]] 1 ∧
    snapshotRoot Host.zero none (runActs Host.zero s (assertThenRetract ⟨.atom (.float .nan), .int 2, .int 3⟩)).1 1 =
      .ok (some ⟨⟨"invalid-term"⟩, "native read operation failed"⟩,
        (runActs Host.zero s (assertThenRetract ⟨.atom (.float .nan), .int 2, .int 3⟩)).1) ∧
    ¬SnapshotFaithful Host.zero (runActs Host.zero s (assertThenRetract ⟨.atom (.float .nan), .int 2, .int 3⟩)).1
      (runActs Host.zero s [.commit [⟨.assert, ⟨.atom (.float .nan), .int 2, .int 3⟩⟩]]).1 1 := by
  refine ⟨_, rfl, ⟨by decide, by decide⟩, rfl, fun hfaithful => ?_⟩
  obtain ⟨copy, hok, -⟩ := hfaithful none
  have hrefused : (Except.ok (some (⟨⟨"invalid-term"⟩, "native read operation failed"⟩ : ReadError), _) :
      Except Fault (ReadContext × TermStore)) = .ok (none, copy) := hok
  cases hrefused

/-! ## Rotations -/

/-- The rotations that a run of a store gives: projected at some point of it, and refreshed at later ones. -/
inductive Rotates (Γ : Host) (s : TermStore) : List StoreAct → Rotation → Prop where
  | project {acts : List StoreAct} {r : Rotation} (h : project Γ (runActs Γ s acts).1 = .ok r) : Rotates Γ s acts r
  | refresh {acts more : List StoreAct} {r r' : Rotation} (h : Rotates Γ s acts r)
    (h' : refresh Γ r (runActs Γ s (acts ++ more)).1 = .ok r') : Rotates Γ s (acts ++ more) r'

section Agreement

variable {Γ : Host} {s : TermStore}

/-- A rotation of a run covers the frames accepted on it. -/
theorem Rotates.covers {spaceId : String} {a t b : Nat} (h : newTermStoreSized spaceId a t b = .ok s) {acts : List StoreAct}
    {r : Rotation} (hr : Rotates Γ s acts r) : Covers Γ r spaceId (runActs Γ s acts).2 := by
  induction hr with
  | @project acts r hp =>
    obtain ⟨hrep, hs⟩ := represents_runActs (Γ := Γ) h acts
    obtain ⟨r', hr', hcovers⟩ := project_ok hrep
    rw [hp] at hr'
    cases hr'
    rwa [hs] at hcovers
  | @refresh acts more r r' _ hr' ih =>
    obtain ⟨hrep, hs⟩ := represents_runActs (Γ := Γ) h (acts ++ more)
    obtain ⟨fs, hfs⟩ := runActs_append Γ s acts more
    rw [hfs] at hrep ⊢
    obtain ⟨r'', hr'', hcovers⟩ := refresh_ok (hs.symm ▸ ih) hrep
    rw [hr'] at hr''
    cases hr''
    rwa [hs] at hcovers

/-- A rotation of a run with the operations of one more frame pending follows the log with the frame. -/
theorem Covers.staged {r : Rotation} {spaceId : String} {frames : List TransactionFrame} (h : Covers Γ r spaceId frames)
    (hs : 0 < spaceId.length) {frame : TransactionFrame} (hq : 0 ≤ frame.sequence) :
    ∃ r', staged r spaceId frame.sequence frame.operations = .ok r' ∧ Follows Γ r' spaceId (logOf (frames ++ [frame])) := by
  have hsame : List.Forall₂ CommitOperation.same frame.operations frame.operations := 
    List.forall₂_same.2 fun o _ => ⟨rfl, Triple.same_refl _⟩
  obtain ⟨ops, hops, hopsSame⟩ := pendingFrom_ok hs hq hsame 0
  refine ⟨{ r with pending := r.pending ++ ops }, ?_, ?_⟩
  · simp only [Fram.staged, pendingWithFrame, transactionCoordinate_ok hs hq, hops, bind, Except.bind]
  · rw [logOf_append, logOf_singleton]
    exact h.toFollows.append hopsSame r.version

end Agreement

end Fram
