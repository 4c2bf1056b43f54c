import Fram.Lemmas.Historical
import Fram.Lib.Records

/-!
# Frames that continue a history

`Continues next frames` says that a store whose next sequence is `next` takes the frames in order. A walk that replays frames succeeds
exactly when they continue the store (`Represents.foldlM_ok_iff`), and the frames of a history continue the empty one
(`Represents.continues`). A scan of bytes finds frames that continue, one in each record (`scans_iff`).
-/

namespace Fram

open Reader LittleEndian

/-- The sequences of the frames advance from `next` on, none is past the greatest, and no frame is empty. -/
def Continues : Int → List TransactionFrame → Prop
  | _, [] => True
  | next, frame :: frames =>
    (next ≤ frame.sequence ∧ frame.sequence ≤ maxTransactionSequence ∧ frame.operations ≠ []) ∧
      Continues (frame.sequence + 1) frames

section Continues

variable {next : Int} {frames fs : List TransactionFrame}

/-- The first of frames that continue. -/
theorem Continues.of_append (h : Continues next (frames ++ fs)) : Continues next frames := by
  induction frames generalizing next with
  | nil => trivial
  | cons f frames ih => exact ⟨h.1, ih h.2⟩

theorem Continues.of_prefix (h : Continues next fs) (hp : frames <+: fs) : Continues next frames := by
  obtain ⟨more, rfl⟩ := hp
  exact h.of_append

theorem continues_of_sorted (hs : (frames.map (·.sequence)).Pairwise (· < ·)) (hl : ∀ f ∈ frames, next ≤ f.sequence)
    (hu : ∀ f ∈ frames, f.sequence ≤ maxTransactionSequence) (hn : ∀ f ∈ frames, f.operations ≠ []) : Continues next frames := by
  induction frames generalizing next with
  | nil => trivial
  | cons f frames ih =>
    rw [List.forall_mem_cons] at hl hu hn
    rw [List.map_cons, List.pairwise_cons] at hs
    exact ⟨⟨hl.1, hu.1, hn.1⟩, ih hs.2 (fun g hg => hs.1 _ (List.mem_map_of_mem hg)) hu.2 hn.2⟩

end Continues

section Replay

variable {Γ : Host} {s s' : TermStore} {frames fs : List TransactionFrame}

/-- The frames of a store whose sequences have not run out continue the empty history. -/
theorem Represents.continues (h : Represents Γ s frames) (hnext : s.nextSequence ≤ maxTransactionSequence + 1) : Continues 1 frames := by
  refine continues_of_sorted h.advances.sorted h.advances.lower (fun f hf => ?_) h.advances.nonempty
  have := h.advances.upper f hf
  omega

/-- Frames that continue a store extend its history. -/
theorem Represents.appendContinues (h : Represents Γ s frames) (hc : Continues s.nextSequence fs) :
    Represents Γ (Fram.appendFrames Γ s fs) (frames ++ fs) := by
  induction fs generalizing s frames with
  | nil => simpa [Fram.appendFrames] using h
  | cons f fs ih =>
    obtain ⟨⟨hl, -, hn⟩, hc⟩ := hc
    have := ih (h.appendValidTransaction hl hn) hc
    simpa [Fram.appendFrames, List.append_assoc] using this

/-- A frame is replayed exactly when it continues the store. -/
theorem Represents.replayTransactionLong_ok_iff (h : Represents Γ s frames) {f : TransactionFrame} :
    (∃ c, replayTransactionLong Γ s f = .ok (s', c)) ↔
      (s.nextSequence ≤ f.sequence ∧ f.sequence ≤ maxTransactionSequence ∧ f.operations ≠ []) ∧
        s' = Fram.appendValidTransaction Γ s f.sequence f.operations := by
  unfold replayTransactionLong
  simp only [ExceptList.bind_eq_ok_iff]
  constructor
  · rintro ⟨c, replayed, hr, hmax⟩
    split at hmax
    · cases hmax
    rename_i hle
    cases hmax
    have hr' := hr
    unfold Fram.replayTransaction at hr'
    split at hr'
    · rename_i hf
      unfold Fram.appendTransaction at hr'
      rw [if_neg (by simp [hf.2])] at hr'
      split at hr'
      · cases hr'
      · rename_i hlow
        have hn : f.operations ≠ [] := by simpa using hf.2
        obtain ⟨c', hc'⟩ := h.replayTransaction (f := f) (by omega) hn
        rw [hr] at hc'
        cases hc'
        exact ⟨⟨by omega, by omega, hn⟩, rfl⟩
    · cases hr'
  · rintro ⟨⟨hl, hu, hn⟩, rfl⟩
    obtain ⟨c, hc⟩ := h.replayTransaction hl hn
    exact ⟨c, _, hc, if_neg (by omega)⟩

/-- A walk that replays frames succeeds exactly when they continue the store, and appends them. -/
theorem Represents.foldlM_ok_iff (h : Represents Γ s frames) {ε : Type} {step : TermStore → TransactionFrame → Except ε TermStore}
    (hstep : ∀ {s frames} f s', Represents Γ s frames → (step s f = .ok s' ↔
      (s.nextSequence ≤ f.sequence ∧ f.sequence ≤ maxTransactionSequence ∧ f.operations ≠ []) ∧
        s' = Fram.appendValidTransaction Γ s f.sequence f.operations)) :
    fs.foldlM step s = .ok s' ↔ Continues s.nextSequence fs ∧ s' = Fram.appendFrames Γ s fs := by
  induction fs generalizing s frames with
  | nil =>
    constructor
    · intro h
      cases h
      exact ⟨trivial, rfl⟩
    · rintro ⟨-, rfl⟩
      rfl
  | cons f fs ih =>
    rw [List.foldlM_cons, ExceptList.bind_eq_ok_iff]
    simp only [hstep f _ h]
    constructor
    · rintro ⟨s1, ⟨hf, rfl⟩, hs⟩
      obtain ⟨hc, rfl⟩ := (ih (h.appendValidTransaction hf.1 hf.2.2)).1 hs
      exact ⟨⟨hf, hc⟩, rfl⟩
    · rintro ⟨⟨hf, hc⟩, rfl⟩
      exact ⟨_, ⟨hf, rfl⟩, (ih (h.appendValidTransaction hf.1 hf.2.2)).2 ⟨hc, rfl⟩⟩

end Replay

section Scan

variable {next : Int} {rest : Bytes} {frames : List TransactionFrame} {n : Nat}

/-- The payloads decode to the frames. -/
def Decode (payloads : List Bytes) (frames : List TransactionFrame) : Prop :=
  List.Forall₂ (fun payload frame => decodeFramePayload payload = .ok frame) payloads frames

/-- A payload that decodes has operations. -/
theorem nonempty_of_decode {payload : Bytes} {frame : TransactionFrame} (h : decodeFramePayload payload = .ok frame) :
    frame.operations ≠ [] :=
  (decodeFramePayload_eq_ok_iff.1 h).2.1.nonempty

/-- A scan finds a frame in each record, and these frames continue. -/
theorem scans_iff : Scans next rest frames n ↔ ∃ payloads tail, Records.Pieces crc32 framlogStreamMaxPayloadBytes rest payloads tail ∧
    Decode payloads frames ∧ Continues next frames ∧ n = (Records.records crc32 payloads).length := by
  constructor
  · intro h
    induction h with
    | torn ht => exact ⟨[], _, Records.pieces_nil_iff.2 ⟨rfl, ht⟩, .nil, trivial, rfl⟩
    | @frame next payload rest frame frames n ha _ ih =>
      obtain ⟨payloads, tail, hp, hd, hc, rfl⟩ := ih
      refine ⟨payload :: payloads, tail, Records.pieces_cons_iff.2 ⟨rest, rfl, ha.size, hp⟩, .cons ha.decodes hd,
        ⟨⟨ha.lower, ha.upper, nonempty_of_decode ha.decodes⟩, hc⟩, ?_⟩
      rw [Records.records_cons, List.length_append, Records.length_record]
  · rintro ⟨payloads, tail, hp, hd, hc, rfl⟩
    induction hd generalizing next rest with
    | nil =>
      obtain ⟨rfl, ht⟩ := Records.pieces_nil_iff.1 hp
      exact .torn ht
    | @cons payload frame payloads frames hf _ ih =>
      obtain ⟨more, rfl, hs, hp⟩ := Records.pieces_cons_iff.1 hp
      obtain ⟨⟨hl, hu, -⟩, hc⟩ := hc
      have := Scans.frame ⟨hs, hf, hl, hu⟩ (ih hp hc)
      rw [Records.records_cons, List.length_append, Records.length_record]
      exact this

end Scan

end Fram
