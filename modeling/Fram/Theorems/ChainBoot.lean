import Fram.Lemmas.Chain
import Fram.Lemmas.Twin
import Fram.Lemmas.WholeLog

/-!
# Booting a branch from its members

The native engine folds the members of a branch by what their bytes hold; the chain law compares a ref with the members that it names.
A branch boots exactly when its members keep the law of a ref that records their sizes, their frames continue each other, and no NaN is
in them: the law does not look into a member, and the boot does not look at recorded sizes.
-/

namespace Fram

open Reader LittleEndian
open Lines (Text)
open Database (memberOf sequenceOf nextOf StartsAt Positive)

variable {start last next : Int} {folding : Folding} {document : RefDocument} {index : Nat} {spaceId : String}
  {segments : List (SegmentRecord × Bytes)} {tail : Bytes} {members : List (ChainMember × List TransactionFrame)} {tailMember : ChainMember}
  {tailFrames : List TransactionFrame}

section ChainBoot

variable {Γ : Host} {s s' : TermStore} {before frames : List TransactionFrame} {bytes rest : Bytes} {valid : Nat}

/-! ## One member -/

/-- A frame is replayed exactly when it continues the store. -/
theorem Represents.replayTransactionResult_ok_iff (h : Represents Γ s before) {f : TransactionFrame} :
    (replayTransactionResult Γ s f).2.ok = true ↔
      s.nextSequence ≤ f.sequence ∧ f.sequence ≤ maxTransactionSequence ∧ f.operations ≠ [] := by
  have hone := h.one_le_nextSequence
  unfold replayTransactionResult appendTransactionResult
  by_cases hn : f.operations = []
  · rw [if_neg (by simp [hn])]
    simp [hn, transactionReplayError]
  · rw [if_neg (by simp [hn] : ¬f.operations.isEmpty = true)]
    by_cases hlow : f.sequence < s.nextSequence
    · rw [if_pos hlow]
      split
      · simp [nonmonotonicSequence, transactionReplayError, hlow]
      · simp [transactionReplayError, hlow]
    · rw [if_neg hlow, if_pos ⟨by omega, by simp [hn]⟩]
      by_cases hhigh : maxTransactionSequence < f.sequence
      · rw [if_pos hhigh]
        simp [transactionReplayUnclassifiedError, hhigh]
      · rw [if_neg hhigh]
        simp [transactionReplayOk, hn]
        omega

theorem Represents.replayTransactionResult_fst (h : Represents Γ s before) {f : TransactionFrame}
    (hf : s.nextSequence ≤ f.sequence ∧ f.sequence ≤ maxTransactionSequence ∧ f.operations ≠ []) :
    (replayTransactionResult Γ s f).1 = Fram.appendValidTransaction Γ s f.sequence f.operations := by
  have hone := h.one_le_nextSequence
  obtain ⟨hlow, hhigh, hn⟩ := hf
  unfold replayTransactionResult appendTransactionResult
  rw [if_pos ⟨by omega, by simp [hn]⟩, if_neg (by simp [hn]), if_neg (by omega), if_neg (by omega)]

/-- A payload is folded exactly when it decodes to a frame that continues the store, and for the first one begins the member. -/
theorem foldChainFrame_ok_iff (h : Represents Γ s before) {first : Bool} {payload : Bytes} :
    foldChainFrame Γ start (s, first, last) payload = .ok folding ↔ ∃ f, decodeFramePayload payload = .ok f ∧
      (first = true → f.sequence = s.nextSequence ∧ (0 < start → f.sequence = start)) ∧
      (s.nextSequence ≤ f.sequence ∧ f.sequence ≤ maxTransactionSequence ∧ f.operations ≠ []) ∧
      folding = (Fram.appendValidTransaction Γ s f.sequence f.operations, false, f.sequence) := by
  unfold foldChainFrame
  dsimp only
  cases hd : decodeFramePayload payload with
  | error message => simp
  | ok f =>
    simp only [Except.ok.injEq, exists_eq_left']
    rw [← h.replayTransactionResult_ok_iff]
    by_cases hfirst : first = true ∧ f.sequence ≠ s.nextSequence
    · rw [if_pos hfirst]
      simp only [reduceCtorEq, false_iff]
      intro hall
      exact hfirst.2 (hall.1 hfirst.1).1
    · rw [if_neg hfirst]
      by_cases hstart : first = true ∧ 0 < start ∧ f.sequence ≠ start
      · rw [if_pos hstart]
        simp only [reduceCtorEq, false_iff]
        intro hall
        exact hstart.2.2 ((hall.1 hstart.1).2 hstart.2.1)
      · rw [if_neg hstart]
        have hbegins : first = true → f.sequence = s.nextSequence ∧ (0 < start → f.sequence = start) := by
          intro ht
          exact ⟨by_contra fun hne => hfirst ⟨ht, hne⟩, fun hpos => by_contra fun hne => hstart ⟨ht, hpos, hne⟩⟩
        cases hr : replayTransactionResult Γ s f with
        | mk root result =>
          dsimp only
          cases hok : result.ok with
          | false => simp
          | true =>
            have hcont := h.replayTransactionResult_ok_iff.1 (by rw [hr]; exact hok)
            have hroot := h.replayTransactionResult_fst hcont
            rw [hr] at hroot
            rw [if_pos rfl, ← hroot]
            simp only [Except.ok.injEq, true_and]
            constructor
            · intro he
              exact ⟨hbegins, he.symm⟩
            · intro he
              exact he.2.symm

/-- The last sequence of frames of which there is one. -/
theorem getD_getLast?_cons (f : TransactionFrame) (fs : List TransactionFrame) (last : Int) :
    ((f :: fs).getLast?.map (·.sequence)).getD last = (fs.getLast?.map (·.sequence)).getD f.sequence := by
  cases fs with
  | nil => rfl
  | cons g fs =>
    rw [List.getLast?_cons_cons]
    cases hl : (g :: fs).getLast? with
    | none => simp at hl
    | some l => rfl

/-- Payloads are folded exactly when they decode to frames that continue the store. The first payload of a member, where the folding says
that none was read yet, has the store's next sequence and the one that is recorded, if one is. -/
theorem foldlM_foldChainFrame (h : Represents Γ s before) {payloads : List Bytes} :
    payloads.foldlM (foldChainFrame Γ start) (s, first, last) = .ok folding ↔ ∃ fs, Decode payloads fs ∧ Continues s.nextSequence fs ∧
      (first = true → StartsAt s.nextSequence fs ∧ (0 < start → ∀ f ∈ fs.head?, f.sequence = start)) ∧
      folding = (Fram.appendFrames Γ s fs, first && fs.isEmpty, (fs.getLast?.map (·.sequence)).getD last) := by
  induction payloads generalizing s before first last with
  | nil =>
    constructor
    · intro hf
      cases hf
      exact ⟨[], .nil, trivial, fun _ => ⟨by simp [StartsAt], by simp⟩, by simp [Fram.appendFrames]⟩
    · rintro ⟨fs, hd, -, -, rfl⟩
      cases hd
      rw [List.isEmpty_nil, Bool.and_true]
      rfl
  | cons payload payloads ih =>
    rw [List.foldlM_cons, ExceptList.bind_eq_ok_iff]
    constructor
    · rintro ⟨r, h1, h2⟩
      obtain ⟨f, hd, hfirst, hf, rfl⟩ := (foldChainFrame_ok_iff h).1 h1
      obtain ⟨fs, hds, hc, -, rfl⟩ := (ih (h.appendValidTransaction hf.1 hf.2.2)).1 h2
      refine ⟨f :: fs, .cons hd hds, ⟨hf, hc⟩, fun ht => ?_, by rw [getD_getLast?_cons, List.isEmpty_cons, Bool.and_false]; rfl⟩
      exact ⟨by simpa [StartsAt] using (hfirst ht).1, by simpa using (hfirst ht).2⟩
    · rintro ⟨fs, hd, hc, hfirst, rfl⟩
      cases hd with
      | @cons _ f _ fs hd hds =>
        refine ⟨_, (foldChainFrame_ok_iff h).2 ⟨f, hd, fun ht => ?_, hc.1, rfl⟩, ?_⟩
        · exact ⟨by simpa [StartsAt] using (hfirst ht).1, by simpa using (hfirst ht).2⟩
        · refine (ih (h.appendValidTransaction hc.1.1 hc.1.2.2)).2 ⟨fs, hds, hc.2, fun ht => absurd ht Bool.false_ne_true, ?_⟩
          rw [getD_getLast?_cons, List.isEmpty_cons, Bool.and_false]
          rfl

theorem framlogStreamMaxPayloadBytes_lt : framlogStreamMaxPayloadBytes < 256 ^ 4 := by decide

/-- A segment folds exactly when it is whole, and its frames continue the store and begin and end where the ref says. -/
theorem foldChainPiece_sealed_iff (h : Represents Γ s before) {headerBytes : Nat} :
    foldChainPiece Γ s bytes headerBytes start last true = .ok (s', valid) ↔ ∃ payloads fs,
      Records.Pieces crc32 framlogStreamMaxPayloadBytes (bytes.drop headerBytes) payloads [] ∧ Decode payloads fs ∧
      Continues s.nextSequence fs ∧ StartsAt s.nextSequence fs ∧ (0 < start → start = sequenceOf fs.head?) ∧
      last = sequenceOf fs.getLast? ∧ s' = Fram.appendFrames Γ s fs ∧ valid = bytes.length := by
  unfold foldChainPiece
  rw [ExceptList.bind_eq_ok_iff]
  have hfuel : (bytes.drop headerBytes).length ≤ bytes.length := by simp
  constructor
  · rintro ⟨⟨folding, rest⟩, hl, he⟩
    obtain ⟨payloads, hp, hfold⟩ := (Records.loop_ok_iff framlogStreamMaxPayloadBytes_lt crc32_lt hfuel).1 hl
    obtain ⟨fs, hd, hc, hfirst, rfl⟩ := (foldlM_foldChainFrame h).1 hfold
    obtain ⟨hs, hstart⟩ := hfirst rfl
    unfold endOfPiece at he
    dsimp only at he
    split at he
    · rename_i hrest
      obtain rfl := List.eq_nil_of_length_eq_zero hrest
      split at he
      · cases he
      · rename_i hempty
        split at he
        · cases he
        · rename_i hend
          cases he
          refine ⟨payloads, fs, hp, hd, hc, hs, fun hpos => ?_, ?_, rfl, rfl⟩
          · cases fs with
            | nil => exact absurd ⟨rfl, hpos⟩ hempty
            | cons f fs => exact (hstart hpos f rfl).symm
          · exact (by simpa [sequenceOf] using hend : sequenceOf fs.getLast? = last).symm
    · cases he
  · rintro ⟨payloads, fs, hp, hd, hc, hs, hstart, rfl, rfl, rfl⟩
    refine ⟨_, (Records.loop_ok_iff framlogStreamMaxPayloadBytes_lt crc32_lt hfuel).2
      ⟨payloads, hp, (foldlM_foldChainFrame h).2 ⟨fs, hd, hc, fun _ => ⟨hs, fun hpos f hf => ?_⟩, rfl⟩⟩, ?_⟩
    · rw [hstart hpos, sequenceOf, Option.mem_def.1 hf]
      rfl
    · unfold endOfPiece
      dsimp only
      rw [List.length_nil, if_pos (Eq.refl 0), if_neg, if_neg (by simp [sequenceOf])]
      rintro ⟨hempty, hpos⟩
      rw [List.isEmpty_iff.1 hempty] at hstart
      have := hstart hpos
      rw [this] at hpos
      exact absurd hpos (by decide)

/-- The tail folds exactly when its frames continue the store; its rest may be cut. -/
theorem foldChainPiece_tail_iff (h : Represents Γ s before) {headerBytes : Nat} :
    foldChainPiece Γ s bytes headerBytes 0 0 false = .ok (s', valid) ↔ ∃ payloads rest fs,
      Records.Pieces crc32 framlogStreamMaxPayloadBytes (bytes.drop headerBytes) payloads rest ∧ Decode payloads fs ∧
      Continues s.nextSequence fs ∧ StartsAt s.nextSequence fs ∧ s' = Fram.appendFrames Γ s fs ∧ valid = bytes.length - rest.length := by
  unfold foldChainPiece
  rw [ExceptList.bind_eq_ok_iff]
  have hfuel : (bytes.drop headerBytes).length ≤ bytes.length := by simp
  have hend : ∀ (folding : Folding) (rest : Bytes), endOfPiece 0 0 false bytes.length folding rest =
      .ok (folding.1, bytes.length - rest.length) := by
    intro folding rest
    unfold endOfPiece
    by_cases hrest : rest.length = 0
    · simp [hrest]
    · simp [hrest]
  constructor
  · rintro ⟨⟨folding, rest⟩, hl, he⟩
    obtain ⟨payloads, hp, hfold⟩ := (Records.loop_ok_iff framlogStreamMaxPayloadBytes_lt crc32_lt hfuel).1 hl
    obtain ⟨fs, hd, hc, hfirst, rfl⟩ := (foldlM_foldChainFrame h).1 hfold
    dsimp only at he
    rw [hend, Except.ok.injEq, Prod.mk.injEq] at he
    exact ⟨payloads, rest, fs, hp, hd, hc, (hfirst rfl).1, he.1.symm, he.2.symm⟩
  · rintro ⟨payloads, rest, fs, hp, hd, hc, hs, rfl, rfl⟩
    exact ⟨_, (Records.loop_ok_iff framlogStreamMaxPayloadBytes_lt crc32_lt hfuel).2
      ⟨payloads, hp, (foldlM_foldChainFrame h).2 ⟨fs, hd, hc, fun _ => ⟨hs, nofun⟩, rfl⟩⟩, hend _ _⟩

/-! ## All members -/

theorem nextOf_cons (next : Int) (f : TransactionFrame) (fs : List TransactionFrame) : nextOf next (f :: fs) = nextOf (f.sequence + 1) fs := by
  cases fs with
  | nil => rfl
  | cons g fs =>
    unfold nextOf
    rw [List.getLast?_cons_cons]
    cases hl : (g :: fs).getLast? with
    | none => simp at hl
    | some l => rfl

theorem continues_append_iff {more : List TransactionFrame} :
    Continues next (frames ++ more) ↔ Continues next frames ∧ Continues (nextOf next frames) more := by
  induction frames generalizing next with
  | nil => exact ⟨fun hc => ⟨trivial, hc⟩, fun hc => hc.2⟩
  | cons f frames ih =>
    rw [nextOf_cons]
    constructor
    · intro hc
      obtain ⟨hframes, hmore⟩ := ih.1 hc.2
      exact ⟨⟨hc.1, hframes⟩, hmore⟩
    · rintro ⟨hc, hmore⟩
      exact ⟨hc.1, ih.2 ⟨hc.2, hmore⟩⟩

theorem nextSequence_appendFrames (s : TermStore) (frames : List TransactionFrame) :
    (Fram.appendFrames Γ s frames).nextSequence = nextOf s.nextSequence frames := by
  induction frames generalizing s with
  | nil => rfl
  | cons f frames ih =>
    rw [nextOf_cons]
    exact ih _

theorem appendFrames_append (s : TermStore) (frames more : List TransactionFrame) :
    Fram.appendFrames Γ s (frames ++ more) = Fram.appendFrames Γ (Fram.appendFrames Γ s frames) more := List.foldl_append

/-- The bytes decode as a member of a chain: a header, the records of frames, and a cut rest. -/
def DecodesAs (bytes : Bytes) (member : ChainMember) (frames : List TransactionFrame) (rest : Bytes) : Prop :=
  ∃ header payloads, decodeFramlogHeader bytes = .ok header ∧
    Records.Pieces crc32 framlogStreamMaxPayloadBytes (bytes.drop header.headerBytes) payloads rest ∧ Decode payloads frames ∧
    member = memberOf header.spaceId bytes.length (decide (header.flags = framlogContinuationFlag)) frames (decide (rest ≠ []))

/-- The segments decode as members of a chain with their frames. -/
def DecodeAll (segments : List (SegmentRecord × Bytes)) (members : List (ChainMember × List TransactionFrame)) : Prop :=
  List.Forall₂ (fun segment member => ∃ rest, DecodesAs segment.2 member.1 member.2 rest) segments members

/-- The line of a ref with the size of its member, and with the first sequence of its member where it records none. -/
def fitted (segment : SegmentRecord) (member : ChainMember) : SegmentRecord :=
  { segment with
    byteCount := member.byteCount
    startSequence := if 0 < segment.startSequence then segment.startSequence else member.startSequence }

/-- The lines of a ref, fitted to their members. -/
def fittedLines (segments : List (SegmentRecord × Bytes)) (members : List (ChainMember × List TransactionFrame)) :
    List (SegmentRecord × ChainMember) := (segments.zip members).map fun p => (fitted p.1.1 p.2.1, p.2.1)

/-- The piece that a segment is folded as. -/
def pieceOf (segment : SegmentRecord × Bytes) : ChainPiece := ⟨segment.2, segment.1.startSequence, segment.1.endSequence⟩

/-- The piece that the tail is folded as. -/
def tailPiece (tail : Bytes) : ChainPiece := ⟨tail, 0, 0⟩

/-- The chain law for one member of a ref that is fitted to it. -/
theorem memberFault_fitted_iff {segment : SegmentRecord} {byteCount : Nat} {continuation torn : Bool} (hpos : Positive frames) :
    memberFault document (fitted segment (memberOf spaceId byteCount continuation frames torn)) index
        (memberOf spaceId byteCount continuation frames torn) next = none ↔
      document.spaceId = spaceId.toList ∧ (0 < segment.startSequence → segment.startSequence = sequenceOf frames.head?) ∧
        segment.endSequence = sequenceOf frames.getLast? ∧ torn = false ∧ continuation = decide (0 < index) ∧ StartsAt next frames := by
  have hstart : (fitted segment (memberOf spaceId byteCount continuation frames torn)).startSequence = sequenceOf frames.head? ↔
      (0 < segment.startSequence → segment.startSequence = sequenceOf frames.head?) := by
    unfold fitted memberOf
    dsimp only
    split
    · rename_i hp
      exact ⟨fun he _ => he, fun he => he hp⟩
    · rename_i hnot
      exact ⟨fun _ hp => absurd hp hnot, fun _ => rfl⟩
  rw [Database.memberFault_eq_none_iff hpos, hstart]
  exact ⟨fun ⟨hspace, _, hrest⟩ => ⟨hspace, hrest⟩, fun ⟨hspace, hrest⟩ => ⟨hspace, rfl, hrest⟩⟩

/-- The flag of a member is the one that its place asks for. -/
theorem continuation_iff {flags : Nat} (hbase : index = 0 → flags = framlogFlags) :
    (¬(0 < index ∧ flags ≠ framlogContinuationFlag)) ↔ decide (flags = framlogContinuationFlag) = decide (0 < index) := by
  have hne : framlogFlags ≠ framlogContinuationFlag := by decide
  rcases Nat.eq_zero_or_pos index with h0 | hpos
  · simp [h0, hbase h0, hne]
  · simp [hpos]

/-- The members of a branch fold exactly when they decode, keep the law of a ref that is fitted to them, and their frames continue the
store. -/
theorem foldChain_ok_iff (h : Represents Γ s before) (hspace : document.spaceId = s.spaceId.toList)
    (hbase : index = 0 → ∀ header, decodeFramlogHeader ((segments.map (·.2)).headD tail) = .ok header → header.flags = framlogFlags) :
    foldChain Γ index s (segments.map pieceOf) (tailPiece tail) = .ok (s', valid) ↔ ∃ members tailMember tailFrames rest,
      DecodeAll segments members ∧ DecodesAs tail tailMember tailFrames rest ∧
      memberFaults document tailMember index s.nextSequence (fittedLines segments members) = none ∧
      Continues s.nextSequence (members.flatMap (·.2) ++ tailFrames) ∧
      s' = Fram.appendFrames Γ s (members.flatMap (·.2) ++ tailFrames) ∧ valid = tail.length - rest.length := by
  induction segments generalizing s before index with
  | nil =>
    rw [List.map_nil, foldChain, ExceptList.bind_eq_ok_iff]
    simp only [failing_ok_iff, List.headD_nil, tailPiece, List.isEmpty_nil, Bool.not_true]
    constructor
    · rintro ⟨header, hd, hf⟩
      split at hf
      · cases hf
      rename_i hid
      split at hf
      · cases hf
      rename_i hflags
      obtain ⟨⟨s1, v1⟩, hp, he⟩ := ExceptList.bind_eq_ok_iff.1 hf
      cases he
      obtain ⟨payloads, rest, fs, hpieces, hdec, hc, hs, rfl, rfl⟩ := (foldChainPiece_tail_iff h).1 (failing_ok_iff.1 hp)
      have hpos : Positive fs := Positive.of_continues hc (by have := h.one_le_nextSequence; omega)
      refine ⟨[], _, fs, rest, .nil, ⟨header, payloads, hd, hpieces, hdec, rfl⟩, ?_, hc, rfl, rfl⟩
      rw [(continuation_iff fun h0 => hbase h0 header hd).1 hflags]
      exact (Database.tailFault_eq_none_iff hpos).2 ⟨by rw [hspace, not_ne_iff.1 hid], rfl, hs⟩
    · rintro ⟨members, tailMember, fs, rest, hall, ⟨header, payloads, hd, hpieces, hdec, rfl⟩, hlaw, hc, rfl, rfl⟩
      cases hall
      have hpos : Positive fs := Positive.of_continues hc (by have := h.one_le_nextSequence; omega)
      obtain ⟨hid, hcont, hs⟩ := (Database.tailFault_eq_none_iff hpos).1 hlaw
      refine ⟨header, hd, ?_⟩
      rw [if_neg (by rw [not_ne_iff]; exact (String.toList_inj.1 (hspace.symm.trans hid)).symm),
        if_neg ((continuation_iff fun h0 => hbase h0 header hd).2 hcont)]
      exact ExceptList.bind_eq_ok_iff.2 ⟨_, failing_ok_iff.2 ((foldChainPiece_tail_iff h).2
        ⟨payloads, rest, fs, hpieces, hdec, hc, hs, rfl, rfl⟩), rfl⟩
  | cons segment segments ih =>
    rw [List.map_cons, foldChain, ExceptList.bind_eq_ok_iff]
    simp only [failing_ok_iff, List.headD_cons, pieceOf, List.isEmpty_cons, Bool.not_false]
    constructor
    · rintro ⟨header, hd, hf⟩
      split at hf
      · cases hf
      rename_i hid
      split at hf
      · cases hf
      rename_i hflags
      obtain ⟨⟨s1, v1⟩, hp, hf⟩ := ExceptList.bind_eq_ok_iff.1 hf
      obtain ⟨payloads, fs, hpieces, hdec, hc, hs, hstart, hlast, rfl, rfl⟩ := (foldChainPiece_sealed_iff h).1 (failing_ok_iff.1 hp)
      have hpos : Positive fs := Positive.of_continues hc (by have := h.one_le_nextSequence; omega)
      obtain ⟨members, tailMember, tailFrames, rest, hall, htail, hlaw, hmore, rfl, rfl⟩ :=
        (ih (h.appendContinues hc) (by rw [appendFrames_spaceId]; exact hspace) fun h0 => absurd h0 (Nat.succ_ne_zero index)).1 hf
      rw [nextSequence_appendFrames] at hlaw hmore
      have hcont := (continuation_iff fun h0 => hbase h0 header hd).1 hflags
      refine ⟨(memberOf header.spaceId segment.2.length (decide (header.flags = framlogContinuationFlag)) fs false, fs) :: members,
        tailMember, tailFrames, rest, .cons ⟨[], header, payloads, hd, hpieces, hdec, by simp⟩ hall, htail, ?_, ?_, ?_, rfl⟩
      · rw [fittedLines, List.zip_cons_cons, List.map_cons, ← fittedLines, memberFaults]
        dsimp only
        rw [(memberFault_fitted_iff hpos).2 ⟨by rw [hspace, not_ne_iff.1 hid], hstart, hlast, rfl, hcont, hs⟩]
        dsimp only
        rw [Database.nextAfter_eq hpos rfl]
        exact hlaw
      · rw [List.flatMap_cons, List.append_assoc]
        exact continues_append_iff.2 ⟨hc, hmore⟩
      · rw [List.flatMap_cons, List.append_assoc]
        exact (appendFrames_append s fs _).symm
    · rintro ⟨members, tailMember, tailFrames, rest, hall, htail, hlaw, hc, rfl, rfl⟩
      cases hall with
      | @cons _ member _ members hfirst hall =>
        obtain ⟨member, fs⟩ := member
        obtain ⟨rest', header, payloads, hd, hpieces, hdec, hmember⟩ := hfirst
        dsimp only at hmember hdec
        subst hmember
        rw [List.flatMap_cons, List.append_assoc] at hc
        obtain ⟨hc, hmore⟩ := continues_append_iff.1 hc
        have hpos : Positive fs := Positive.of_continues hc (by have := h.one_le_nextSequence; omega)
        rw [fittedLines, List.zip_cons_cons, List.map_cons, ← fittedLines, memberFaults] at hlaw
        dsimp only at hlaw
        split at hlaw
        · cases hlaw
        rename_i hnone
        obtain ⟨hid, hstart, hlast, htorn, hcont, hs⟩ := (memberFault_fitted_iff hpos).1 hnone
        rw [Database.nextAfter_eq hpos rfl] at hlaw
        obtain rfl : rest' = [] := by simpa using htorn
        refine ⟨header, hd, ?_⟩
        rw [if_neg (by rw [not_ne_iff]; exact (String.toList_inj.1 (hspace.symm.trans hid)).symm),
          if_neg ((continuation_iff fun h0 => hbase h0 header hd).2 hcont)]
        refine ExceptList.bind_eq_ok_iff.2 ⟨_, failing_ok_iff.2 ((foldChainPiece_sealed_iff h).2
          ⟨payloads, fs, hpieces, hdec, hc, hs, hstart, hlast, rfl, rfl⟩), ?_⟩
        refine (@ih (index + 1) _ _ (h.appendContinues hc) (by rw [appendFrames_spaceId]; exact hspace)
          fun h0 => absurd h0 (Nat.succ_ne_zero index)).2
          ⟨members, tailMember, tailFrames, rest, hall, htail, ?_, ?_, ?_, rfl⟩
        · rw [nextSequence_appendFrames]
          exact hlaw
        · rw [nextSequence_appendFrames]
          exact hmore
        · rw [List.flatMap_cons, List.append_assoc]
          exact appendFrames_append s fs _

/-! ## The whole branch -/

/-- The lines of a ref that are fitted to the members that they name. -/
def fittedSegments (segments : List (SegmentRecord × Bytes)) (members : List (ChainMember × List TransactionFrame)) : List SegmentRecord :=
  List.zipWith (fun segment member => fitted segment.1 member.1) segments members

/-- The members decode, keep the law of the fitted ref, and their frames continue the empty history without a NaN in them. -/
structure Chained (spaceId : String) (segments : List (SegmentRecord × Bytes)) (tail : Bytes)
    (members : List (ChainMember × List TransactionFrame)) (tailMember : ChainMember) (tailFrames : List TransactionFrame)
    (rest : Bytes) : Prop where
  decodes : DecodeAll segments members
  tail : DecodesAs tail tailMember tailFrames rest
  law : chainFault ⟨spaceId.toList, fittedSegments segments members⟩ (members.map (·.1)) tailMember = none
  ordered : Continues 1 (members.flatMap (·.2) ++ tailFrames)
  nanFree : NaNFree (members.flatMap (·.2) ++ tailFrames)

theorem zip_fittedSegments (segments : List (SegmentRecord × Bytes)) (members : List (ChainMember × List TransactionFrame)) :
    (fittedSegments segments members).zip (members.map (·.1)) = fittedLines segments members := by
  induction segments generalizing members with
  | nil => rfl
  | cons segment segments ih =>
    cases members with
    | nil => rfl
    | cons member members => exact congrArg _ (ih members)

/-- Of the document, the loop of the law reads the space only. -/
theorem memberFaults_congr {document' : RefDocument} (h : document.spaceId = document'.spaceId) (tailMember : ChainMember)
    (index : Nat) (next : Int) (lines : List (SegmentRecord × ChainMember)) :
    memberFaults document tailMember index next lines = memberFaults document' tailMember index next lines := by
  induction lines generalizing index next with
  | nil =>
    unfold memberFaults tailFault
    rw [h]
  | cons line lines ih =>
    unfold memberFaults memberFault
    rw [h, ih]

/-- The law of a fitted ref is that of its lines. -/
theorem DecodeAll.chainFault_eq (h : DecodeAll segments members) (spaceId : Text) (tailMember : ChainMember) :
    chainFault ⟨spaceId, fittedSegments segments members⟩ (members.map (·.1)) tailMember =
      memberFaults ⟨spaceId, []⟩ tailMember 0 1 (fittedLines segments members) := by
  unfold chainFault
  dsimp only
  rw [zip_fittedSegments, if_neg]
  · exact memberFaults_congr (Eq.refl spaceId) tailMember 0 1 _
  · rw [fittedSegments, List.length_zipWith, List.length_map, h.length_eq, Nat.min_self, not_ne_iff]

/-- A header is of a nonempty space, and its flags are those of a base or of a continuation. -/
theorem header_of_decodeFramlogHeader {header : HeaderFields} (h : decodeFramlogHeader bytes = .ok header) :
    header.spaceId ≠ "" ∧ (header.flags = framlogFlags ∨ header.flags = framlogContinuationFlag) := by
  unfold decodeFramlogHeader at h
  dsimp only at h
  split at h
  · cases h
  split at h
  · cases h
  split at h
  · cases h
  rename_i hflags
  split at h
  · cases h
  split at h
  · cases h
  split at h
  · cases h
  split at h
  · cases h
  rename_i hne
  cases h
  exact ⟨fun he => hne (length_pos_iff_ne_empty.2 he), by tauto⟩

/-- A first member without the continuation flag is a base. -/
theorem base_of_continuation {header : HeaderFields} (h : decodeFramlogHeader bytes = .ok header)
    (hc : decide (header.flags = framlogContinuationFlag) = decide ((0 : Nat) < 0)) : header.flags = framlogFlags := by
  rcases (header_of_decodeFramlogHeader h).2 with hf | hf
  · exact hf
  · rw [hf] at hc
    simp at hc

/-- The first member of a chain that keeps the law is a base of the space. -/
theorem Chained.base (h : Chained spaceId segments tail members tailMember tailFrames rest) : ∃ header,
      decodeFramlogHeader ((segments.map (·.2)).headD tail) = .ok header ∧ header.spaceId = spaceId ∧ header.flags = framlogFlags := by
  obtain ⟨hall, htail, hlaw, hordered, -⟩ := h
  rw [hall.chainFault_eq] at hlaw
  have hpos := Positive.of_continues hordered (by decide)
  cases hall with
  | nil =>
    obtain ⟨header, payloads, hd, -, -, rfl⟩ := htail
    obtain ⟨hid, hcont, -⟩ := (Database.tailFault_eq_none_iff fun f hf => hpos f (List.mem_append_right _ hf)).1 hlaw
    exact ⟨header, hd, (String.toList_inj.1 hid).symm, base_of_continuation hd hcont⟩
  | @cons segment member segments members hfirst hall =>
    obtain ⟨member, fs⟩ := member
    obtain ⟨rest', header, payloads, hd, -, -, hmember⟩ := hfirst
    dsimp only at hmember
    subst hmember
    rw [fittedLines, List.zip_cons_cons, List.map_cons, memberFaults] at hlaw
    dsimp only at hlaw
    split at hlaw
    · cases hlaw
    rename_i hnone
    obtain ⟨hid, -, -, -, hcont, -⟩ := (memberFault_fitted_iff fun f hf => hpos f (by simp [hf])).1 hnone
    exact ⟨header, hd, (String.toList_inj.1 hid).symm, base_of_continuation hd hcont⟩

/-- The bytes of all members. -/
def chainBytes (segments : List (SegmentRecord × Bytes)) (tail : Bytes) : Nat :=
  ((segments.map pieceOf ++ [tailPiece tail]).map (·.bytes.length)).sum

/-- A branch boots exactly when its members are chained, as the store of their frames. -/
theorem bootFramlogChain_ok_iff {configured : String} {result : BootResult} :
    bootFramlogChain Γ configured (segments.map pieceOf) (tailPiece tail) = .ok result ↔
      ∃ spaceId members tailMember tailFrames rest root, (configured = "" ∨ configured = spaceId) ∧
        Chained spaceId segments tail members tailMember tailFrames rest ∧ newTermStoreForLog spaceId (chainBytes segments tail) = .ok root ∧
        result = ⟨closeFold (Fram.appendFrames Γ (openFold root) (members.flatMap (·.2) ++ tailFrames)), tail.length - rest.length, []⟩ := by
  have hhead : ((segments.map pieceOf).headD (tailPiece tail)).bytes = (segments.map (·.2)).headD tail := by
    cases segments <;> rfl
  unfold bootFramlogChain
  rw [ExceptList.bind_eq_ok_iff, hhead]
  simp only [failing_ok_iff]
  constructor
  · rintro ⟨header, hd, hf⟩
    split at hf
    · cases hf
    rename_i hconf
    split at hf
    · cases hf
    rename_i hflags
    obtain ⟨root, hroot, hf⟩ := ExceptList.bind_eq_ok_iff.1 hf
    obtain ⟨⟨s1, valid⟩, hfold, hboot⟩ := ExceptList.bind_eq_ok_iff.1 hf
    rw [throwing_ok_iff] at hroot
    obtain ⟨hrep, hspace, hn⟩ := represents_openFold_newTermStore (Γ := Γ) hroot
    have hbase : ∀ header', decodeFramlogHeader ((segments.map (·.2)).headD tail) = .ok header' → header'.flags = framlogFlags := by
      intro header' hd'
      rw [hd] at hd'
      cases hd'
      exact (not_ne_iff.1 hflags).symm
    obtain ⟨members, tailMember, tailFrames, rest, hall, htail, hlaw, hc, rfl, rfl⟩ :=
      (foldChain_ok_iff hrep (show RefDocument.spaceId ⟨header.spaceId.toList, []⟩ = _ by rw [hspace]) fun _ => hbase).1 hfold
    obtain ⟨store, hv, rfl⟩ := successfulBoot_ok_iff.1 hboot
    have hframes := (hrep.appendContinues hc).closeFold
    rw [List.nil_append] at hframes
    obtain ⟨rfl, hatoms⟩ := hframes.validatedStore_ok_iff.1 hv
    rw [hn] at hlaw hc
    refine ⟨header.spaceId, members, tailMember, tailFrames, rest, root, ?_,
      ⟨hall, htail, (hall.chainFault_eq _ _).trans hlaw, hc, hframes.nanFree hatoms⟩, hroot, rfl⟩
    rw [Ne, length_pos_iff_ne_empty] at hconf
    tauto
  · rintro ⟨spaceId, members, tailMember, tailFrames, rest, root, hconf, hchained, hroot, rfl⟩
    obtain ⟨header, hd, rfl, hflags⟩ := hchained.base
    obtain ⟨hrep, hspace, hn⟩ := represents_openFold_newTermStore (Γ := Γ) hroot
    have hbase : ∀ header', decodeFramlogHeader ((segments.map (·.2)).headD tail) = .ok header' → header'.flags = framlogFlags := by
      intro header' hd'
      rw [hd] at hd'
      cases hd'
      exact hflags
    have hlaw := hchained.law
    rw [hchained.decodes.chainFault_eq, ← hn] at hlaw
    have hc := hchained.ordered
    rw [← hn] at hc
    have hframes := (hrep.appendContinues hc).closeFold
    have hatoms : (openFold root).atoms = [] := by
      rw [openFold_frame]
      show root.atoms = []
      exact newTermStoreSized_atoms hroot
    refine ⟨header, hd, ?_⟩
    rw [if_neg (by rw [Ne, length_pos_iff_ne_empty]; tauto), if_neg (by rw [hflags]; exact fun hne => hne rfl)]
    refine ExceptList.bind_eq_ok_iff.2 ⟨root, throwing_ok_iff.2 hroot, ExceptList.bind_eq_ok_iff.2 ⟨_,
      (foldChain_ok_iff hrep (show RefDocument.spaceId ⟨header.spaceId.toList, []⟩ = _ by rw [hspace]) fun _ => hbase).2
        ⟨members, tailMember, tailFrames, rest, hchained.decodes, hchained.tail, hlaw, hc, rfl, rfl⟩,
      successfulBoot_ok_iff.2 ⟨_, hframes.validatedStore_ok_iff.2 ⟨rfl, ?_⟩, rfl⟩⟩⟩
    rw [closeFold_frame]
    exact hchained.nanFree.atoms hatoms

/-- A member of a chain that keeps the law is whole. -/
theorem DecodeAll.whole (h : DecodeAll segments members) (hlaw : memberFaults document tailMember index next (fittedLines segments members) = none)
    (hpos : Positive (members.flatMap (·.2))) : ∀ member ∈ members, member.1.torn = false := by
  induction h generalizing index next with
  | nil => simp
  | @cons segment member segments members hfirst hall ih =>
    rw [fittedLines, List.zip_cons_cons, List.map_cons, ← fittedLines, memberFaults] at hlaw
    dsimp only at hlaw
    split at hlaw
    · cases hlaw
    rename_i hnone
    intro m hm
    rw [List.flatMap_cons] at hpos
    rcases List.mem_cons.1 hm with rfl | hm
    · obtain ⟨rest, header, payloads, -, -, -, hmember⟩ := hfirst
      rw [hmember] at hnone
      obtain ⟨-, -, -, htorn, -⟩ := (memberFault_fitted_iff fun f hf => hpos f (List.mem_append_left _ hf)).1 hnone
      rw [hmember]
      exact htorn
    · exact ih hlaw (fun f hf => hpos f (List.mem_append_right _ hf)) m hm

theorem Chained.whole
    (h : Chained spaceId segments tail members tailMember tailFrames rest) : ∀ member ∈ members, member.1.torn = false := by
  have hlaw := h.law
  rw [h.decodes.chainFault_eq] at hlaw
  have hpos := Positive.of_continues h.ordered (by decide)
  exact h.decodes.whole hlaw fun f hf => hpos f (List.mem_append_left _ hf)

/-- A line that keeps the law is fitted to its member. -/
theorem fitted_of_memberFault {segment : SegmentRecord} {member : ChainMember}
    (h : memberFault document segment index member next = none) : fitted segment member = segment := by
  unfold memberFault at h
  split at h
  · cases h
  split at h
  · cases h
  rename_i hsize
  split at h
  · cases h
  rename_i hstart
  rw [fitted, ← not_ne_iff.1 hsize, ← not_ne_iff.1 hstart, ite_self]

/-- Lines that keep the law are fitted to their members. -/
theorem fittedSegments_of_law (hlen : segments.length = members.length)
    (hlaw : memberFaults document tailMember index next ((segments.map (·.1)).zip (members.map (·.1))) = none) :
    fittedSegments segments members = segments.map (·.1) := by
  induction segments generalizing members index next with
  | nil => rfl
  | cons segment segments ih =>
    cases members with
    | nil => cases hlen
    | cons member members =>
      rw [List.map_cons, List.map_cons, List.zip_cons_cons, memberFaults] at hlaw
      split at hlaw
      · cases hlaw
      rename_i hnone
      rw [fittedSegments, List.zipWith_cons_cons, fitted_of_memberFault hnone, List.map_cons]
      exact congrArg _ (ih (Nat.succ.inj hlen) hlaw)

/-- Members that keep the law of the ref as it is are chained when their frames continue the empty history without a NaN. -/
theorem Chained.of_law (hall : DecodeAll segments members) (htail : DecodesAs tail tailMember tailFrames rest)
    (hlaw : chainFault ⟨spaceId.toList, segments.map (·.1)⟩ (members.map (·.1)) tailMember = none)
    (hordered : Continues 1 (members.flatMap (·.2) ++ tailFrames)) (hn : NaNFree (members.flatMap (·.2) ++ tailFrames)) :
    Chained spaceId segments tail members tailMember tailFrames rest := by
  refine ⟨hall, htail, ?_, hordered, hn⟩
  have hlines := hlaw
  unfold chainFault at hlines
  split at hlines
  · cases hlines
  rw [fittedSegments_of_law hall.length_eq hlines]
  exact hlaw

/-- A branch boots exactly when its members are chained, and then as the store that their frames are replayed to in one piece; only the
tail may be cut. Members that keep the law of the ref as it is are chained when their frames continue each other without a NaN. -/
theorem chain_boots (Γ : Host) (configured : String) (segments : List (SegmentRecord × Bytes)) (tail : Bytes) :
    ((∃ result, bootFramlogChain Γ configured (segments.map pieceOf) (tailPiece tail) = .ok result) ↔
      ∃ spaceId members tailMember tailFrames rest, (configured = "" ∨ configured = spaceId) ∧
        Chained spaceId segments tail members tailMember tailFrames rest) ∧
    (∀ spaceId members tailMember tailFrames rest, DecodeAll segments members → DecodesAs tail tailMember tailFrames rest →
      chainFault ⟨spaceId.toList, segments.map (·.1)⟩ (members.map (·.1)) tailMember = none →
      Continues 1 (members.flatMap (·.2) ++ tailFrames) → NaNFree (members.flatMap (·.2) ++ tailFrames) →
      Chained spaceId segments tail members tailMember tailFrames rest) ∧
    ∀ result, bootFramlogChain Γ configured (segments.map pieceOf) (tailPiece tail) = .ok result →
      ∃ spaceId members tailMember tailFrames rest s s', Chained spaceId segments tail members tailMember tailFrames rest ∧
        newTermStore spaceId = .ok s ∧ Database.replayFrames Γ s (members.flatMap (·.2) ++ tailFrames) = .ok s' ∧ Twin s' result.store ∧
        (∀ member ∈ members, member.1.torn = false) ∧ result.validLogBytes = tail.length - rest.length := by
  refine ⟨?_, ?_, ?_⟩
  · constructor
    · rintro ⟨result, hboot⟩
      obtain ⟨spaceId, members, tailMember, tailFrames, rest, -, hconf, hchained, -⟩ := bootFramlogChain_ok_iff.1 hboot
      exact ⟨spaceId, members, tailMember, tailFrames, rest, hconf, hchained⟩
    · rintro ⟨spaceId, members, tailMember, tailFrames, rest, hconf, hchained⟩
      obtain ⟨header, hd, rfl, -⟩ := hchained.base
      obtain ⟨root, hroot⟩ := exists_newTermStoreSized (header_of_decodeFramlogHeader hd).1 (chainBytes segments tail / 64)
        (chainBytes segments tail / 32) (chainBytes segments tail / 128)
      exact ⟨_, bootFramlogChain_ok_iff.2 ⟨header.spaceId, members, tailMember, tailFrames, rest, root, hconf, hchained, hroot, rfl⟩⟩
  · intro spaceId members tailMember tailFrames rest hall htail hlaw hordered hn
    exact Chained.of_law hall htail hlaw hordered hn
  · intro result hboot
    obtain ⟨spaceId, members, tailMember, tailFrames, rest, root, -, hchained, hroot, rfl⟩ := bootFramlogChain_ok_iff.1 hboot
    obtain ⟨header, hd, rfl, -⟩ := hchained.base
    obtain ⟨s, hs⟩ := exists_newTermStoreSized (header_of_decodeFramlogHeader hd).1 0 0 0
    have hfolds : Folds Γ header.spaceId (members.flatMap (·.2) ++ tailFrames)
        (Fram.appendFrames Γ s (members.flatMap (·.2) ++ tailFrames)) := ⟨0, 0, 0, s, hs, Twin.refl _⟩
    exact ⟨header.spaceId, members, tailMember, tailFrames, rest, s, _, hchained, hs,
      (Database.replayFrames_new_iff hs).2 ⟨hchained.ordered, rfl⟩, hfolds.twins ((folds_appendFrames hroot _).twin (twin_closeFold _)),
      hchained.whole, rfl⟩

/-- The payload of the frame that asserts a triple under the sequence `1`. -/
def onePayload : Bytes :=
  [1, 0, 0, 0, 0, 0, 0, 0, 1, 0, 0, 0, 0, 0, 0, 0, 1, 7, 1, 1, 0, 0, 0, 97, 1, 1, 0, 0, 0, 98, 1, 1, 0, 0, 0, 99]

/-- The frame of the payload. -/
def oneAssert : TransactionFrame := ⟨1, [⟨.assert, ⟨.str "a", .str "b", .str "c"⟩⟩]⟩

/-- A log in which the frame is recorded twice. -/
def repeatedLog : Bytes := headerBytes "s" ++ Records.records crc32 [onePayload, onePayload]

set_option maxRecDepth 20000 in
/-- The chain law lets a tail pass that records one sequence twice, and the boot does not. -/
theorem chain_boots_repeated : ¬∀ (Γ : Host) (spaceId : String) (segments : List (SegmentRecord × Bytes)) (tail : Bytes),
    (∃ result, bootFramlogChain Γ spaceId (segments.map pieceOf) (tailPiece tail) = .ok result) ↔
      ∃ members tailMember tailFrames rest, DecodeAll segments members ∧ DecodesAs tail tailMember tailFrames rest ∧
        chainFault ⟨spaceId.toList, segments.map (·.1)⟩ (members.map (·.1)) tailMember = none := by
  intro hclaim
  have hdecode : decodeFramePayload onePayload = .ok oneAssert := by with_unfolding_all decide
  have hheader : decodeFramlogHeader repeatedLog = .ok ⟨"s", framlogFlags, 17⟩ := by with_unfolding_all decide
  have hpieces : Records.Pieces crc32 framlogStreamMaxPayloadBytes (repeatedLog.drop 17) [onePayload, onePayload] [] := by
    refine ⟨?_, ?_, .inl (by decide)⟩
    · with_unfolding_all decide
    · with_unfolding_all decide
  have hlaw : chainFault ⟨"s".toList, []⟩ [] (memberOf "s" repeatedLog.length false [oneAssert, oneAssert] false) = none := by
    with_unfolding_all decide
  obtain ⟨result, hboot⟩ := (hclaim Host.zero "s" [] repeatedLog).2
    ⟨[], _, [oneAssert, oneAssert], [], .nil, ⟨_, _, hheader, hpieces, .cons hdecode (.cons hdecode .nil), rfl⟩, hlaw⟩
  have hok := congrArg Except.isOk hboot
  rw [show (bootFramlogChain Host.zero "s" (List.map pieceOf []) (tailPiece repeatedLog)).isOk = false by with_unfolding_all decide] at hok
  cases hok

end ChainBoot

end Fram
