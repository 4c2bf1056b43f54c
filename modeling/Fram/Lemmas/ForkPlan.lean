import Fram.Lemmas.BranchRun

/-!
# The plan of a fork

A fork plans from a tail that is whole and that its ref folds (`planFork_ok_iff`). What it plans is folded once it is installed: the
tail is a segment, behind those of the ref, and the new tails are empty (`Folds.forked`).
-/

namespace Fram.Database

open Lines (Text)
open ExceptList (bind_eq_ok_iff)

section Plans

variable {D : Digest} {J : Gzip} {files files' : Files} {store parent : Text}

/-- A fork is planned when its segment may join the chain. -/
theorem forkPlan_ok_iff {document : RefDocument} {record : SegmentRecord} {sequence : Int} {plan : ForkPlan} :
    forkPlan document record sequence = .ok plan ↔ validSegmentName record.sha256 = true ∧
      (∀ segment ∈ document.segments, segment.sha256 ≠ record.sha256) ∧ document.segments.length < maxChainLength ∧ 0 ≤ sequence ∧
      plan = ⟨⟨document.spaceId, document.segments ++ [record]⟩, record, sequence⟩ := by
  unfold forkPlan branchFail
  split
  · rename_i h
    simp [show validSegmentName record.sha256 = false by simpa using h]
  rename_i h1
  split
  · rename_i h
    simp only [List.any_eq_true, decide_eq_true_eq] at h
    obtain ⟨segment, hs, he⟩ := h
    exact iff_of_false nofun fun hr => hr.2.1 segment hs he
  rename_i h2
  split
  · rename_i h
    exact iff_of_false nofun fun hr => absurd hr.2.2.1 (by omega)
  rename_i h3
  split
  · rename_i h
    exact iff_of_false nofun fun hr => absurd hr.2.2.2.1 (by omega)
  rename_i h4
  simp only [List.any_eq_true, decide_eq_true_eq, not_exists, not_and] at h2
  simp only [Bool.not_eq_true', Bool.not_eq_false] at h1
  rw [Except.ok.injEq]
  constructor
  · intro h
    exact ⟨h1, h2, by omega, by omega, h.symm⟩
  · intro h
    exact h.2.2.2.2.symm

/-- What a fork requires of the tail of its parent, beside its ref. -/
structure Forkable (D : Digest) (base : RefDocument) (parsed : TripleLog) (content : Bytes) : Prop where
  whole : parsed.tornTail = none
  space : parsed.spaceId.toList = base.spaceId
  continuation : parsed.continuation = decide (0 < base.segments.length)
  fresh : ∀ segment ∈ base.segments, segment.sha256 ≠ D.sha256Hex content
  chain : base.segments.length < maxChainLength
  sequence : 0 ≤ forkSequenceOf base parsed

/-- What a fork plans. -/
def plannedFork (D : Digest) (base : RefDocument) (parsed : TripleLog) (content : Bytes) : ForkPlan :=
  ⟨⟨base.spaceId, base.segments ++ [segmentRecord D parsed content]⟩, segmentRecord D parsed content, forkSequenceOf base parsed⟩

/-- **What a fork plans from.** -/
theorem planFork_ok_iff {tailPath : Text} {r : TripleLog × ForkPlan} : planFork D J files store parent tailPath = .ok r ↔
    ∃ document content parsed, readBranchRef files store parent = .ok document ∧ (document = none → parent = defaultBranch) ∧
      files tailPath = some content ∧ parseTripleLogBytes J content true = .ok parsed ∧
      Forkable D (document.getD (emptyRef parsed.spaceId.toList)) parsed content ∧
      r = (parsed, plannedFork D (document.getD (emptyRef parsed.spaceId.toList)) parsed content) := by
  unfold planFork
  simp only [bind_eq_ok_iff]
  constructor
  · rintro ⟨document, hd, h⟩
    split at h
    · cases h
    rename_i hbranch
    simp only [bind_eq_ok_iff] at h
    obtain ⟨content, hcontent, parsed, hp, h⟩ := h
    split at h
    · cases h
    rename_i htorn
    split at h
    · cases h
    rename_i hspace
    split at h
    · cases h
    rename_i hcont
    simp only [bind_eq_ok_iff] at h
    obtain ⟨plan, hplan, h⟩ := h
    cases h
    obtain ⟨hname, hfresh, hchain, hseq, rfl⟩ := forkPlan_ok_iff.1 hplan
    refine ⟨document, content, parsed, hd, fun hn => ?_, ?_, hp, ⟨?_, ?_, ?_, hfresh, hchain, hseq⟩, rfl⟩
    · by_contra hne
      exact hbranch ⟨by simp [hn], hne⟩
    · unfold requireLog at hcontent
      cases hf : files tailPath with
      | none =>
        rw [hf] at hcontent
        cases hcontent
      | some bytes =>
        rw [hf] at hcontent
        cases hcontent
        rfl
    · simpa using htorn
    · simpa using hspace
    · exact (not_ne_iff.1 hcont).symm
  · rintro ⟨document, content, parsed, hd, hbranch, hcontent, hp, hf, rfl⟩
    refine ⟨document, hd, ?_⟩
    rw [if_neg (by rintro ⟨hn, hne⟩; exact hne (hbranch (by simpa using hn)))]
    refine bind_eq_ok_iff.2 ⟨content, by unfold requireLog; rw [hcontent], bind_eq_ok_iff.2 ⟨parsed, hp, ?_⟩⟩
    rw [if_neg (by simp [hf.whole]), if_neg (fun hn => hn hf.space), if_neg (fun hn => hn hf.continuation.symm)]
    exact bind_eq_ok_iff.2 ⟨_, forkPlan_ok_iff.2 ⟨D.valid _, hf.fresh, hf.chain, hf.sequence, rfl⟩, rfl⟩

end Plans

/-! ## What is planned -/

section Planned

variable {D : Digest} {J : Gzip} {files files' : Files} {store branch : Text} {spaceId : String} {document : RefDocument}
  {index : Nat} {next : Int} {sealed tail frames : List TransactionFrame} {content : Bytes} {deflate : Bool} {parsed : TripleLog}

/-- A segment behind a chain. -/
theorem SealedIn.concat {segments : List SegmentRecord} (h : SealedIn J files store spaceId index next segments sealed)
    {segment : SegmentRecord} (hs : SegmentIs J files store spaceId segment (decide (0 < index + segments.length)) frames)
    (hstart : StartsAt (nextOf next sealed) frames) :
    SealedIn J files store spaceId index next (segments ++ [segment]) (sealed ++ frames) := by
  induction h with
  | nil =>
    rw [List.nil_append, List.nil_append, ← List.append_nil frames]
    exact .cons hs hstart .nil
  | @cons index next first segments firstFrames more hfirst hfirstStart _ ih =>
    rw [nextOf_append] at hstart
    rw [List.cons_append, List.append_assoc]
    refine .cons hfirst hfirstStart (ih ?_ hstart)
    rw [List.length_cons] at hs
    rwa [show index + 1 + segments.length = index + (segments.length + 1) by omega]

/-- The sequences of frames that continue lie between the sequence before them and the one behind them. -/
theorem continues_between (h : Continues next frames) : ∀ f ∈ frames, next ≤ f.sequence ∧ f.sequence < nextOf next frames := by
  induction frames generalizing next with
  | nil => exact List.forall_mem_nil _
  | cons f frames ih =>
    obtain ⟨⟨hl, -, -⟩, hc⟩ := h
    have hnext : nextOf next (f :: frames) = nextOf (f.sequence + 1) frames := by
      rw [show f :: frames = [f] ++ frames from rfl, nextOf_append]
      rfl
    have hlast : f.sequence + 1 ≤ nextOf (f.sequence + 1) frames := by
      unfold nextOf
      cases hf : frames.getLast? with
      | none => exact le_refl _
      | some g =>
        have := (ih hc g (List.mem_of_getLast? hf)).1
        change f.sequence + 1 ≤ g.sequence + 1
        omega
    rw [hnext]
    refine List.forall_mem_cons.2 ⟨⟨hl, by omega⟩, fun g hg => ?_⟩
    have := ih hc g hg
    exact ⟨by omega, this.2⟩

theorem continues_head_le_last (h : Continues next frames) (hn : 0 ≤ next) :
    0 ≤ sequenceOf frames.head? ∧ sequenceOf frames.head? ≤ sequenceOf frames.getLast? := by
  cases frames with
  | nil => exact ⟨le_refl _, le_refl _⟩
  | cons f frames =>
    obtain ⟨⟨hl, -, -⟩, hc⟩ := h
    refine ⟨show 0 ≤ f.sequence by omega, ?_⟩
    cases hf : frames.getLast? with
    | none =>
      rw [List.getLast?_eq_none_iff.1 hf]
      exact le_refl _
    | some g =>
      have := (continues_between hc g (List.mem_of_getLast? hf)).1
      rw [show f :: frames = [f] ++ frames from rfl, List.getLast?_append, hf]
      change f.sequence ≤ g.sequence
      omega

theorem continues_drop (h : Continues next (sealed ++ tail)) : Continues (nextOf next sealed) tail := by
  induction sealed generalizing next with
  | nil => exact h
  | cons f sealed ih =>
    rw [show f :: sealed = [f] ++ sealed from rfl, nextOf_append]
    exact ih h.2

/-- What a tail is sealed as. -/
theorem segmentIs_record (hf : files (segmentOf store (D.sha256Hex content)) = some content) {continuation : Bool}
    (hl : IsLog J content spaceId deflate continuation tail []) (hp : parseTripleLogBytes J content true = .ok parsed) :
    SegmentIs J files store spaceId (segmentRecord D parsed content) continuation tail := by
  obtain ⟨hparsed, -⟩ := hl.parsedAs hp
  refine ⟨D.valid content, ⟨content, deflate, hf, hl, rfl⟩, ?_, ?_⟩ <;>
  · unfold segmentRecord
    rw [hparsed.frames]

/-- The ref that a fork plans is within the limits of its format. -/
theorem readable_planned (hr : document.Readable) (hfork : Forkable D document parsed content)
    (hframes : parsed.frames = tail) (hc : Continues 1 (sealed ++ tail)) (hsize : content.length < 10 ^ 18)
    (hnext : nextOf 1 (sealed ++ tail) ≤ 10 ^ 18) : (plannedFork D document parsed content).document.Readable := by
  have htail := continues_drop hc
  have hpos : 0 ≤ nextOf 1 sealed := by
    have hsealed : Continues 1 sealed := hc.of_append
    unfold nextOf
    cases hf : sealed.getLast? with
    | none => decide
    | some g =>
      have := (continues_between hsealed g (List.mem_of_getLast? hf)).1
      change 0 ≤ g.sequence + 1
      omega
  have hlast : sequenceOf tail.getLast? < 10 ^ 18 := by
    cases hf : tail.getLast? with
    | none => decide
    | some g =>
      have := (continues_between hc g (List.mem_append_right _ (List.mem_of_getLast? hf))).2
      change g.sequence < 10 ^ 18
      omega
  obtain ⟨hhead, horder⟩ := continues_head_le_last htail hpos
  have hrecord : (segmentRecord D parsed content).Readable := by
    unfold segmentRecord
    rw [hframes]
    exact ⟨D.valid content, hhead, horder, hlast, Int.natCast_nonneg _, by dsimp only; exact_mod_cast hsize⟩
  refine ⟨hr.space, ?_, ?_, ?_⟩
  · intro segment hs
    rw [plannedFork, List.mem_append, List.mem_singleton] at hs
    rcases hs with hs | rfl
    · exact hr.segments segment hs
    · exact hrecord
  · have hfresh : D.sha256Hex content ∉ document.segments.map (·.sha256) := by
      rw [List.mem_map]
      rintro ⟨segment, hs, he⟩
      exact hfork.fresh segment hs he
    rw [plannedFork, List.map_append, List.map_singleton]
    exact List.Nodup.append hr.names (List.nodup_singleton _) (by simpa [segmentRecord] using hfresh)
  · rw [plannedFork, List.length_append, List.length_singleton]
    exact hfork.chain

/-- A branch that gets the ref and the empty tail of a fork is folded to the history of the parent. -/
theorem Folds.forked {store parent : Text} (h : Folds J files store parent document sealed tail content deflate [])
    (hp : parseTripleLogBytes J content true = .ok parsed)
    (hs : ∀ name bytes, files (segmentOf store name) = some bytes → files' (segmentOf store name) = some bytes)
    (hsealed : files' (segmentOf store (D.sha256Hex content)) = some content)
    (htail : files' (tailOf store branch) = some (logHeader (parsed.deflate.getD false) true parsed.spaceId)) :
    Folds J files' store branch (plannedFork D document parsed content).document (sealed ++ tail) []
      (logHeader (parsed.deflate.getD false) true parsed.spaceId) (parsed.deflate.getD false) [] := by
  obtain ⟨hparsed, -⟩ := h.log.parsedAs hp
  have hid : parsed.spaceId = String.ofList document.spaceId := hparsed.space
  refine ⟨?_, htail, ?_, nofun, by rw [List.append_nil]; exact h.ordered⟩
  · refine (h.chain.keep hs).concat ?_ h.starts
    rw [Nat.zero_add]
    exact segmentIs_record hsealed h.log hp
  · have hlong : decide (0 < (plannedFork D document parsed content).document.segments.length) = true := by
      simp [plannedFork]
    rw [hlong, hid]
    exact isLog_logHeader _ _ h.log.space h.log.size

theorem chainEndSequence_nonneg (document : RefDocument) : 0 ≤ chainEndSequence document := by
  unfold chainEndSequence
  cases h : document.segments.reverse.find? (fun segment => decide (0 < segment.endSequence)) with
  | none => exact le_refl _
  | some segment =>
    have hpos := List.find?_some h
    exact (of_decide_eq_true hpos).le

/-- **A branch with a whole tail can be forked** exactly if its tail is not yet sealed, and its chain is not full. -/
theorem planFork_iff {store parent : Text} (hfile : files (tailOf store parent) = some content)
    (hlog : IsLog J content (String.ofList document.spaceId) deflate (decide (0 < document.segments.length)) tail [])
    (hpos : Positive tail) {document' : Option RefDocument} (hd : readBranchRef files store parent = .ok document')
    (hbase : document'.getD (emptyRef document.spaceId) = document) (hmain : document' = none → parent = defaultBranch) :
    ∃ parsed, parseTripleLogBytes J content true = .ok parsed ∧
      ParsedAs parsed content (String.ofList document.spaceId) deflate (decide (0 < document.segments.length)) tail [] ∧
      ∀ r, planFork D J files store parent (tailOf store parent) = .ok r ↔
        (∀ segment ∈ document.segments, segment.sha256 ≠ D.sha256Hex content) ∧ document.segments.length < maxChainLength ∧
          r = (parsed, plannedFork D document parsed content) := by
  obtain ⟨parsed, hparse, hparsed⟩ := @IsLog.parse _ _ _ _ _ _ _ hlog true fun _ => rfl
  have hid : parsed.spaceId.toList = document.spaceId := by rw [hparsed.space, String.toList_ofList]
  refine ⟨parsed, hparse, hparsed, fun r => ?_⟩
  rw [planFork_ok_iff]
  constructor
  · rintro ⟨document'', content', parsed', hd', -, hc, hp, hfork, rfl⟩
    rw [hd, Except.ok.injEq] at hd'
    subst hd'
    rw [hfile, Option.some.injEq] at hc
    subst hc
    rw [hparse, Except.ok.injEq] at hp
    subst hp
    rw [hid, hbase] at hfork ⊢
    exact ⟨hfork.fresh, hfork.chain, rfl⟩
  · rintro ⟨hfresh, hchain, rfl⟩
    refine ⟨document', content, parsed, hd, hmain, hfile, hparse, ?_, ?_⟩ <;> rw [hid, hbase]
    refine ⟨hparsed.torn.2 rfl, hid, hparsed.continuation, hfresh, hchain, ?_⟩
    unfold forkSequenceOf
    rw [hparsed.frames]
    cases hl : tail.getLast? with
    | none => exact chainEndSequence_nonneg document
    | some frame => exact (hpos frame (List.mem_of_getLast? hl)).le

/-- The sequences of a tail that its ref folds are positive. -/
theorem Folds.positive {store parent : Text} (h : Folds J files store parent document sealed tail content deflate []) : Positive tail :=
  fun f hf => Positive.of_continues h.ordered (by omega) f (List.mem_append_right _ hf)

end Planned

end Fram.Database
