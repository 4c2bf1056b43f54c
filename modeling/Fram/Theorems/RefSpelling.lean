import Fram.Lemmas.Branch

/-!
# The spelling of branch refs

A branch ref must be read back as printed, and have one accepted spelling. Neither holds of every ref and text. A ref is printed without
asking whether its SpaceId fits a line, and any nonempty UTF-8 is a SpaceId of a log; a text is read with any number of line feeds at
its end, with carriage returns before them, and with spaces after a segment.
-/

namespace Fram

open Lines (Text)

/-- A segment that a fork may seal: the sequences and the size of a log that was read. -/
structure SegmentRecord.Sealed (segment : SegmentRecord) : Prop where
  start : 0 ≤ segment.startSequence
  order : segment.startSequence ≤ segment.endSequence
  bytes : 0 ≤ segment.byteCount

/-- The refs that forks build: the empty ref of a SpaceId, and the documents of fork plans. -/
inductive Forked : RefDocument → Prop
  | empty {spaceId : Text} (h : spaceId ≠ []) : Forked (emptyRef spaceId)
  | fork {parent : RefDocument} {sealed : SegmentRecord} {forkSequence : Int} {plan : ForkPlan} (h : Forked parent)
      (hs : sealed.Sealed) (hp : forkPlan parent sealed forkSequence = .ok plan) : Forked plan.document

/-- What a fork plan adds to its parent. -/
theorem forkPlan_eq_ok {parent : RefDocument} {sealed : SegmentRecord} {forkSequence : Int} {plan : ForkPlan}
    (h : forkPlan parent sealed forkSequence = .ok plan) :
    plan.document = ⟨parent.spaceId, parent.segments ++ [sealed]⟩ ∧ validSegmentName sealed.sha256 = true ∧
      (∀ segment ∈ parent.segments, segment.sha256 ≠ sealed.sha256) ∧ parent.segments.length < maxChainLength := by
  simp only [forkPlan, ite_branchFail_eq_ok_iff] at h
  obtain ⟨hname, hany, hlength, -, hplan⟩ := h
  cases hplan
  refine ⟨rfl, by simpa using hname, fun segment hm he => ?_, by omega⟩
  rw [List.any_eq_true] at hany
  exact hany ⟨segment, hm, by simpa using he⟩

/-- A forked ref is within the limits of the format unless a count needs more than 18 digits. -/
theorem Forked.readable_iff {document : RefDocument} (h : Forked document) :
    document.Readable ↔ ∀ segment ∈ document.segments, segment.endSequence < 10 ^ 18 ∧ segment.byteCount < 10 ^ 18 := by
  have hlimits : document.spaceId ≠ [] ∧ (document.segments.map (·.sha256)).Nodup ∧ document.segments.length ≤ maxChainLength ∧
      ∀ segment ∈ document.segments, validSegmentName segment.sha256 = true ∧ segment.Sealed := by
    induction h with
    | empty h => exact ⟨h, List.nodup_nil, Nat.zero_le _, List.forall_mem_nil _⟩
    | @fork parent sealed forkSequence plan _ hs hp ih =>
      obtain ⟨hspace, hnodup, -, hall⟩ := ih
      obtain ⟨hd, hname, hnew, hlength⟩ := forkPlan_eq_ok hp
      rw [hd]
      refine ⟨hspace, ?_, ?_, ?_⟩
      · rw [List.map_append, List.nodup_append]
        refine ⟨hnodup, List.nodup_singleton _, ?_⟩
        intro name hm other ho
        obtain ⟨segment, hsegment, rfl⟩ := List.mem_map.1 hm
        rw [List.map_singleton, List.mem_singleton] at ho
        rw [ho]
        exact hnew segment hsegment
      · simp only [List.length_append, List.length_singleton]
        omega
      · intro segment hm
        rcases List.mem_append.1 hm with hm | hm
        · exact hall segment hm
        · rw [List.mem_singleton.1 hm]
          exact ⟨hname, hs⟩
  obtain ⟨hspace, hnodup, hlength, hall⟩ := hlimits
  constructor
  · intro hr segment hm
    exact ⟨(hr.segments segment hm).last, (hr.segments segment hm).size⟩
  · intro hc
    refine ⟨hspace, fun segment hm => ?_, hnodup, hlength⟩
    obtain ⟨hname, hs⟩ := hall segment hm
    exact ⟨hname, hs.start, hs.order, (hc segment hm).1, hs.bytes, (hc segment hm).2⟩

/-- A ref is read back from its print exactly when it is within the limits of the format and its SpaceId sits on one line; a text that
is read is printed again exactly when it has one line feed after each line, no carriage return before one, and no space at the end of a
segment. -/
theorem ref_spelling (document : RefDocument) (text : Text) :
    (parseRef (printRef document) = .ok document ↔ document.Readable ∧ OnOneLine document.spaceId) ∧
    (Forked document →
      (parseRef (printRef document) = .ok document ↔
        (∀ segment ∈ document.segments, segment.endSequence < 10 ^ 18 ∧ segment.byteCount < 10 ^ 18) ∧
          OnOneLine document.spaceId)) ∧
    (parseRef text = .ok document → (printRef document = text ↔ Lines.Tidy text ∧ NoTrailingSpace text)) := by
  refine ⟨parseRef_printRef_iff, fun h => ?_, printRef_eq_iff⟩
  rw [parseRef_printRef_iff, h.readable_iff]

/-- A forked ref of a SpaceId on two lines, which a log may have, is not read back; and a ref with a blank line after it is read, though
it is not the print of what is read. -/
theorem ref_not_one_spelling :
    (Forked (emptyRef "a\nb".toList) ∧ parseRef (printRef (emptyRef "a\nb".toList)) ≠ .ok (emptyRef "a\nb".toList)) ∧
      ∃ text, parseRef text = .ok (emptyRef "a".toList) ∧ printRef (emptyRef "a".toList) ≠ text := by
  refine ⟨⟨.empty (by decide), fun h => (parseRef_printRef_iff.1 h).2.1 (by decide)⟩,
    printRef (emptyRef "a".toList) ++ ['\n'], ?_, by simp⟩
  have hr : (emptyRef "a".toList).Readable :=
    ⟨by decide, List.forall_mem_nil _, List.nodup_nil, Nat.zero_le _⟩
  have hone : OnOneLine (emptyRef "a".toList).spaceId := ⟨by decide, by decide⟩
  rw [parseRef_eq_ok_iff]
  refine ⟨hr, [], .nil, ?_⟩
  have htext : printRef (emptyRef "a".toList) ++ ['\n'] =
      Lines.unlines (bodyLines (emptyRef "a".toList) ++ [crcLine (bodyLines (emptyRef "a".toList))] ++ [[]]) := by
    rw [Lines.unlines_append, printRef_eq]
    rfl
  rw [htext, Lines.splitLines_unlines (by simp), List.map_append]
  · rw [List.map_singleton, show Lines.chomp [] = [] from rfl, Lines.dropTrailing_concat_nil]
    have := hr.splitLines_printRef hone
    rw [printRef_eq, Lines.splitLines_unlines (by simp) (hr.not_mem_lines hone.1)] at this
    rw [this]
    rfl
  · intro line hm
    rcases List.mem_append.1 hm with hm | hm
    · exact hr.not_mem_lines hone.1 line hm
    · rw [List.mem_singleton.1 hm]
      exact List.not_mem_nil

end Fram
