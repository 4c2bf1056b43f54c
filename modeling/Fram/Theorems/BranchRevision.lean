import Fram.BranchRevision
import Fram.Lemmas.Branch
import Fram.Lemmas.Wire
import Fram.Lib.Writers

/-!
# Revisions name their content

The preimage of a revision gives back the content it was written from: every text follows its length, the segments follow their count,
and the numbers have a fixed width. Two contents therefore share an identity only where the digests of two different preimages agree.
-/

namespace Fram

open Lines (Text)
open LittleEndian Writers

namespace BranchRevision

theorem unambiguous_revisionWriteText : Unambiguous revisionWriteText := by
  refine @Unambiguous.sized _ _ _ (fun value => utf8Encode (String.ofList value)) 4 (fun value x h => ?_) fun a b h => ?_
  · simp only [revisionWriteText] at h
    split at h
    · rename_i hlt
      cases h
      exact ⟨by omega, rfl⟩
    · cases h
  · exact String.ofList_injective (utf8Encode_injective h)

theorem revisionWriteI64Le_eq_ok {value : Int} {x : Bytes} (h : revisionWriteI64Le value = .ok x) :
    InI64 value ∧ x = toBytes 8 (natOfI64 value) := by
  unfold revisionWriteI64Le at h
  split at h
  · rename_i hin
    cases h
    exact ⟨⟨by omega, by omega⟩, rfl⟩
  · cases h

theorem unambiguous_revisionWriteI64Le : Unambiguous revisionWriteI64Le := by
  refine @Unambiguous.of_length _ _ _ _ 8 (fun value x h => ?_) fun a b x ha hb => ?_
  · rw [(revisionWriteI64Le_eq_ok h).2]
    exact length_toBytes 8 _
  · obtain ⟨hina, hxa⟩ := revisionWriteI64Le_eq_ok ha
    obtain ⟨hinb, hxb⟩ := revisionWriteI64Le_eq_ok hb
    have hbits := toBytes_injective (natOfI64_lt a) (natOfI64_lt b) (hxa.symm.trans hxb)
    rw [← i64OfNat_natOfI64 hina, hbits, i64OfNat_natOfI64 hinb]

/-- The parts of a preimage. -/
theorem branchRevisionPreimage_eq_ok {content : Content} {preimage : Bytes} (h : branchRevisionPreimage content = .ok preimage) :
    ∃ format spaceId segments byteCount tailPrefix sequence, revisionWriteText branchRevisionFormat = .ok format ∧
      revisionWriteText content.spaceId = .ok spaceId ∧ content.segments.mapM revisionWriteText = .ok segments ∧
      revisionWriteI64Le content.tailPrefixByteCount = .ok byteCount ∧ revisionWriteText content.tailPrefixSha256 = .ok tailPrefix ∧
      revisionWriteI64Le content.sequence = .ok sequence ∧
      preimage = format ++ (spaceId ++ (revisionWriteU32Le content.segments.length ++ (segments.flatten ++
        (byteCount ++ (tailPrefix ++ sequence))))) := by
  simp only [branchRevisionPreimage, ExceptList.bind_eq_ok_iff] at h
  obtain ⟨format, hf, spaceId, hs, segments, hseg, byteCount, hb, tailPrefix, ht, sequence, hq, he⟩ := h
  exact ⟨format, spaceId, segments, byteCount, tailPrefix, sequence, hf, hs, hseg, hb, ht, hq, (Except.ok.inj he).symm⟩

/-- What is named by a revision has a preimage, and at most 64 segments. -/
theorem branchRevision_eq_ok {sha256 : Database.Digest} {content : Content} {revision : Revision}
    (h : branchRevision sha256 content = .ok revision) :
    content.segments.length ≤ maxChainLength ∧ ∃ preimage, branchRevisionPreimage content = .ok preimage ∧
      revision = ⟨content, "sha256:".toList ++ sha256.sha256Hex preimage⟩ := by
  simp only [branchRevision, ite_branchFail_eq_ok_iff, ExceptList.bind_eq_ok_iff] at h
  obtain ⟨-, hchain, -, -, -, -, -, preimage, hpre, hrev⟩ := h
  exact ⟨by omega, preimage, hpre, (Except.ok.inj hrev).symm⟩

/-- A preimage gives back its content, when the count of its segments fits its four bytes. -/
theorem branchRevisionPreimage_injective {a b : Content} {preimage : Bytes} (ha : branchRevisionPreimage a = .ok preimage)
    (hb : branchRevisionPreimage b = .ok preimage) (hna : a.segments.length < 256 ^ 4) (hnb : b.segments.length < 256 ^ 4) : a = b := by
  obtain ⟨fa, sa, ga, ca, ta, qa, hfa, hsa, hga, hca, hta, hqa, rfl⟩ := branchRevisionPreimage_eq_ok ha
  obtain ⟨fb, sb, gb, cb, tb, qb, hfb, hsb, hgb, hcb, htb, hqb, h⟩ := branchRevisionPreimage_eq_ok hb
  obtain ⟨-, h⟩ := unambiguous_revisionWriteText hfa hfb h
  obtain ⟨hspace, h⟩ := unambiguous_revisionWriteText hsa hsb h
  obtain ⟨hcount, h⟩ := List.append_inj h (by simp [revisionWriteU32Le])
  have hlen := toBytes_injective hna hnb hcount
  obtain ⟨hsegments, h⟩ := unambiguous_revisionWriteText.mapM hlen hga hgb h
  obtain ⟨hbytes, h⟩ := unambiguous_revisionWriteI64Le hca hcb h
  obtain ⟨htail, h⟩ := unambiguous_revisionWriteText hta htb h
  obtain ⟨hsequence, -⟩ := unambiguous_revisionWriteI64Le hqa hqb (by rw [h] : qa ++ [] = qb ++ [])
  cases a
  cases b
  simp_all

/-- **The preimage of a revision is injective** on the contents that are accepted, and two of them share an identity only through a
collision of the digest. -/
theorem revision_injective (sha256 : Database.Digest) (a b : Content) (ra rb : Revision) (ha : branchRevision sha256 a = .ok ra)
    (hb : branchRevision sha256 b = .ok rb) : (branchRevisionPreimage a = branchRevisionPreimage b → a = b) ∧
      (ra.identity = rb.identity → a = b ∨ ∃ x y, branchRevisionPreimage a = .ok x ∧ branchRevisionPreimage b = .ok y ∧ x ≠ y ∧
        sha256.sha256Hex x = sha256.sha256Hex y) := by
  obtain ⟨hna, x, hx, rfl⟩ := branchRevision_eq_ok ha
  obtain ⟨hnb, y, hy, rfl⟩ := branchRevision_eq_ok hb
  have hmax : maxChainLength < 256 ^ 4 := by decide
  have hinj : x = y → a = b := by
    rintro rfl
    exact branchRevisionPreimage_injective hx hy (by omega) (by omega)
  constructor
  · intro h
    rw [hx, hy] at h
    exact hinj (Except.ok.inj h)
  · intro h
    by_cases hxy : x = y
    · exact .inl (hinj hxy)
    · exact .inr ⟨x, y, hx, hy, hxy, List.append_cancel_left h⟩

/-- A revision of a branch without segments. -/
def bareContent (sequence : Int) : Content := ⟨"s".toList, [], List.replicate 64 '0', 0, sequence⟩

/-- A digest that tells two lengths apart. -/
def lengthDigest : Database.Digest where
  sha256Hex bytes := if bytes.length = 0 then List.replicate 64 '1' else List.replicate 64 '0'
  valid bytes := by
    split <;> decide

/-- Two revisions of a branch without segments. -/
theorem revision_injective_two : ∃ ra rb, branchRevision lengthDigest (bareContent 0) = .ok ra ∧
    branchRevision lengthDigest (bareContent 1) = .ok rb ∧
    (branchRevisionPreimage (bareContent 0) = branchRevisionPreimage (bareContent 1) → bareContent 0 = bareContent 1) ∧
      (ra.identity = rb.identity → bareContent 0 = bareContent 1 ∨ ∃ x y, branchRevisionPreimage (bareContent 0) = .ok x ∧
        branchRevisionPreimage (bareContent 1) = .ok y ∧ x ≠ y ∧ lengthDigest.sha256Hex x = lengthDigest.sha256Hex y) := by
  obtain ⟨ra, ha⟩ : ∃ ra, branchRevision lengthDigest (bareContent 0) = .ok ra := ⟨_, rfl⟩
  obtain ⟨rb, hb⟩ : ∃ rb, branchRevision lengthDigest (bareContent 1) = .ok rb := ⟨_, rfl⟩
  exact ⟨ra, rb, ha, hb, revision_injective lengthDigest _ _ ra rb ha hb⟩

end BranchRevision

end Fram
