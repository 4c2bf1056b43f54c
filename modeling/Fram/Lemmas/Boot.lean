import Fram.Lemmas.Twin

/-!
# Booting a log

`Boots` says what a boot makes of the bytes of a log, without a store: the space that its header names, the frames after it, and
how many bytes of it are valid. The reader of the source boots exactly the logs that `Boots` does, and the store it makes
represents their frames (`consumeFramlogHeader_ok`, `Boots.consume`).
-/

namespace Fram

open Reader LittleEndian

variable {stream : BootStream} {spaceId : String}

/-- What a boot where a space is configured makes of the bytes of a log: the space, the frames, how many bytes are valid, and the
bytes it appends. -/
inductive Boots (configured : String) : Bytes → String → List TransactionFrame → Nat → Bytes → Prop
  | new : configured ≠ "" → (utf8Encode configured).length ≤ maxCodecCount →
    Boots configured [] configured [] 0 (headerBytes configured)
  | log {spaceId : String} {rest : Bytes} {frames : List TransactionFrame} {n : Nat} : AdmitsHeader configured spaceId →
    Scans 1 rest frames n →
      Boots configured (headerBytes spaceId ++ rest) spaceId frames ((headerBytes spaceId).length + n) []

section Header

variable {Γ : Host} {configured : String} {bytes : Bytes}

/-- A header that is read is the header of a space that is admitted, and the frames after it are read. -/
theorem consumeFramlogHeader_log_iff (hb : bytes ≠ []) : consumeFramlogHeader Γ (startFramlogStream configured) bytes = .ok (.ok stream) ↔
      ∃ spaceId rest root, bytes = headerBytes spaceId ++ rest ∧ AdmitsHeader configured spaceId ∧
        newTermStoreForLog spaceId bytes.length = .ok root ∧ consumeFrames Γ rest.length
          ⟨configured, some (openFold root), (headerBytes spaceId).length, []⟩ rest = .ok stream := by
  have hlen : bytes.length ≠ 0 := by simpa using hb
  unfold consumeFramlogHeader startFramlogStream
  rw [if_neg hlen]
  dsimp only
  constructor
  · intro h
    split at h
    · cases h
    · rename_i h16
      split at h
      · cases h
      · rename_i hmagic
        split at h
        · cases h
        · rename_i hver
          split at h
          · cases h
          · rename_i hsp
            split at h
            · cases h
            · rename_i hfit
              cases hd : utf8Decode ((bytes.drop 16).take (u32LeAt bytes 12)) with
              | none => rw [hd] at h; cases h
              | some spaceId =>
                rw [hd] at h
                dsimp only at h
                split at h
                · cases h
                · rename_i hne
                  split at h
                  · cases h
                  · rename_i hconf
                    cases hroot : newTermStoreForLog spaceId bytes.length with
                    | error e => rw [hroot] at h; cases h
                    | ok root =>
                      rw [hroot] at h
                      simp only [bind, Except.bind, Except.ok.injEq, consumeFramlogFrames] at h
                      obtain ⟨hbytes, hl⟩ := exists_headerBytes (by omega) (by simpa using hmagic) (by omega) (by omega)
                        (by omega) hd
                      refine ⟨spaceId, _, root, hbytes, ⟨fun he => hne (length_pos_iff_ne_empty.2 he), by omega, ?_⟩,
                        hroot, ?_⟩
                      · rw [Ne, length_pos_iff_ne_empty] at hconf
                        tauto
                      · rw [length_headerBytes, hl, List.length_drop]
                        exact h
  · rintro ⟨spaceId, rest, root, hbytes, ⟨hne, hsize, hconf⟩, hroot, h⟩
    have hm : framlogStreamMaxSpaceBytes = 4096 := rfl
    obtain ⟨p1, p2, p3, p4, p5, p6⟩ := headerBytes_parts (by omega : (utf8Encode spaceId).length < 256 ^ 4) rest
    rw [← hbytes] at p1 p2 p3 p4 p5 p6
    have hpos : (utf8Encode spaceId).length ≠ 0 := by
      rw [Ne, List.length_eq_zero_iff, utf8Encode_eq_nil_iff]
      exact hne
    have hl : bytes.length = 16 + (utf8Encode spaceId).length + rest.length := by
      rw [hbytes, List.length_append, length_headerBytes]
    have hfuel : bytes.length - (16 + (utf8Encode spaceId).length) = rest.length := by omega
    rw [length_headerBytes] at h
    simp only [p1, p2, p3, p4, p5, utf8Decode_eq_some_iff.2 rfl, hroot, bind, Except.bind, consumeFramlogFrames, p6, hfuel, h,
      show ¬bytes.length < 16 by omega, show ¬bytes.length < 16 + (utf8Encode spaceId).length by omega,
      show ¬((utf8Encode spaceId).length = 0 ∨ framlogStreamMaxSpaceBytes < (utf8Encode spaceId).length) by omega,
      length_pos_iff_ne_empty, if_neg hne]
    simp
    tauto

theorem exists_newTermStoreSized (h : spaceId ≠ "") (a t b : Nat) : ∃ root, newTermStoreSized spaceId a t b = .ok root := by
  have : 0 < spaceId.length := Nat.pos_of_ne_zero fun he => h (length_pos_iff_ne_empty.1 he)
  exact ⟨_, by simp only [newTermStoreSized, validSpaceId, this, decide_true, if_true]; rfl⟩

/-- Reading a header answers or fails, and does not throw. -/
theorem consumeFramlogHeader_total : ∃ r, consumeFramlogHeader Γ (startFramlogStream configured) bytes = .ok r := by
  unfold consumeFramlogHeader startFramlogStream
  dsimp only
  split
  · cases he : encodeHeader configured with
    | error m => exact ⟨_, rfl⟩
    | ok header =>
      obtain ⟨root, hr⟩ := exists_newTermStoreSized (encodeHeader_eq_ok_iff.1 he).1 0 0 0
      exact ⟨_, by simp only [newTermStore, hr]; rfl⟩
  · split
    · exact ⟨_, rfl⟩
    · split
      · exact ⟨_, rfl⟩
      · split
        · exact ⟨_, rfl⟩
        · split
          · exact ⟨_, rfl⟩
          · split
            · exact ⟨_, rfl⟩
            · split
              · exact ⟨_, rfl⟩
              · rename_i spaceId _
                split
                · exact ⟨_, rfl⟩
                · rename_i hne
                  rw [length_pos_iff_ne_empty] at hne
                  split
                  · exact ⟨_, rfl⟩
                  · obtain ⟨root, hr⟩ := exists_newTermStoreSized hne (bytes.length / 64) (bytes.length / 32)
                      (bytes.length / 128)
                    exact ⟨_, by simp only [newTermStoreForLog, hr]; rfl⟩

theorem consumeFramlogHeader_nil : consumeFramlogHeader Γ (startFramlogStream configured) [] = .ok (.ok stream) ↔ ∃ root, configured ≠ "" ∧
      (utf8Encode configured).length ≤ maxCodecCount ∧ newTermStore configured = .ok root ∧
      stream = ⟨configured, some root, 0, headerBytes configured⟩ := by
  unfold consumeFramlogHeader startFramlogStream
  rw [if_pos List.length_nil]
  dsimp only
  cases he : encodeHeader configured with
  | error m =>
    simp only [Except.ok.injEq, reduceCtorEq, false_iff]
    rintro ⟨root, hne, hl, -⟩
    rw [encodeHeader_eq_ok_iff.2 ⟨hne, hl, rfl⟩] at he
    cases he
  | ok header =>
    obtain ⟨hne, hl, rfl⟩ := encodeHeader_eq_ok_iff.1 he
    obtain ⟨root, hr⟩ := exists_newTermStoreSized hne 0 0 0
    simp only [newTermStore, hr, bind, Except.bind, Except.ok.injEq]
    constructor
    · rintro rfl
      exact ⟨root, hne, hl, rfl, rfl⟩
    · rintro ⟨root', -, -, rfl, rfl⟩
      rfl

/-- A new store with an open fold represents the empty history. -/
theorem represents_openFold_newTermStore {a t b : Nat} {root : TermStore} (h : newTermStoreSized spaceId a t b = .ok root) :
    Represents Γ (openFold root) [] ∧ (openFold root).spaceId = spaceId ∧ (openFold root).nextSequence = 1 := by
  obtain ⟨hr, hs, -⟩ := represents_newTermStoreSized Γ h
  refine ⟨hr.openFold, by rw [openFold_frame]; exact hs, ?_⟩
  rw [openFold_frame]
  exact hr.advances.last

/-- What reading a log from its header makes of it: a store that represents the frames of the boot. -/
theorem consumeFramlogHeader_ok
    (h : consumeFramlogHeader Γ (startFramlogStream configured) bytes = .ok (.ok stream)) : ∃ spaceId frames root,
      Boots configured bytes spaceId frames stream.validLogBytes stream.bootAppend ∧ stream.store = some root ∧
        Represents Γ root frames ∧ root.spaceId = spaceId ∧ Folds Γ spaceId frames root := by
  by_cases hb : bytes = []
  · subst hb
    obtain ⟨root, hne, hl, hr, rfl⟩ := consumeFramlogHeader_nil.1 h
    obtain ⟨hrep, hs, -⟩ := represents_newTermStoreSized Γ hr
    exact ⟨configured, [], root, .new hne hl, rfl, hrep, hs, 0, 0, 0, root, hr, Twin.refl root⟩
  · obtain ⟨spaceId, rest, root, rfl, hadm, hroot, hc⟩ := (consumeFramlogHeader_log_iff hb).1 h
    obtain ⟨hrep, hs, hn⟩ := represents_openFold_newTermStore (Γ := Γ) hroot
    obtain ⟨fs, n, hscan, rfl⟩ := (consumeFrames_ok_iff hrep rfl (Nat.le_refl _)).1 hc
    refine ⟨spaceId, fs, _, ?_, rfl, by simpa using hrep.appendFrames hscan, (appendFrames_spaceId _ _).trans hs,
      folds_appendFrames hroot fs⟩
    simpa using Boots.log hadm (hn ▸ hscan)

/-- A log that boots is read. -/
theorem Boots.consume {frames : List TransactionFrame} {valid : Nat} {append : Bytes}
    (h : Boots configured bytes spaceId frames valid append) : ∃ root, consumeFramlogHeader Γ (startFramlogStream configured) bytes =
      .ok (.ok ⟨configured, some root, valid, append⟩) ∧ Represents Γ root frames ∧ root.spaceId = spaceId ∧
        Folds Γ spaceId frames root := by
  cases h with
  | new hne hl =>
    obtain ⟨root, hr⟩ := exists_newTermStoreSized hne 0 0 0
    obtain ⟨hrep, hs, -⟩ := represents_newTermStoreSized Γ hr
    exact ⟨root, consumeFramlogHeader_nil.2 ⟨root, hne, hl, hr, rfl⟩, hrep, hs, 0, 0, 0, root, hr, Twin.refl root⟩
  | @log _ rest _ n hadm hscan =>
    obtain ⟨root, hr⟩ := exists_newTermStoreSized hadm.nonempty ((headerBytes spaceId ++ rest).length / 64)
      ((headerBytes spaceId ++ rest).length / 32) ((headerBytes spaceId ++ rest).length / 128)
    obtain ⟨hrep, hs, hn⟩ := represents_openFold_newTermStore (Γ := Γ) hr
    rw [← hn] at hscan
    refine ⟨Fram.appendFrames Γ (openFold root) frames, (consumeFramlogHeader_log_iff ?_).2
      ⟨spaceId, rest, root, rfl, hadm, hr, ?_⟩, by simpa using hrep.appendFrames hscan,
      (appendFrames_spaceId _ _).trans hs, folds_appendFrames hr frames⟩
    · intro he
      have := congrArg List.length he
      rw [List.length_append, length_headerBytes, List.length_nil] at this
      omega
    · refine (consumeFrames_ok_iff hrep rfl (Nat.le_refl _)).2 ⟨frames, n, hscan, ?_⟩
      simp

/-- What a boot makes of a log is determined by the bytes. -/
theorem Boots.unique {spaceId' : String} {frames frames' : List TransactionFrame} {valid valid' : Nat}
    {append append' : Bytes} (h : Boots configured bytes spaceId frames valid append)
    (h' : Boots configured bytes spaceId' frames' valid' append') :
    spaceId = spaceId' ∧ frames = frames' ∧ valid = valid' ∧ append = append' := by
  have hm : framlogStreamMaxSpaceBytes = 4096 := rfl
  have hnil : ∀ (spaceId : String) (rest : Bytes), headerBytes spaceId ++ rest ≠ [] := by
    intro spaceId rest he
    have := congrArg List.length he
    rw [List.length_append, length_headerBytes, List.length_nil] at this
    omega
  cases h with
  | new =>
    generalize hb : ([] : Bytes) = bytes at h'
    cases h' with
    | new => exact ⟨rfl, rfl, rfl, rfl⟩
    | log => exact absurd hb.symm (hnil _ _)
  | @log _ rest _ n hadm hscan =>
    generalize hb : headerBytes spaceId ++ rest = bytes at h'
    cases h' with
    | new => exact absurd hb (hnil _ _)
    | @log _ rest' _ n' hadm' hscan' =>
      obtain ⟨rfl, rfl⟩ := headerBytes_append_inj (by have := hadm.size; omega) (by have := hadm'.size; omega) hb
      obtain ⟨rfl, rfl⟩ := hscan.unique hscan'
      exact ⟨rfl, rfl, rfl, rfl⟩

end Header

end Fram
