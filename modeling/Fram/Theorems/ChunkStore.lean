import Fram.Lib.ExceptList
import Fram.Lemmas.ChunkStore

/-!
# Chunked storage holds the last commit

Over a run of appends and truncations on both objects, of commits that land or are rejected, and of new stores with any chunk size and
batch size, the adapter does what two plain files do under the same events (`TwoFiles`, a run apart from that of the adapter), and
loading the storage gives what the files held when the last commit that landed took them (`storage_loads_commit`).
-/

namespace Fram.Worker

open Lines (Text)

/-! ## Host memory -/

namespace HostImage

/-- The object differs from some bytes from its low water on, and not at all where it is clean. -/
def Agrees (object : HostImage) (bytes : Bytes) : Prop :=
  object.lowWater = none ∧ object.dirty = false ∧ object.content = bytes ∨
  ∃ low, object.lowWater = some low ∧ object.dirty = true ∧ low ≤ bytes.length ∧ low ≤ object.length ∧
    object.content.take low = bytes.take low

@[simp] theorem length_content (object : HostImage) : object.content.length = object.length := by
  have := object.fits
  simp only [content, List.length_take]
  omega

/-- The buffer begins with the object. -/
theorem take_reserve (object : HostImage) (extra : Nat) : (object.reserve extra).take object.length = object.content := by
  simp only [reserve]
  split
  · rfl
  · exact List.take_left' object.length_content

theorem content_append (object : HostImage) (chunk : Bytes) : (object.append chunk).content = object.content ++ chunk := by
  have hl : (object.content ++ chunk).length = object.length + chunk.length := by
    rw [List.length_append, length_content]
  show (Chunks.overwrite (object.reserve chunk.length) object.length chunk).take (object.length + chunk.length) = _
  rw [Chunks.overwrite, take_reserve, ← List.append_assoc, List.take_left' hl]

theorem content_truncate (object : HostImage) {length : Nat} (h : length ≤ object.length) :
    (object.truncate length).content = object.content.take length := by
  simp only [truncate, content]
  rw [dif_neg (by omega), List.take_take, Nat.min_eq_left h]

variable {object : HostImage} {bytes bytes' : Bytes}

theorem agrees_fresh (bytes : Bytes) : (fresh bytes).Agrees bytes := Or.inl ⟨rfl, rfl, List.take_length⟩

theorem Agrees.append (h : object.Agrees bytes) (chunk : Bytes) : (object.append chunk).Agrees bytes := by
  refine Or.inr ⟨lower object.lowWater object.length, rfl, rfl, ?_⟩
  rw [content_append]
  show _ ∧ _ ≤ object.length + chunk.length ∧ _
  rcases h with ⟨hlow, -, rfl⟩ | ⟨low, hlow, -, hb, hl, ht⟩
  · rw [hlow, length_content]
    exact ⟨Nat.le_refl _, Nat.le_add_right _ _, by rw [List.take_append_of_le_length (by simp [lower])]⟩
  · rw [hlow, show lower (some low) object.length = low from Nat.min_eq_right hl, List.take_append_of_le_length (by simpa using hl)]
    exact ⟨hb, by omega, ht⟩

theorem Agrees.truncate (h : object.Agrees bytes) (length : Nat) : (object.truncate length).Agrees bytes := by
  by_cases hlength : object.length < length
  · rw [HostImage.truncate, dif_pos hlength]
    exact h
  · have hle : length ≤ object.length := by omega
    refine Or.inr ⟨lower object.lowWater length, ?_, ?_, ?_⟩
    · rw [HostImage.truncate, dif_neg hlength]
    · rw [HostImage.truncate, dif_neg hlength]
    · rw [content_truncate _ hle]
      have hnew : (object.truncate length).length = length := by rw [HostImage.truncate, dif_neg hlength]
      rw [hnew]
      rcases h with ⟨hlow, -, rfl⟩ | ⟨low, hlow, -, hb, hl, ht⟩
      · rw [hlow, length_content]
        exact ⟨hle, Nat.le_refl _, by simp [lower, List.take_take]⟩
      · have hm : lower object.lowWater length = min length low := by
          rw [hlow]
          rfl
        rw [hm]
        refine ⟨by omega, by omega, ?_⟩
        calc (object.content.take length).take (min length low) = (object.content.take low).take length := by
              rw [List.take_take, List.take_take]
              congr 1
              omega
          _ = bytes.take (min length low) := by rw [ht, List.take_take]

/-- What a commit takes: a place up to which the object is as it was. The object is clean afterwards. -/
theorem Agrees.takeCommit (h : object.Agrees bytes) (hd : object.dirty = true) :
    (object.takeCommit.1 ≤ bytes.length ∧ object.takeCommit.1 ≤ object.length ∧
      object.content.take object.takeCommit.1 = bytes.take object.takeCommit.1) ∧
      object.takeCommit.2.Agrees object.content := by
  rcases h with ⟨-, hc, -⟩ | ⟨low, hlow, -, hb, hl, ht⟩
  · rw [hc] at hd
    cases hd
  · refine ⟨?_, Or.inl ⟨rfl, rfl, rfl⟩⟩
    rw [show object.takeCommit.1 = low by simp [HostImage.takeCommit, hlow]]
    exact ⟨hb, hl, ht⟩

/-- What a rejected commit gives back. -/
theorem Agrees.restoreCommit (h : object.Agrees bytes) {low : Nat} (hb : low ≤ bytes.length) (hb' : low ≤ bytes'.length)
    (ht : bytes.take low = bytes'.take low) : (object.restoreCommit low).Agrees bytes' := by
  refine Or.inr ⟨lower object.lowWater low, rfl, rfl, ?_⟩
  show _ ∧ _ ≤ object.length ∧ object.content.take _ = _
  rcases h with ⟨hlow, -, rfl⟩ | ⟨l, hlow, -, hlb, hll, hlt⟩
  · rw [hlow]
    rw [length_content] at hb
    exact ⟨hb', hb, ht⟩
  · have hm : lower object.lowWater low = min low l := by
      rw [hlow]
      rfl
    rw [hm]
    refine ⟨by omega, by omega, ?_⟩
    calc object.content.take (min low l) = (object.content.take l).take low := by rw [List.take_take]
      _ = (bytes.take low).take l := by rw [hlt, List.take_take, List.take_take, Nat.min_comm]
      _ = bytes'.take (min low l) := by rw [ht, List.take_take, Nat.min_comm]

end HostImage

/-! ## Commits -/

/-- A part of a commit makes one object out of another: up to its low water they are the same. -/
structure Makes (part : Part) (old new : Bytes) : Prop where
  fits : part.length ≤ part.bytes.length
  new_eq : part.bytes.take part.length = new
  low_old : part.lowWater ≤ old.length
  low_new : part.lowWater ≤ new.length
  agree : new.take part.lowWater = old.take part.lowWater

/-- The ranges are those of the two objects, and were loaded. -/
structure Ready (ranges : Which → ChunkedRange) : Prop where
  keyPrefix : ∀ which, (ranges which).keyPrefix = which.keyPrefix
  loaded : ∀ which, (ranges which).chunkCount.isSome

section Commits

variable {ranges : Which → ChunkedRange}

/-- A commit over ranges that were loaded has its plans. -/
theorem Ready.stage (h : Ready ranges) (parts : List Part) : ∃ staged, stage ranges parts = .ok staged := by
  have hplan : ∀ part : Part, ∃ plan, (ranges part.which).plan part.bytes part.length part.lowWater = .ok plan := by
    intro part
    obtain ⟨n, hn⟩ := Option.isSome_iff_exists.1 (h.loaded part.which)
    exact ⟨_, plan_eq hn⟩
  choose plan hplan using hplan
  refine ⟨parts.map fun part => (part.which, plan part), ExceptList.mapM_eq_ok ?_⟩
  intro part _
  rw [hplan part]
  rfl

/-- A plan of one object leaves the other stored. -/
theorem Ready.stored_other (h : Ready ranges) {which other : Which} (hne : other ≠ which) {plan : Plan}
    (hplan : PlansFor (ranges which) plan) {storage : Storage} {bytes : Bytes} (hs : Stored storage (ranges other) bytes) :
    Stored ((ranges which).applyTo storage plan) (ranges other) bytes := by
  refine hs.congr ?_
  intro key hkey
  refine hplan.frame _ ?_
  intro hkey'
  exact hne (hkey.which (h.keyPrefix other) (h.keyPrefix which) hkey')

/-- The transaction of a commit stores what its parts make of the objects, and leaves the others. -/
theorem Ready.stored_transaction (h : Ready ranges) {parts : List Part} {staged : List (Which × Plan)} {storage : Storage}
    {old new : Which → Bytes} (hstage : Fram.Worker.stage ranges parts = .ok staged) (hn : (parts.map Part.which).Nodup)
    (hs : ∀ which, Stored storage (ranges which) (old which)) (hparts : ∀ part ∈ parts, Makes part (old part.which) (new part.which))
    (hrest : ∀ which, which ∉ parts.map Part.which → new which = old which) :
    ∀ which, Stored (transaction ranges storage staged) (ranges which) (new which) := by
  induction parts generalizing staged storage old with
  | nil =>
    cases hstage
    intro which
    rw [hrest which List.not_mem_nil]
    exact hs which
  | cons part parts ih =>
    obtain ⟨hnot, hn'⟩ := List.nodup_cons.1 hn
    simp only [Fram.Worker.stage, List.mapM_cons, ExceptList.bind_eq_ok_iff] at hstage
    obtain ⟨e, ⟨plan, hplan, he⟩, staged', hstage', hall⟩ := hstage
    cases he
    cases hall
    obtain ⟨n, hcount⟩ := Option.isSome_iff_exists.1 (h.loaded part.which)
    have hm := hparts part List.mem_cons_self
    have hfirst : Stored ((ranges part.which).applyTo storage plan) (ranges part.which) (new part.which) := by
      rw [← hm.new_eq]
      refine (hs part.which).applyTo hcount hm.fits hm.low_old ?_ hplan
      rw [hm.new_eq]
      exact hm.agree
    refine @ih staged' _ (Function.update old part.which (new part.which)) hstage' hn' ?_ ?_ ?_
    · intro which
      by_cases he : which = part.which
      · rw [he, Function.update_self]
        exact hfirst
      · rw [Function.update_of_ne he]
        exact h.stored_other he (plansFor hcount hplan) (hs which)
    · intro part' hp'
      have hne : part'.which ≠ part.which := fun he => hnot (he ▸ List.mem_map_of_mem hp')
      rw [Function.update_of_ne hne]
      exact hparts part' (List.mem_cons_of_mem _ hp')
    · intro which hw
      by_cases he : which = part.which
      · rw [he, Function.update_self]
      · rw [Function.update_of_ne he]
        refine hrest which ?_
        intro hmem
        rcases List.mem_cons.1 hmem with h' | h'
        · exact he h'
        · exact hw h'

/-- Settling leaves the prefixes and the chunk sizes. -/
theorem settleAll_keeps (staged : List (Which × Plan)) (which : Which) :
    (settleAll ranges staged which).keyPrefix = (ranges which).keyPrefix ∧
      (settleAll ranges staged which).chunkBytes = (ranges which).chunkBytes ∧
      ((ranges which).chunkCount.isSome → (settleAll ranges staged which).chunkCount.isSome) := by
  induction staged generalizing ranges with
  | nil => exact ⟨rfl, rfl, id⟩
  | cons e staged ih =>
    obtain ⟨h1, h2, h3⟩ := @ih (Function.update ranges e.1 ((ranges e.1).settle e.2))
    by_cases he : which = e.1
    · subst he
      rw [Function.update_self] at h1 h2 h3
      exact ⟨h1, h2, fun _ => h3 rfl⟩
    · rw [Function.update_of_ne he] at h1 h2 h3
      exact ⟨h1, h2, h3⟩

end Commits

/-! ## Runs -/

/-- The commit under way makes, of what landed, what was taken of both objects. -/
structure Flying (ranges : Which → ChunkedRange) (images : Which → HostImage) (landed taken : Which → Bytes) (flight : Flight) :
    Prop where
  staged : stage ranges flight.parts = .ok flight.staged
  nodup : (flight.parts.map Part.which).Nodup
  nonempty : flight.parts ≠ []
  makes : ∀ part ∈ flight.parts, Makes part (landed part.which) (taken part.which)
  rest : ∀ which, which ∉ flight.parts.map Part.which → taken which = landed which
  agrees : ∀ which, (images which).Agrees (taken which)

/-- The world stands for two files: host memory has what they hold, the storage what landed, and host memory differs from what landed,
or from what the commit under way took, only where it says. -/
structure StorageWorld.Keeps (w : StorageWorld) (files : TwoFiles) : Prop where
  ready : Ready w.ranges
  held : ∀ which, (w.images which).content = files.held which
  written : files.written = true ↔ ∃ which, (w.images which).dirty = true
  stored : ∀ which, Stored w.storage (w.ranges which) (files.landed which)
  idle : w.flight = none → files.taken = none ∧ ∀ which, (w.images which).Agrees (files.landed which)
  flying : ∀ flight, w.flight = some flight → ∃ taken, files.taken = some taken ∧ Flying w.ranges w.images files.landed taken flight

section Step

variable {w : StorageWorld} {files : TwoFiles}

/-- Something is written where one object was changed. -/
theorem exists_dirty_update {images : Which → HostImage} {which : Which} {object : HostImage} (hd : object.dirty = true) :
    ∃ other, (Function.update images which object other).dirty = true :=
  ⟨which, by rw [Function.update_self]; exact hd⟩

/-- A change of one object that agrees with whatever the object agreed with, and that the files follow. -/
theorem StorageWorld.Keeps.change (h : w.Keeps files) (which : Which) {object : HostImage} {held : Bytes}
    (ho : ∀ bytes, (w.images which).Agrees bytes → object.Agrees bytes) (hc : object.content = held) (hd : object.dirty = true) :
    ({ w with images := Function.update w.images which object } : StorageWorld).Keeps
      { files with held := Function.update files.held which held, written := true } := by
  have hall : ∀ contents : Which → Bytes, (∀ other, (w.images other).Agrees (contents other)) →
      ∀ other, (Function.update w.images which object other).Agrees (contents other) := by
    intro contents hc other
    by_cases he : other = which
    · subst he
      rw [Function.update_self]
      exact ho _ (hc _)
    · rw [Function.update_of_ne he]
      exact hc other
  refine ⟨h.ready, ?_, ⟨fun _ => exists_dirty_update hd, fun _ => rfl⟩, h.stored, ?_, ?_⟩
  · intro other
    show (Function.update w.images which object other).content = Function.update files.held which held other
    by_cases he : other = which
    · subst he
      rw [Function.update_self, Function.update_self, hc]
    · rw [Function.update_of_ne he, Function.update_of_ne he]
      exact h.held other
  · intro hf
    exact ⟨(h.idle hf).1, hall _ (h.idle hf).2⟩
  · intro flight hf
    obtain ⟨taken, ht, hfly⟩ := h.flying flight hf
    exact ⟨taken, ht, hfly.staged, hfly.nodup, hfly.nonempty, hfly.makes, hfly.rest, hall _ hfly.agrees⟩

theorem StorageWorld.Keeps.append (h : w.Keeps files) (which : Which) (chunk : Bytes) :
    (w.step (.append which chunk)).Keeps (files.step (.append which chunk)) := by
  refine h.change which (fun bytes hb => hb.append chunk) ?_ rfl
  rw [HostImage.content_append, h.held]

theorem StorageWorld.Keeps.truncate (h : w.Keeps files) (which : Which) (length : Nat) :
    (w.step (.truncate which length)).Keeps (files.step (.truncate which length)) := by
  have hlen : (files.held which).length = (w.images which).length := by rw [← h.held, HostImage.length_content]
  by_cases hlt : (w.images which).length < length
  · -- a cut past the end is refused
    have hw : w.step (.truncate which length) = w := by
      show { w with images := Function.update w.images which ((w.images which).truncate length) } = w
      rw [HostImage.truncate, dif_pos hlt, Function.update_eq_self]
    rw [hw, TwoFiles.step, if_pos (hlen ▸ hlt)]
    exact h
  · rw [TwoFiles.step, if_neg (hlen ▸ hlt)]
    refine h.change which (fun bytes hb => hb.truncate length) ?_ ?_
    · rw [HostImage.content_truncate _ (by omega), h.held]
    · rw [HostImage.truncate, dif_neg hlt]

theorem mem_partsOf {images : Which → HostImage} {part : Part} (h : part ∈ partsOf images) : (images part.which).dirty = true ∧
      part = ⟨part.which, (images part.which).bytes, (images part.which).length, (images part.which).takeCommit.1⟩ := by
  obtain ⟨which, hw, rfl⟩ := List.mem_map.1 h
  exact ⟨(List.mem_filter.1 hw).2, rfl⟩

theorem map_which_partsOf (images : Which → HostImage) :
    (partsOf images).map Part.which = [.log, .image].filter fun which => (images which).dirty := by
  simp [partsOf, List.map_map, Function.comp_def]

/-- A commit has no parts where nothing is dirty. -/
theorem partsOf_eq_nil_iff {images : Which → HostImage} : partsOf images = [] ↔ ¬ ∃ which, (images which).dirty = true := by
  rw [partsOf, List.map_eq_nil_iff, List.filter_eq_nil_iff, not_exists]
  constructor
  · intro h which
    cases which with
    | log => exact h .log (by decide)
    | image => exact h .image (by decide)
  · intro h which _
    exact h which

/-- Nothing is dirty once a commit was taken. -/
theorem takeAll_clean (images : Which → HostImage) (which : Which) : (takeAll images which).dirty = false := by
  rw [takeAll]
  split
  · rfl
  · rename_i hd
    exact Bool.eq_false_iff.2 hd

@[simp] theorem content_takeAll (images : Which → HostImage) (which : Which) : (takeAll images which).content = (images which).content := by
  rw [takeAll]
  split <;> rfl

theorem StorageWorld.Keeps.commit (h : w.Keeps files) : (w.step .commit).Keeps (files.step .commit) := by
  show w.commit.Keeps (files.step .commit)
  rw [StorageWorld.commit, TwoFiles.step]
  split
  · -- a commit is under way, or nothing is dirty
    rename_i hidle
    rw [if_neg]
    · exact h
    rintro ⟨htaken, hwritten⟩
    rcases (Bool.or_eq_true _ _).mp hidle with hflight | hparts
    · obtain ⟨flight, hf⟩ := Option.isSome_iff_exists.1 hflight
      obtain ⟨taken, ht, -⟩ := h.flying flight hf
      rw [ht] at htaken
      cases htaken
    · exact partsOf_eq_nil_iff.1 (List.isEmpty_iff.1 hparts) (h.written.1 hwritten)
  · rename_i hidle
    rw [Bool.or_eq_true, not_or] at hidle
    have hf : w.flight = none := Option.not_isSome_iff_eq_none.1 hidle.1
    have hparts : partsOf w.images ≠ [] := fun hnil => hidle.2 (List.isEmpty_iff.2 hnil)
    obtain ⟨htaken, hagrees⟩ := h.idle hf
    have hwritten : files.written = true := h.written.2 (not_not.1 (mt partsOf_eq_nil_iff.2 hparts))
    obtain ⟨staged, hstage⟩ := h.ready.stage (partsOf w.images)
    rw [hstage, if_pos ⟨by rw [htaken]; rfl, hwritten⟩]
    refine ⟨h.ready, ?_, ?_, h.stored, ?_, ?_⟩
    · intro which
      show (takeAll w.images which).content = files.held which
      rw [content_takeAll, h.held]
    · show false = true ↔ ∃ which, (takeAll w.images which).dirty = true
      simp [takeAll_clean]
    · intro hnone
      cases hnone
    · intro flight hflight
      cases hflight
      refine ⟨files.held, rfl, hstage, ?_, hparts, ?_, ?_, ?_⟩
      · show ((partsOf w.images).map Part.which).Nodup
        rw [map_which_partsOf]
        exact List.Nodup.filter _ (by decide)
      · intro part hp
        obtain ⟨hd, he⟩ := mem_partsOf hp
        obtain ⟨⟨h1, h2, h3⟩, -⟩ := (hagrees part.which).takeCommit hd
        rw [he, ← h.held]
        exact ⟨(w.images part.which).fits, rfl, h1, by rw [HostImage.length_content]; exact h2, h3⟩
      · intro which hw
        -- an object that is no part is clean
        have hw' : which ∉ [Which.log, Which.image].filter fun which => (w.images which).dirty := by
          rw [← map_which_partsOf]
          exact hw
        have hclean : ¬ (w.images which).dirty = true := by
          intro hd
          refine hw' (List.mem_filter.2 ⟨?_, hd⟩)
          cases which <;> decide
        rw [← h.held]
        rcases hagrees which with ⟨-, -, hc⟩ | ⟨low, -, hd, -⟩
        · exact hc
        · exact absurd hd hclean
      · intro which
        show (takeAll w.images which).Agrees (files.held which)
        rw [← h.held, takeAll]
        split
        · rename_i hd
          exact ((hagrees which).takeCommit hd).2
        · rename_i hd
          rcases hagrees which with ⟨hl, hc, -⟩ | ⟨low, -, hd', -⟩
          · exact Or.inl ⟨hl, hc, rfl⟩
          · exact absurd hd' hd

theorem StorageWorld.Keeps.land (h : w.Keeps files) : (w.step .land).Keeps (files.step .land) := by
  show w.land.Keeps { files with landed := files.taken.getD files.landed, taken := none }
  cases hf : w.flight with
  | none =>
    rw [StorageWorld.land, hf, (h.idle hf).1]
    exact ⟨h.ready, h.held, h.written, h.stored, fun _ => ⟨rfl, (h.idle hf).2⟩, fun flight hf' => by rw [hf] at hf'; cases hf'⟩
  | some flight =>
    obtain ⟨taken, ht, hfly⟩ := h.flying flight hf
    rw [StorageWorld.land, hf, ht]
    have hstored := h.ready.stored_transaction hfly.staged hfly.nodup h.stored hfly.makes hfly.rest
    refine ⟨⟨?_, ?_⟩, h.held, h.written, ?_, fun _ => ⟨rfl, hfly.agrees⟩, ?_⟩
    · intro which
      rw [(settleAll_keeps _ which).1]
      exact h.ready.keyPrefix which
    · intro which
      exact (settleAll_keeps _ which).2.2 (h.ready.loaded which)
    · intro which
      exact (hstored which).through (settleAll_keeps _ which).1 (settleAll_keeps _ which).2.1
    · intro flight' hf'
      cases hf'

/-- Every part that is restored makes its object agree with what the storage holds; the others agreed with it. -/
theorem agrees_restoreAll {images : Which → HostImage} {parts : List Part} {old new : Which → Bytes}
    (hn : (parts.map Part.which).Nodup) (ha : ∀ which, (images which).Agrees (new which))
    (hparts : ∀ part ∈ parts, Makes part (old part.which) (new part.which))
    (hrest : ∀ which, which ∉ parts.map Part.which → new which = old which) :
    ∀ which, (restoreAll images parts which).Agrees (old which) := by
  induction parts generalizing images new with
  | nil =>
    intro which
    rw [← hrest which List.not_mem_nil]
    exact ha which
  | cons part parts ih =>
    obtain ⟨hnot, hn'⟩ := List.nodup_cons.1 hn
    have hm := hparts part List.mem_cons_self
    refine @ih (Function.update images part.which ((images part.which).restoreCommit part.lowWater))
      (Function.update new part.which (old part.which)) hn' ?_ ?_ ?_
    · intro which
      by_cases he : which = part.which
      · subst he
        rw [Function.update_self, Function.update_self]
        exact (ha _).restoreCommit hm.low_new hm.low_old hm.agree
      · rw [Function.update_of_ne he, Function.update_of_ne he]
        exact ha which
    · intro part' hp'
      have hne : part'.which ≠ part.which := fun he => hnot (he ▸ List.mem_map_of_mem hp')
      rw [Function.update_of_ne hne]
      exact hparts part' (List.mem_cons_of_mem _ hp')
    · intro which hw
      by_cases he : which = part.which
      · subst he
        rw [Function.update_self]
      · rw [Function.update_of_ne he]
        refine hrest which ?_
        intro hmem
        rcases List.mem_cons.1 hmem with h' | h'
        · exact he h'
        · exact hw h'

@[simp] theorem content_restoreAll (images : Which → HostImage) (parts : List Part) (which : Which) :
    (restoreAll images parts which).content = (images which).content := by
  induction parts generalizing images with
  | nil => rfl
  | cons part parts ih =>
    show (restoreAll (Function.update images part.which _) parts which).content = _
    rw [ih]
    by_cases he : which = part.which
    · subst he
      rw [Function.update_self]
      rfl
    · rw [Function.update_of_ne he]

/-- What is dirty stays dirty when a commit is given back. -/
theorem restoreAll_dirty {images : Which → HostImage} {which : Which} (hd : (images which).dirty = true) (parts : List Part) :
    (restoreAll images parts which).dirty = true := by
  induction parts generalizing images with
  | nil => exact hd
  | cons part parts ih =>
    refine @ih (Function.update images part.which ((images part.which).restoreCommit part.lowWater)) ?_
    by_cases he : which = part.which
    · subst he
      rw [Function.update_self]
      rfl
    · rw [Function.update_of_ne he]
      exact hd

/-- Something is dirty once the parts of a commit were given back. -/
theorem exists_dirty_restoreAll (images : Which → HostImage) {parts : List Part} (hne : parts ≠ []) :
    ∃ which, (restoreAll images parts which).dirty = true := by
  obtain ⟨part, parts, rfl⟩ := List.exists_cons_of_ne_nil hne
  refine ⟨part.which, restoreAll_dirty ?_ parts⟩
  show (Function.update images part.which _ part.which).dirty = true
  rw [Function.update_self]
  rfl

theorem StorageWorld.Keeps.reject (h : w.Keeps files) : (w.step .reject).Keeps (files.step .reject) := by
  show w.reject.Keeps { files with written := files.written || files.taken.isSome, taken := none }
  cases hf : w.flight with
  | none =>
    rw [StorageWorld.reject, hf, (h.idle hf).1]
    refine ⟨h.ready, h.held, ?_, h.stored, fun _ => ⟨rfl, (h.idle hf).2⟩, fun flight hf' => by rw [hf] at hf'; cases hf'⟩
    simpa using h.written
  | some flight =>
    obtain ⟨taken, ht, hfly⟩ := h.flying flight hf
    rw [StorageWorld.reject, hf, ht]
    refine ⟨h.ready, ?_, ?_, h.stored, fun _ => ⟨rfl, agrees_restoreAll hfly.nodup hfly.agrees hfly.makes hfly.rest⟩, ?_⟩
    · intro which
      show (restoreAll w.images flight.parts which).content = files.held which
      rw [content_restoreAll, h.held]
    · simpa using exists_dirty_restoreAll w.images hfly.nonempty
    · intro flight' hf'
      cases hf'

/-- A new store over what is stored has its bytes. -/
theorem openObjects_eq (options : StoreOptions) {storage : Storage} {ranges : Which → ChunkedRange} {committed : Which → Bytes}
    (hp : ∀ which, (ranges which).keyPrefix = which.keyPrefix) (hs : ∀ which, Stored storage (ranges which) (committed which)) :
    ∃ loaded images, openObjects options storage = .ok (loaded, images) ∧ Ready loaded ∧
      (∀ which, Stored storage (loaded which) (committed which)) ∧ ∀ which, images which = .fresh (committed which) := by
  obtain ⟨log, hlog, hlogp, hlogc, hlogs⟩ := @Stored.load _ _ (newRange options .log) _ (hs .log) (hp .log).symm
  obtain ⟨image, himage, himagep, himagec, himages⟩ := @Stored.load _ _ (newRange options .image) _ (hs .image) (hp .image).symm
  refine ⟨byWhich log image, byWhich (.fresh (committed .log)) (.fresh (committed .image)), ?_, ⟨?_, ?_⟩, ?_, ?_⟩
  · simp only [openObjects, hlog, himage]
    rfl
  · intro which
    cases which with
    | log => exact hlogp.trans (hp .log)
    | image => exact himagep.trans (hp .image)
  · intro which
    cases which with
    | log => exact hlogc
    | image => exact himagec
  · intro which
    cases which with
    | log => exact hlogs
    | image => exact himages
  · intro which
    cases which with
    | log => rfl
    | image => rfl

/-- Objects that were just loaded hold what was stored, and none of them is dirty. -/
theorem keeps_loaded {files : TwoFiles} {storage : Storage} {ranges : Which → ChunkedRange} {images : Which → HostImage}
    (hready : Ready ranges) (hstored : ∀ which, Stored storage (ranges which) (files.landed which))
    (himages : ∀ which, images which = .fresh (files.landed which)) (htaken : files.taken = none) :
    (⟨storage, ranges, images, none⟩ : StorageWorld).Keeps { files with held := files.landed, written := false } := by
  refine ⟨hready, ?_, ?_, hstored, fun _ => ⟨htaken, ?_⟩, fun flight hf => by cases hf⟩
  · intro which
    show (images which).content = files.landed which
    rw [himages]
    exact List.take_length
  · show false = true ↔ ∃ which, (images which).dirty = true
    simp [himages, HostImage.fresh]
  · intro which
    show (images which).Agrees (files.landed which)
    rw [himages]
    exact HostImage.agrees_fresh _

theorem StorageWorld.Keeps.reload (h : w.Keeps files) (options : StoreOptions) :
    (w.step (.reload options)).Keeps (files.step (.reload options)) := by
  show (w.reload options).Keeps (files.step (.reload options))
  rw [StorageWorld.reload, TwoFiles.step]
  split
  · rename_i hflight
    obtain ⟨flight, hf⟩ := Option.isSome_iff_exists.1 hflight
    obtain ⟨taken, ht, -⟩ := h.flying flight hf
    rw [if_neg (by rw [ht]; exact Bool.false_ne_true)]
    exact h
  · rename_i hidle
    have hf : w.flight = none := Option.not_isSome_iff_eq_none.1 hidle
    have ht := (h.idle hf).1
    obtain ⟨loaded, images, ho, hready, hstored, himages⟩ := openObjects_eq options h.ready.keyPrefix h.stored
    have hkeeps := keeps_loaded hready hstored himages ht
    rw [ho, if_pos (by rw [ht]; rfl)]
    simpa only [hf] using hkeeps

/-- One event. -/
theorem StorageWorld.Keeps.step (h : w.Keeps files) (event : StorageEvent) : (w.step event).Keeps (files.step event) := by
  cases event with
  | append which chunk => exact h.append which chunk
  | truncate which length => exact h.truncate which length
  | commit => exact h.commit
  | land => exact h.land
  | reject => exact h.reject
  | reload options => exact h.reload options

theorem StorageWorld.Keeps.run (h : w.Keeps files) (events : List StorageEvent) :
    (events.foldl StorageWorld.step w).Keeps (events.foldl TwoFiles.step files) := by
  induction events generalizing w files with
  | nil => exact h
  | cons event events ih => exact ih (h.step event)

end Step

/-- A store over an empty storage stands for two empty files. -/
theorem StorageWorld.exists_boot (options : StoreOptions) : ∃ w, StorageWorld.boot options = .ok w ∧ w.Keeps .empty := by
  have hempty : ∀ which, Stored (fun _ => none) (newRange options which) [] := fun which => Or.inl ⟨rfl, rfl⟩
  obtain ⟨loaded, images, ho, hready, hstored, himages⟩ :=
    @openObjects_eq options _ (newRange options) (fun _ => []) (fun which => rfl) hempty
  refine ⟨⟨fun _ => none, loaded, images, none⟩, ?_, @keeps_loaded .empty _ _ _ hready hstored himages rfl⟩
  rw [StorageWorld.boot, ho]
  rfl

/-- **Chunked storage implements two files.** A store over an empty storage opens; after whatever is then appended to the two objects,
truncated, committed, rejected and loaded again under other options, host memory has what two files hold after the same events, and
loading either object, with any chunk size and batch size, gives what the two files held when the last commit that landed took them. -/
theorem storage_loads_commit (options : StoreOptions) : ∃ w, StorageWorld.boot options = .ok w ∧
    ∀ (events : List StorageEvent) (which : Which),
      ((events.foldl StorageWorld.step w).images which).content = (events.foldl TwoFiles.step .empty).held which ∧
      ∀ loader : StoreOptions, ∃ range, (newRange loader which).load (events.foldl StorageWorld.step w).storage =
        .ok (range, (events.foldl TwoFiles.step .empty).landed which) := by
  obtain ⟨w, hboot, hkeeps⟩ := StorageWorld.exists_boot options
  refine ⟨w, hboot, ?_⟩
  intro events which
  have hrun := hkeeps.run events
  refine ⟨hrun.held which, ?_⟩
  intro loader
  obtain ⟨range, hload, -⟩ := @Stored.load _ _ (newRange loader which) _ (hrun.stored which) (hrun.ready.keyPrefix which).symm
  exact ⟨range, hload⟩

end Fram.Worker
