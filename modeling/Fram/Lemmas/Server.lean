import Fram.Lemmas.Snapshot
import Fram.Lemmas.Rotation
import Fram.Server

/-!
# Booted stores

A boot from the log alone answers a store exactly when the log boots, and the store then holds the frames of the boot
(`foldStore_boots`, `foldStore_fails`). Neither throws.

The images that checkpoints leave beside a log, whole or cut off, and what boots with them answer.
-/

namespace Fram

/-- The session holds the frames of a space, and its rotation covers them. -/
structure SessionFor (Γ : Host) (session : Session) (spaceId : String) (frames : List TransactionFrame) : Prop where
  represents : Represents Γ session.store frames
  space : session.store.spaceId = spaceId
  covers : Covers Γ session.view spaceId frames

/-- The store was booted from a log, all of whose frames it holds. -/
structure StoreFor (Γ : Host) (store : Store) (path spaceId : String) (frames : List TransactionFrame) (logBytes : Nat) : Prop
    extends SessionFor Γ store.session spaceId frames where
  folds : Folds Γ spaceId frames store.session.store
  path : store.canonicalLogPath = path
  count : store.logByteCount = logBytes

section Sessions

variable {Γ : Host} {s : TermStore} {frames : List TransactionFrame}

/-- A session of a store covers its history. -/
theorem newSession_ok (h : Represents Γ s frames) :
    ∃ session, newSession Γ s = .ok session ∧ session.store = s ∧ SessionFor Γ session s.spaceId frames := by
  obtain ⟨r, hr, hc⟩ := project_ok h
  exact ⟨⟨s, r, emptyOrderedResultCache, 0⟩, by simp [newSession, hr, bind, Except.bind], rfl, h, rfl, hc⟩

theorem closeFold_spaceId (s : TermStore) : (closeFold s).spaceId = s.spaceId := by
  rw [closeFold_frame]

/-- What a store holds is its whole history. -/
theorem SessionFor.hasHistory {session : Session} {spaceId : String} (h : SessionFor Γ session spaceId frames) :
    HasHistory Γ session.store spaceId frames := by
  have := h.represents.hasHistory
  rwa [h.space] at this

end Sessions

section Boot

variable {Γ : Host} {path configured report : String} {bytes : Bytes} {spaceId : String} {frames : List TransactionFrame}
  {valid : Nat} {append : Bytes}

/-- A log that boots is folded into a store of its frames. -/
theorem foldStore_boots (h : Boots configured bytes spaceId frames valid append) (path report : String) :
    ∃ store, foldStore Γ path configured bytes report = .ok ⟨.ok store, valid, append, report⟩ ∧
      StoreFor Γ store path spaceId frames (valid + append.length) := by
  obtain ⟨root, hroot, hrep, hs, hfolds⟩ := h.consume (Γ := Γ)
  obtain ⟨session, hsession, hstore, hfor⟩ := newSession_ok hrep.closeFold
  rw [closeFold_spaceId, hs] at hfor
  refine ⟨⟨path, session, valid + append.length⟩, ?_, ⟨hfor, ?_, rfl, rfl⟩⟩
  · simp only [foldStore, hroot, hsession, bind, Except.bind]
  · dsimp only
    rw [hstore]
    exact hfolds.twin (twin_closeFold root)

/-- A log that does not boot is refused. -/
theorem foldStore_fails (h : ∀ spaceId frames valid append, ¬Boots configured bytes spaceId frames valid append)
    (path report : String) : ∃ message, foldStore Γ path configured bytes report = .ok (failedStore message) := by
  obtain ⟨r, hr⟩ := @consumeFramlogHeader_total Γ configured bytes
  cases r with
  | ok stream =>
    obtain ⟨spaceId, frames, root, hb, -⟩ := consumeFramlogHeader_ok hr
    exact absurd hb (h _ _ _ _)
  | error message => exact ⟨message, by simp only [foldStore, hr, bind, Except.bind]⟩

/-- A boot with an empty image folds the log. -/
theorem bootStore_nil (Γ : Host) (path configured : String) (bytes : Bytes) :
    bootStore Γ path configured bytes [] = foldStore Γ path configured bytes (reasonReport (some ⟨"no-image"⟩)) := by
  simp [bootStore, planSnapshotBoot, bootInstallDecision, snapshotReplayDecision, bind, Except.bind]

/-- A log that boots, without an image. -/
theorem bootStore_nil_boots (h : Boots configured bytes spaceId frames valid append) (path : String) :
    ∃ result store, bootStore Γ path configured bytes [] = .ok result ∧ result.store = .ok store ∧
      result.validLogBytes = valid ∧ result.bootAppend = append ∧
      StoreFor Γ store path spaceId frames (valid + append.length) := by
  obtain ⟨store, hf, hfor⟩ := foldStore_boots h path (reasonReport (some ⟨"no-image"⟩))
  exact ⟨_, store, (bootStore_nil ..).trans hf, rfl, rfl, rfl, hfor⟩

/-! ## Boots with an image -/

/-- What a boot of some bytes should answer: a store of the frames when the bytes boot, and a refusal when they do not. -/
def BootsTo (Γ : Host) (path configured : String) (bytes : Bytes) (answer : Except Fault StoreResult) : Prop :=
  (∀ spaceId frames valid append, Boots configured bytes spaceId frames valid append →
    ∃ result store, answer = .ok result ∧ result.store = .ok store ∧ result.validLogBytes = valid ∧ result.bootAppend = append ∧
      StoreFor Γ store path spaceId frames (valid + append.length)) ∧
  ((∀ spaceId frames valid append, ¬Boots configured bytes spaceId frames valid append) → ∃ message, answer = .ok (failedStore message))

theorem bootsTo_foldStore (Γ : Host) (path configured : String) (bytes : Bytes) (report : String) :
    BootsTo Γ path configured bytes (foldStore Γ path configured bytes report) := by
  refine ⟨fun spaceId frames valid append hb => ?_, fun hb => foldStore_fails hb path report⟩
  obtain ⟨store, hf, hfor⟩ := foldStore_boots hb path report
  exact ⟨_, store, hf, rfl, rfl, rfl, hfor⟩

/-- A store that a boot answers is that of bytes that boot. -/
theorem BootsTo.store {result : StoreResult} {store : Store} (h : BootsTo Γ path configured bytes (.ok result))
    (hs : result.store = .ok store) : ∃ spaceId frames, Boots configured bytes spaceId frames result.validLogBytes result.bootAppend ∧
      StoreFor Γ store path spaceId frames (result.validLogBytes + result.bootAppend.length) := by
  by_cases hb : ∃ spaceId frames valid append, Boots configured bytes spaceId frames valid append
  · obtain ⟨spaceId, frames, valid, append, hb⟩ := hb
    obtain ⟨result', store', hr, hs', rfl, rfl, hf⟩ := h.1 _ _ _ _ hb
    obtain rfl : result = result' := Except.ok.inj hr
    obtain rfl : store = store' := Except.ok.inj (hs.symm.trans hs')
    exact ⟨spaceId, frames, hb, hf⟩
  · push Not at hb
    obtain ⟨message, hf⟩ := h.2 hb
    obtain rfl : result = failedStore message := Except.ok.inj hf
    cases hs

/-- A store that a boot without an image answers is that of a log that boots. -/
theorem boots_of_bootStore_nil {result : StoreResult} {store : Store} (h : bootStore Γ path configured bytes [] = .ok result)
    (hs : result.store = .ok store) : ∃ spaceId frames, Boots configured bytes spaceId frames result.validLogBytes result.bootAppend ∧
      StoreFor Γ store path spaceId frames (result.validLogBytes + result.bootAppend.length) := by
  have hb := bootsTo_foldStore Γ path configured bytes (reasonReport (some ⟨"no-image"⟩))
  rw [← bootStore_nil, h] at hb
  exact hb.store hs

/-- The image is a prefix of one that a checkpoint makes of a store of the log. -/
def ImageOf (Γ : Host) (configured : String) (log image : Bytes) : Prop :=
  ∃ spaceId frames valid s sequence stamp encoded k, Boots configured log spaceId frames valid [] ∧ Represents Γ s frames ∧
    Folds Γ spaceId frames s ∧ encodeSnapshot s sequence valid stamp = .ok encoded ∧ image = encoded.bytes.take k

theorem Boots.valid_le {bytes : Bytes} (h : Boots configured bytes spaceId frames valid append) : valid ≤ bytes.length := by
  cases h with
  | new => exact Nat.zero_le _
  | log _ hs =>
    have := hs.le
    rw [List.length_append]
    omega

/-- The store of a log that boots has no more rows than the log has bytes. -/
theorem Boots.measured {s : TermStore} (h : Boots configured bytes spaceId frames valid append) (hf : Folds Γ spaceId frames s) :
    Measured s bytes.length := by
  cases h with
  | new => exact (hf.measured (.nil 1)).mono (by simp)
  | log _ hs =>
    obtain ⟨payloads, hc, rfl, -, -⟩ := hs.chain
    have := hs.le
    refine (hf.measured hc).mono ?_
    rw [List.length_append]
    omega

theorem Represents.nextSequence_eq {s : TermStore} (h : Represents Γ s frames) : s.nextSequence = nextAfter 1 frames := by
  rw [h.advances.last, nextAfter]
  cases frames.getLast? with
  | none => rfl
  | some f => rfl

/-- The log of a boot goes on where the boot stopped. -/
theorem Boots.continues {fs : List TransactionFrame} {n : Nat} (h : Boots configured bytes spaceId frames valid []) {more : Bytes}
    (hs : Scans (nextAfter 1 frames) ((bytes ++ more).drop valid) fs n) :
    Boots configured (bytes ++ more) spaceId (frames ++ fs) (valid + n) [] := by
  generalize ha : ([] : Bytes) = append at h
  cases h with
  | new =>
    have := congrArg List.length ha
    rw [List.length_nil, length_headerBytes] at this
    omega
  | @log _ rest _ m hadm hscan =>
    rw [List.append_assoc, Nat.add_assoc]
    refine .log hadm ((hscan.append_iff more).2 ⟨fs, n, rfl, rfl, ?_⟩)
    rwa [List.append_assoc, List.drop_length_add_append, List.drop_append_of_le_length hscan.le] at hs

/-- A boot installs an image only when all of it is read. -/
theorem planSnapshotBoot_ok {image : Bytes} (hw : ∀ img sidecar, readSnapshot image configured = .ok img →
    img.sidecar = some sidecar → 0 ≤ sidecar.watermark) : ∃ plan, planSnapshotBoot true image bytes configured = .ok plan ∧
      (plan.route = .replay → ∃ img, readSnapshot image configured = .ok img ∧ plan.image = some img) := by
  unfold planSnapshotBoot
  by_cases hne : 0 < image.length
  · simp only [hne, decide_true, if_true, Bool.true_eq_false, if_false]
    cases hread : readSnapshot image configured with
    | error message =>
      refine ⟨_, rfl, fun h => ?_⟩
      cases h
    | ok img =>
      have hreason : ∃ reason, sidecarReason image bytes configured img = .ok reason := by
        unfold sidecarReason
        split
        · exact ⟨_, rfl⟩
        · rename_i sidecar hs
          have hpos := hw img sidecar hread hs
          have htail : ∃ q, tailFirstSequence bytes sidecar.watermark = .ok q := by
            unfold tailFirstSequence
            split
            · exact ⟨_, rfl⟩
            · rw [if_neg (by omega)]
              split
              · exact ⟨_, rfl⟩
              · exact ⟨_, rfl⟩
          obtain ⟨q, hq⟩ := htail
          exact ⟨_, by simp only [hq, bind, Except.bind]; rfl⟩
      obtain ⟨reason, hreason⟩ := hreason
      simp only [bootInstallDecision, Except.isOk, Except.toBool, hreason, bind, Except.bind, Bool.not_true, Bool.false_or,
        Bool.and_true, Bool.true_eq_false, if_false]
      cases snapshotReplayDecision true reason with
      | replay => exact ⟨_, rfl, fun _ => ⟨img, rfl, rfl⟩⟩
      | fold =>
        refine ⟨_, rfl, fun h => ?_⟩
        cases h
  · simp only [hne, decide_false, if_true]
    refine ⟨_, rfl, fun h => ?_⟩
    cases h

/-- **Boots agree.** A boot with a prefix of an image of a prefix of the log answers what the log boots to. -/
theorem ImageOf.bootsTo {image : Bytes} (h : ImageOf Γ configured bytes image) (hsize : bytes.length < 2 ^ 62) (more : Bytes)
    (path : String) : BootsTo Γ path configured (bytes ++ more) (bootStore Γ path configured (bytes ++ more) image) := by
  obtain ⟨spaceId, frames, valid, s, sequence, stamp, encoded, k, hb, hrep, hfolds, henc, rfl⟩ := h
  have hread : ∀ img, readSnapshot (encoded.bytes.take k) configured = .ok img → ∃ sidecar : Sidecar,
      sidecar.watermark = valid ∧
        img = ⟨s.spaceId, s.nextSequence, s.atoms, s.triples, s.transactions, s.operations, some sidecar⟩ := fun img hr =>
    hrep.readSnapshot_encodeSnapshot (hb.measured hfolds) hsize (hb.valid_le.trans_lt hsize) henc hr
  have hmark : ∀ img sidecar, readSnapshot (encoded.bytes.take k) configured = .ok img → img.sidecar = some sidecar →
      0 ≤ sidecar.watermark := fun img sidecar hr hs => by
    obtain ⟨sidecar', hw, rfl⟩ := hread img hr
    cases hs
    omega
  obtain ⟨plan, hplan, hreplay⟩ := @planSnapshotBoot_ok configured (bytes ++ more) _ hmark
  unfold bootStore
  simp only [hplan, bind, Except.bind]
  cases hroute : plan.route with
  | fold => exact bootsTo_foldStore ..
  | replay =>
    obtain ⟨img, hr, himg⟩ := hreplay hroute
    obtain ⟨sidecar, hw, rfl⟩ := hread img hr
    have hspace : s.spaceId ≠ "" := fun he => by
      have := hrep.space
      rw [he] at this
      exact absurd this (by decide)
    obtain ⟨ctx, hctx⟩ := exists_newTermStoreSized hspace 0 0 0
    have hctx : newTermStore s.spaceId = .ok ctx := hctx
    simp only [snapshotStore, himg, hctx, bind, Except.bind]
    split
    · exact bootsTo_foldStore ..
    · rename_i root hroot
      obtain ⟨hroot, htwin⟩ := hrep.installImage hroot
      split
      · exact bootsTo_foldStore ..
      · rename_i tail htail
        have hopen := hroot.openFold
        rw [consumeFramlogFrames, consumeFrames_ok_iff hopen rfl (by simp)] at htail
        obtain ⟨fs, n, hs, rfl⟩ := htail
        rw [hw, Int.toNat_natCast] at hs
        have hnext : (openFold root).nextSequence = nextAfter 1 frames := hopen.nextSequence_eq
        have hall := hb.continues (hnext ▸ hs)
        have happ := hopen.appendFrames hs
        obtain ⟨session, hsession, hstore, hfor⟩ := newSession_ok happ.closeFold
        simp only [hsession]
        refine ⟨fun spaceId' frames' valid' append' hb' => ?_, fun hno => absurd hall (hno _ _ _ _)⟩
        obtain ⟨rfl, rfl, rfl, rfl⟩ := hall.unique hb'
        have hfold := (((hfolds.twin htwin).twin (twin_openFold root)).appendFrames hopen.interned fs).twin (twin_closeFold _)
        rw [hfold.space_eq] at hfor
        refine ⟨_, _, rfl, rfl, by dsimp only; rw [hw, Int.toNat_natCast], rfl, hfor, ?_, rfl, ?_⟩
        · dsimp only
          rw [hstore]
          exact hfold
        · dsimp only
          rw [hw, Int.toNat_natCast, List.length_nil, Nat.add_zero]

end Boot

/-! ## Images -/

section Imaged

variable {Γ : Host} {path configured : String} {bytes image : Bytes}

/-- An image that is found beside a log: none, or what is left of one that a checkpoint made of a store booted from the log, whose
header the boot may have appended, or from a prefix of it. That boot may itself have had an image. -/
inductive Imaged (Γ : Host) (configured : String) : Bytes → Bytes → Prop
  | none (bytes : Bytes) : Imaged Γ configured bytes []
  | checkpoint {bytes image : Bytes} {path : String} {result prior : StoreResult} {store : Store} {frame : RpcFrameV2}
      {request : RpcRequest} {nowMs : Int} (hi : Imaged Γ configured bytes image)
      (hname : bytes = [] → (utf8Encode configured).length ≤ framlogStreamMaxSpaceBytes)
      (hb : bootStore Γ path configured bytes image = .ok result) (hs : result.store = .ok store) (k : Nat) :
      Imaged Γ configured (bytes ++ result.bootAppend)
        ((checkpointResponse prior store frame request nowMs).snapshotBytes.take k)
  | grown {bytes image : Bytes} (hi : Imaged Γ configured bytes image) (more : Bytes) : Imaged Γ configured (bytes ++ more) image

/-- Both boots fail, or both succeed with stores that answer alike and with the same bytes accepted. -/
def BootsAlike (Γ : Host) (answer answer' : Except Fault StoreResult) : Prop :=
  ∃ result result', answer = .ok result ∧ answer' = .ok result' ∧
    ((∃ message message', result.store = .error message ∧ result'.store = .error message') ∨
      ∃ store store', result.store = .ok store ∧ result'.store = .ok store' ∧
        Alike Γ store'.session.store store.session.store ∧ result.validLogBytes = result'.validLogBytes)

/-- Boots that answer what the same bytes boot to are alike. -/
theorem BootsTo.alike {answer answer' : Except Fault StoreResult} (h : BootsTo Γ path configured bytes answer)
    (h' : BootsTo Γ path configured bytes answer') : BootsAlike Γ answer answer' := by
  by_cases hb : ∃ spaceId frames valid append, Boots configured bytes spaceId frames valid append
  · obtain ⟨spaceId, frames, valid, append, hb⟩ := hb
    obtain ⟨result, store, hr, hs, hv, -, hf⟩ := h.1 _ _ _ _ hb
    obtain ⟨result', store', hr', hs', hv', -, hf'⟩ := h'.1 _ _ _ _ hb
    exact ⟨result, result', hr, hr', .inr ⟨store, store', hs, hs',
      (hf'.folds.twins hf.folds).alike hf'.represents hf.represents, hv.trans hv'.symm⟩⟩
  · push Not at hb
    obtain ⟨message, hf⟩ := h.2 hb
    obtain ⟨message', hf'⟩ := h'.2 hb
    exact ⟨_, _, hf, hf', .inl ⟨message, message', rfl, rfl⟩⟩

/-- Only an empty log is booted as a new one. -/
theorem Boots.append_eq_nil {spaceId : String} {frames : List TransactionFrame} {valid : Nat} {append : Bytes}
    (h : Boots configured bytes spaceId frames valid append) (hne : bytes ≠ []) : append = [] := by
  cases h with
  | new => exact absurd rfl hne
  | log => rfl

/-- A log boots alike once the header of its boot is appended to it. -/
theorem Boots.appended {spaceId : String} {frames : List TransactionFrame} {valid : Nat} {append : Bytes}
    (h : Boots configured bytes spaceId frames valid append)
    (hname : bytes = [] → (utf8Encode configured).length ≤ framlogStreamMaxSpaceBytes) :
    Boots configured (bytes ++ append) spaceId frames (valid + append.length) [] := by
  cases h with
  | new hne =>
    have hadm : AdmitsHeader configured configured := ⟨hne, hname rfl, .inr rfl⟩
    have := Boots.log hadm (.torn (.inl (by decide)) : Scans 1 [] [] 0)
    rwa [List.append_nil, Nat.add_zero, ← Nat.zero_add (headerBytes configured).length] at this
  | log hadm hs =>
    rw [List.append_nil]
    exact .log hadm hs

/-- A checkpoint answers an image of its store, or none. -/
theorem checkpointResponse_snapshotBytes (prior : StoreResult) (store : Store) (frame : RpcFrameV2) (request : RpcRequest)
    (nowMs : Int) : (checkpointResponse prior store frame request nowMs).snapshotBytes = [] ∨
      ∃ encoded, encodeSnapshot store.session.store (currentSequence store.session.store) store.logByteCount nowMs = .ok encoded ∧
        (checkpointResponse prior store frame request nowMs).snapshotBytes = encoded.bytes := by
  unfold checkpointResponse
  dsimp only
  split_ifs with h1 h2 h3
  · exact .inl rfl
  · exact .inl rfl
  · exact .inl rfl
  · split
    · exact .inr ⟨_, by assumption, rfl⟩
    · exact .inl rfl

/-- The image of a checkpoint is the image of the log of its store. -/
theorem BootsTo.imageOf {result prior : StoreResult} {store : Store} {frame : RpcFrameV2} {request : RpcRequest} {nowMs : Int}
    (h : BootsTo Γ path configured bytes (.ok result))
    (hname : bytes = [] → (utf8Encode configured).length ≤ framlogStreamMaxSpaceBytes) (hs : result.store = .ok store) (k : Nat) :
    (checkpointResponse prior store frame request nowMs).snapshotBytes.take k = [] ∨ ImageOf Γ configured
      (bytes ++ result.bootAppend) ((checkpointResponse prior store frame request nowMs).snapshotBytes.take k) := by
  obtain ⟨spaceId, frames, hlog, hfor⟩ := h.store hs
  obtain he | ⟨encoded, henc, he⟩ := checkpointResponse_snapshotBytes prior store frame request nowMs
  · exact .inl (by rw [he, List.take_nil])
  · rw [hfor.count] at henc
    exact .inr ⟨spaceId, frames, _, store.session.store, _, nowMs, encoded, k, hlog.appended hname, hfor.represents, hfor.folds, henc,
      by rw [he]⟩

/-- An image beside a log is none, or the image of a prefix of the log. -/
theorem Imaged.imageOf (h : Imaged Γ configured bytes image) (hsize : bytes.length < 2 ^ 62) :
    image = [] ∨ ∃ log more, bytes = log ++ more ∧ ImageOf Γ configured log image := by
  induction h with
  | none => exact .inl rfl
  | grown hi more ih =>
    rw [List.length_append] at hsize
    obtain h | ⟨log, more', rfl, h⟩ := ih (by omega)
    · exact .inl h
    · exact .inr ⟨log, more' ++ more, List.append_assoc .., h⟩
  | @checkpoint bytes image path result prior store frame request nowMs hi hname hb hs k ih =>
    rw [List.length_append] at hsize
    have hboots : BootsTo Γ path configured bytes (.ok result) := by
      obtain rfl | ⟨log, more, rfl, him⟩ := ih (by omega)
      · rw [← hb, bootStore_nil]
        exact bootsTo_foldStore ..
      · rw [List.length_append] at hsize
        rw [← hb]
        exact him.bootsTo (by omega) more path
    exact (hboots.imageOf hname hs k).imp_right fun him => ⟨_, [], (List.append_nil _).symm, him⟩

/-- A boot with an image that is found beside the log answers what the log boots to. -/
theorem Imaged.bootsTo (h : Imaged Γ configured bytes image) (hsize : bytes.length < 2 ^ 62) (more : Bytes) (path : String) :
    BootsTo Γ path configured (bytes ++ more) (bootStore Γ path configured (bytes ++ more) image) := by
  obtain rfl | ⟨log, more', rfl, him⟩ := h.imageOf hsize
  · rw [bootStore_nil]
    exact bootsTo_foldStore ..
  · rw [List.length_append] at hsize
    rw [List.append_assoc]
    exact him.bootsTo (by omega) (more' ++ more) path

end Imaged

end Fram
