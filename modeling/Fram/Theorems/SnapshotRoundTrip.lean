import Fram.Lemmas.Server
import Fram.Lemmas.WholeImage

/-!
# The round trip of snapshots

An image that is encoded of a store is read back as the rows of the store and the sidecar, unless one of its records is longer than the
reader takes. The reader's limit on a record is the writer's limit on a text, and a record holds six bytes beside its text (53 beside
the name of the space). Stores that are booted from a log stay below it, since a frame of a log has the same limit. Whatever a crash
leaves of the image, and whatever follows in the log, a boot with it and a boot without it answer alike.
-/

namespace Fram

/-! ## Reading an image back -/

/-- **Snapshot acceleration.** A boot with any prefix of an image that a checkpoint made of the store of a log, and a boot without an
image, both fail or both answer the same history and accept the same bytes, whatever follows in the log. Where the log was empty, it is
the header of its boot. -/
theorem boot_with_image (Γ : Host) {path path' configured : String} {bytes image : Bytes} {result : StoreResult} {store : Store}
    (hsize : (bytes ++ result.bootAppend).length < 2 ^ 62)
    (hname : bytes = [] → (utf8Encode configured).length ≤ framlogStreamMaxSpaceBytes) (hi : Imaged Γ configured bytes image)
    (hb : bootStore Γ path configured bytes image = .ok result) (hs : result.store = .ok store)
    (prior : StoreResult) (frame : RpcFrameV2) (request : RpcRequest) (nowMs : Int) (k : Nat) (more : Bytes) :
    (bytes ≠ [] → result.bootAppend = []) ∧ BootsAlike Γ
      (bootStore Γ path' configured (bytes ++ result.bootAppend ++ more)
        ((checkpointResponse prior store frame request nowMs).snapshotBytes.take k))
      (bootStore Γ path' configured (bytes ++ result.bootAppend ++ more) []) := by
  have himage : Imaged Γ configured (bytes ++ result.bootAppend)
      ((checkpointResponse prior store frame request nowMs).snapshotBytes.take k) := .checkpoint hi hname hb hs k
  refine ⟨fun hne => ?_, (himage.bootsTo hsize more path').alike ((Imaged.none _).bootsTo hsize more path')⟩
  have hlt : bytes.length < 2 ^ 62 := by
    rw [List.length_append] at hsize
    omega
  have hboots := hi.bootsTo hlt [] path
  rw [List.append_nil, hb] at hboots
  obtain ⟨spaceId, frames, hlog, -⟩ := hboots.store hs
  exact hlog.append_eq_nil hne

/-- A request for a checkpoint of the space "s". -/
def checkpointRequest : RpcRequest := ⟨"s", ⟨"rpc/checkpoint"⟩, none, none, none, .kw "rpc/unit"⟩

/-- The frame of a request, where its number does not matter. -/
def requestFrame : RpcFrameV2 := ⟨⟨"request"⟩, 0, 0, some checkpointRequest, none⟩

/-- A log of one assertion boots alike without an image and with part of one. -/
theorem boot_with_image_one : ∃ result store,
    bootStore Host.zero "" "s" (logBytes "s" [oneFrame.payload]) [] = .ok result ∧ result.store = .ok store ∧
      BootsAlike Host.zero
        (bootStore Host.zero "" "s" (logBytes "s" [oneFrame.payload] ++ result.bootAppend ++ [0])
          ((checkpointResponse result store requestFrame checkpointRequest 1).snapshotBytes.take 100))
        (bootStore Host.zero "" "s" (logBytes "s" [oneFrame.payload] ++ result.bootAppend ++ [0]) []) := by
  obtain ⟨result, store, hr, hs, -, ha, -⟩ := bootStore_nil_boots (Γ := Host.zero) committedLog_one.boots ""
  have hsize : (logBytes "s" [oneFrame.payload] ++ result.bootAppend).length < 2 ^ 62 := by
    rw [ha]
    decide
  exact ⟨result, store, hr, hs,
    (boot_with_image Host.zero hsize (fun _ => by decide) (.none _) hr hs result requestFrame checkpointRequest 1 100 [0]).2⟩

/-- The boot answers a store. -/
def answersStore (answer : Except Fault StoreResult) : Bool :=
  match answer with
  | .ok result => result.store.isOk
  | .error _ => false

/-- The image that a checkpoint makes of a new store. -/
def newImage : Bytes :=
  match bootStore Host.zero "" "s" [] [] with
  | .error _ => []
  | .ok result =>
    match result.store with
    | .error _ => []
    | .ok store => (checkpointResponse result store requestFrame checkpointRequest 1).snapshotBytes.take 95

set_option maxRecDepth 100000 in
/-- The image of a new store, before its header is in the log, makes up for the header of what follows. -/
theorem boot_with_image_new : ∃ result store, bootStore Host.zero "" "s" [] [] = .ok result ∧ result.store = .ok store ∧
    ¬BootsAlike Host.zero
      (bootStore Host.zero "" "s" ([] ++ List.replicate 17 0)
        ((checkpointResponse result store requestFrame checkpointRequest 1).snapshotBytes.take 95))
      (bootStore Host.zero "" "s" ([] ++ List.replicate 17 0) []) := by
  have hok : answersStore (bootStore Host.zero "" "s" ([] ++ List.replicate 17 0) newImage) = true := by decide +kernel
  have hno : answersStore (bootStore Host.zero "" "s" ([] ++ List.replicate 17 0) []) = false := by decide +kernel
  have hnew : answersStore (bootStore Host.zero "" "s" [] []) = true := by decide +kernel
  cases hr : bootStore Host.zero "" "s" [] [] with
  | error fault =>
    rw [hr] at hnew
    cases hnew
  | ok result =>
    cases hs : result.store with
    | error message =>
      simp only [hr, answersStore, hs] at hnew
      cases hnew
    | ok store =>
      have himage : newImage = (checkpointResponse result store requestFrame checkpointRequest 1).snapshotBytes.take 95 := by
        simp only [newImage, hr, hs]
      refine ⟨result, store, rfl, hs, ?_⟩
      rw [← himage]
      rintro ⟨boot, boot', hb, hb', ⟨message, message', he, he'⟩ | ⟨s, s', he, he', -⟩⟩
      · simp only [answersStore, hb, he] at hok
        cases hok
      · simp only [answersStore, hb', he'] at hno
        cases hno

end Fram
