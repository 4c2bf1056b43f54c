import Fram.Lemmas.Committed
import Fram.Lemmas.Measure
import Fram.Lemmas.Twin
import Fram.Snapshot

/-!
# What an image holds

The records of an image are framed as the log's frames are. A record within the ranges of its fields is read back from its payload
(`decodeRecord_payload`), an image is its header, a record a row, and a trailer (`encodeSnapshot_ok`), and what is read of an image,
or of any prefix of one, is the whole image (`readSnapshot_take`).
-/

namespace Fram

open Reader LittleEndian

/-! ## Records -/

/-- The bytes of an atom in a record. -/
def Atom.recordBytes : Atom → Bytes
  | .string s => 1 :: sizedText s
  | .int n => 2 :: toBytes 8 (natOfI64 n)
  | .float x => 3 :: toBytes 8 (natOfI64 x.toBits)
  | .bool b => [4, if b then 1 else 0]
  | .keyword k => 5 :: sizedText k.spelling
  | .instant i => 6 :: (toBytes 8 (natOfI64 i.epochSeconds) ++ toBytes 4 i.nanos)

/-- The payload of a record. -/
def Record.payload : Record → Bytes
  | .atom a => 1 :: a.recordBytes
  | .triple row => 2 :: (toBytes 8 (natOfI64 row.t1) ++ (toBytes 8 (natOfI64 row.t2) ++ toBytes 8 (natOfI64 row.t3)))
  | .transaction row =>
    3 :: (toBytes 8 (natOfI64 row.sequence) ++ (toBytes 8 (natOfI64 row.firstOperation) ++ toBytes 8 (natOfI64 row.operationCount)))
  | .operation row =>
    4 :: (toBytes 8 (natOfI64 row.txSequence) ++
      (toBytes 8 (natOfI64 row.ordinal) ++ (row.action.byte :: toBytes 8 (natOfI64 row.tripleHandle))))
  | .trailer s =>
    5 :: (toBytes 8 (natOfI64 s.sequence) ++ (toBytes 8 (natOfI64 s.watermark) ++ (toBytes 4 s.logSet.length ++
      (s.logSet.flatMap sizedText ++ (toBytes 8 (natOfI64 s.imageStart) ++ (toBytes 8 (natOfI64 s.imageEnd) ++
        (toBytes 8 (natOfI64 s.stamp) ++ toBytes 4 s.fingerprint)))))))

/-- The fields of a record are within their ranges. -/
def Record.Sound : Record → Prop
  | .atom a => a.Fits snapshotMaxTextBytes ∧ a.Ranged
  | .triple row => InI64 row.t1 ∧ InI64 row.t2 ∧ InI64 row.t3
  | .transaction row => InI64 row.sequence ∧ InI64 row.firstOperation ∧ InI64 row.operationCount
  | .operation row => InI64 row.txSequence ∧ InI64 row.ordinal ∧ InI64 row.tripleHandle
  | .trailer s =>
    (InI64 s.sequence ∧ InI64 s.watermark ∧ InI64 s.imageStart ∧ InI64 s.imageEnd ∧ InI64 s.stamp) ∧
      s.logSet.length ≤ snapshotMaxLogLabels ∧ (∀ label ∈ s.logSet, (utf8Encode label).length ≤ snapshotMaxTextBytes) ∧
      s.fingerprint < 256 ^ 4

section Reading

theorem takes_readU8 (context : String) (b : UInt8) : Takes (readU8 context) [b] b.toNat :=
  (exact_readU8 context).takes fun _ => ⟨by simp, b.toNat_lt, rfl⟩

theorem takes_readU32Le (context : String) {v : Nat} (h : v < 256 ^ 4) : Takes (readU32Le context) (toBytes 4 v) v :=
  (exact_readLe context 4).takes fun _ => ⟨rfl, h, rfl⟩

theorem takes_readU16Le (context : String) {v : Nat} (h : v < 256 ^ 2) : Takes (readU16Le context) (toBytes 2 v) v :=
  (exact_readLe context 2).takes fun _ => ⟨rfl, h, rfl⟩

theorem takes_readI64Le (context : String) {v : Int} (h : InI64 v) : Takes (readI64Le context) (toBytes 8 (natOfI64 v)) v :=
  (exact_readI64Le context).takes fun _ => ⟨rfl, h, rfl⟩

theorem takes_readSizedText {maximum : Nat} (hm : maximum < 256 ^ 4) (label : String) {s : String}
    (h : (utf8Encode s).length ≤ maximum) : Takes (readSizedText maximum label) (sizedText s) s :=
  (exact_readSizedText hm label).takes fun _ => ⟨rfl, h, rfl⟩

theorem takes_orError {α : Type} (message : String) {read : Read α} {used : Bytes} {a : α} (h : Takes read used a) :
    Takes (orError message read) used a := by
  intro rest n
  rw [orError, h rest n]

theorem snapshotMaxTextBytes_lt : snapshotMaxTextBytes < 256 ^ 4 := by decide

theorem inI64_toBits (x : F64) : InI64 x.toBits := by
  have h := inI64_i64OfNat x.bits.toNat
  unfold i64OfNat at h
  rwa [BitVec.ofNat_toNat, BitVec.setWidth_eq] at h

theorem ofBits_toBits (x : F64) : F64.ofBits x.toBits = x := by
  have h := ofBits_i64OfNat_toNat x
  rwa [← natOfI64_toBits, i64OfNat_natOfI64 (inI64_toBits x)] at h

/-- An atom is read back from its record. -/
theorem takes_decodeAtomRecord {a : Atom} (hf : a.Fits snapshotMaxTextBytes) (hr : a.Ranged) :
    Takes decodeAtomRecord a.recordBytes (.atom a) := by
  have hm := snapshotMaxTextBytes_lt
  unfold decodeAtomRecord
  cases a with
  | string s =>
    refine (takes_orError _ (takes_readU8 _ 1)).bind (v := sizedText s) ?_
    rw [if_pos (by decide)]
    exact (takes_readSizedText hm _ hf).map fun value => Record.atom (.string value)
  | int v =>
    refine (takes_orError _ (takes_readU8 _ 2)).bind (v := toBytes 8 (natOfI64 v)) ?_
    rw [if_neg (by decide), if_pos (by decide)]
    exact (takes_readI64Le _ hr).map fun value => Record.atom (.int value)
  | float x =>
    refine (takes_orError _ (takes_readU8 _ 3)).bind (v := toBytes 8 (natOfI64 x.toBits)) ?_
    rw [if_neg (by decide), if_neg (by decide), if_pos (by decide)]
    have h := (takes_readI64Le "snapshot float atom" (inI64_toBits x)).map fun bits => Record.atom (.float (F64.ofBits bits))
    rwa [ofBits_toBits] at h
  | bool v =>
    refine (takes_orError _ (takes_readU8 _ 4)).bind (v := [if v then 1 else 0]) ?_
    rw [if_neg (by decide), if_neg (by decide), if_neg (by decide), if_pos (by decide)]
    refine (takes_readU8 _ (if v then 1 else 0)).bind (v := []) ?_
    cases v <;> exact takes_pure _
  | keyword k =>
    refine (takes_orError _ (takes_readU8 _ 5)).bind (v := sizedText k.spelling) ?_
    rw [if_neg (by decide), if_neg (by decide), if_neg (by decide), if_neg (by decide), if_pos (by decide)]
    have h := (takes_orError "snapshot keyword atom spelling must be nonempty"
      (takes_readSizedText hm "snapshot keyword atom" hf.2)).bind (f := fun spelling =>
        if spelling = "" then fail "snapshot keyword atom spelling must be nonempty" else pure (Record.atom (.keyword ⟨spelling⟩)))
      (by rw [if_neg hf.1]; exact takes_pure _)
    rwa [List.append_nil] at h
  | instant i =>
    refine (takes_orError _ (takes_readU8 _ 6)).bind (v := toBytes 8 (natOfI64 i.epochSeconds) ++ toBytes 4 i.nanos) ?_
    rw [if_neg (by decide), if_neg (by decide), if_neg (by decide), if_neg (by decide), if_neg (by decide), if_pos (by decide)]
    refine (takes_readI64Le _ hr).bind ?_
    have h := (takes_readU32Le "snapshot instant nanoseconds" (i.canonical.trans (by decide))).bind (f := fun nanos =>
      if h : nanos < 1000000000 then pure (Record.atom (.instant ⟨i.epochSeconds, nanos, h⟩))
      else fail "snapshot instant nanoseconds are outside the range") (by rw [dif_pos i.canonical]; exact takes_pure _)
    rwa [List.append_nil] at h

/-- Labels are read back. -/
theorem takes_readLabels {labels : List String} (h : ∀ label ∈ labels, (utf8Encode label).length ≤ snapshotMaxTextBytes) :
    Takes (readLabels labels.length) (labels.flatMap sizedText) labels := by
  induction labels with
  | nil => exact takes_pure _
  | cons label labels ih =>
    rw [List.forall_mem_cons] at h
    rw [List.flatMap_cons]
    exact (takes_readSizedText snapshotMaxTextBytes_lt _ h.1).bind ((ih h.2).map fun rest => label :: rest)

/-- A record is read back from its payload. -/
theorem decodeRecord_payload {r : Record} (h : r.Sound) : decodeRecord r.payload = .ok r := by
  have finish : ∀ {kind : UInt8} {content : Bytes}, Takes (decodeContent kind) content r →
      decodeRecord (kind :: content) = .ok r := by
    intro kind content ht
    have := ht [] 0
    rw [List.append_nil] at this
    simp [decodeRecord, this]
  cases r with
  | atom a => exact finish (takes_decodeAtomRecord h.1 h.2)
  | triple row =>
    refine finish ?_
    exact (takes_readI64Le _ h.1).bind ((takes_readI64Le _ h.2.1).bind ((takes_readI64Le _ h.2.2).map fun t3 =>
      Record.triple ⟨row.t1, row.t2, t3⟩))
  | transaction row =>
    refine finish ?_
    exact (takes_readI64Le _ h.1).bind ((takes_readI64Le _ h.2.1).bind ((takes_readI64Le _ h.2.2).map fun count =>
      Record.transaction ⟨row.sequence, row.firstOperation, count⟩))
  | operation row =>
    obtain ⟨h1, h2, h3⟩ := h
    refine finish ?_
    have hparts : Takes readOperationParts (toBytes 8 (natOfI64 row.txSequence) ++ (toBytes 8 (natOfI64 row.ordinal) ++
        [row.action.byte])) (row.txSequence, row.ordinal, row.action.byte.toNat) :=
      (takes_readI64Le _ h1).bind ((takes_readI64Le _ h2).bind ((takes_readU8 _ row.action.byte).map fun action =>
        (row.txSequence, row.ordinal, action)))
    have hall : Takes decodeOperationRecord (toBytes 8 (natOfI64 row.txSequence) ++ (toBytes 8 (natOfI64 row.ordinal) ++
        [row.action.byte]) ++ toBytes 8 (natOfI64 row.tripleHandle)) (.operation row) := by
      unfold decodeOperationRecord
      refine (takes_orError "snapshot operation action is unknown" hparts).bind ?_
      obtain ⟨sequence, ordinal, action, handle⟩ := row
      cases action
      · exact (takes_readI64Le _ h3).map fun handle => Record.operation ⟨sequence, ordinal, .assert, handle⟩
      · exact (takes_readI64Le _ h3).map fun handle => Record.operation ⟨sequence, ordinal, .retract, handle⟩
    simpa [decodeContent] using hall
  | trailer s =>
    obtain ⟨⟨h1, h2, h3, h4, h5⟩, hcount, hlabels, hfp⟩ := h
    refine finish ?_
    refine (takes_readI64Le _ h1).bind ((takes_readI64Le _ h2).bind ((takes_readU32Le _ (hcount.trans_lt (by decide))).bind ?_))
    rw [if_neg (by omega)]
    exact (takes_readLabels hlabels).bind ((takes_readI64Le _ h3).bind ((takes_readI64Le _ h4).bind ((takes_readI64Le _ h5).bind
      ((takes_readU32Le _ hfp).map fun fingerprint =>
        Record.trailer ⟨s.sequence, s.watermark, s.logSet, s.imageStart, s.imageEnd, s.stamp, fingerprint⟩))))

end Reading

/-! ## Writing an image -/

/-- The texts of an atom are no longer than a record holds. -/
def Atom.TextFits (maximum : Nat) : Atom → Prop
  | .string s => (utf8Encode s).length ≤ maximum
  | .keyword k => (utf8Encode k.spelling).length ≤ maximum
  | _ => True

/-- The records of the rows of a dump. -/
def TermStoreDump.records (dump : TermStoreDump) : List Record :=
  dump.atoms.map .atom ++ (dump.triples.map .triple ++ (dump.transactions.map .transaction ++ dump.operations.map .operation))

/-- The bytes of an image before its rows. -/
def snapshotHeader (spaceId : String) (nextSequence : Int) : Bytes :=
  snapshotMagic ++ (toBytes 2 snapshotCodecVersion ++ (toBytes 2 snapshotFlags ++ (toBytes 4 (utf8Encode spaceId).length ++
    (utf8Encode spaceId ++ toBytes 8 (natOfI64 nextSequence)))))

section Writing

variable {w : Write} {ok : Nat → Prop} {bytes : Bytes}

/-- A staged record is framed. -/
theorem writes_frameRecord (h : Writes w ok bytes fun n => n) :
    Writes (frameRecord w) (fun _ => ok 0 ∧ bytes.length ≤ 4294967295) (frameBytes bytes) fun n => n := by
  unfold frameRecord
  split
  · rename_i message hw
    refine (writes_error message _ _).congr (fun _ => ?_) rfl fun _ => rfl
    simp only [false_iff, not_and]
    intro ho
    rw [(h.written_eq_ok_iff bytes).2 ⟨ho, rfl⟩] at hw
    cases hw
  · rename_i b hw
    obtain ⟨ho, rfl⟩ := (h.written_eq_ok_iff b).1 hw
    have hcrc : crc32 b < 2 ^ 32 := BitVec.isLt _
    refine ((writes_appendU32Le b.length).bind ((writes_appendBytes b).bind (writes_appendU32Le (crc32 b)))).congr
      (fun _ => ?_) (by simp [frameBytes]) fun _ => rfl
    constructor
    · rintro ⟨⟨-, h1⟩, -⟩
      exact ⟨ho, by omega⟩
    · rintro ⟨-, h1⟩
      exact ⟨⟨by omega, by omega⟩, trivial, by omega, by omega⟩

/-- A sequence of an encoder succeeds exactly when both parts do. -/
theorem encode_bind_eq_ok_iff {α β : Type} {x : StateT Encoder (Except String) α} {f : α → StateT Encoder (Except String) β}
    {e : Encoder} {r : β × Encoder} : (x >>= f) e = .ok r ↔ ∃ a e₁, x e = .ok (a, e₁) ∧ f a e₁ = .ok r := by
  simp only [bind, StateT.bind, Except.bind]
  cases x e with
  | error m => simp
  | ok r => simp [Prod.ext_iff]

/-- A record that declares the length of its payload is framed. -/
theorem writes_appendRecord (h : Writes w ok bytes fun n => n) {size : Nat} (hl : bytes.length = size) :
    Writes (appendRecord size w) (fun n => ok n ∧ size ≤ 4294967295) (frameBytes bytes) fun n => n := by
  subst hl
  have hcrc : crc32 bytes < 2 ^ 32 := BitVec.isLt _
  have hfinish : ∀ (start : Bytes) (n : Nat) e', finishRecord start.length bytes.length ⟨start ++ bytes, n⟩ = .ok ((), e') ↔
      e' = ⟨start ++ bytes ++ toBytes 4 (crc32 bytes), n⟩ := by
    intro start n e'
    unfold finishRecord
    rw [if_neg (by simp), List.drop_left, writes_appendU32Le (crc32 bytes)]
    exact ⟨fun he => by simpa using he.2, fun he => ⟨⟨by omega, by omega⟩, by simpa using he⟩⟩
  intro e e'
  unfold appendRecord
  simp only [encode_bind_eq_ok_iff, writes_appendU32Le (bytes.length : Int) e]
  constructor
  · rintro ⟨_, e₁, ⟨⟨-, h1⟩, rfl⟩, start, e₂, hs, _, e₃, hw, hf⟩
    cases hs
    obtain ⟨ho, rfl⟩ := (h _ e₃).1 hw
    rw [hfinish] at hf
    exact ⟨⟨ho, by omega⟩, by rw [hf]; simp [frameBytes]⟩
  · rintro ⟨⟨ho, h1⟩, rfl⟩
    refine ⟨(), _, ⟨⟨by omega, by omega⟩, rfl⟩, _, _, rfl, (), _, (h _ _).2 ⟨ho, rfl⟩, ?_⟩
    rw [hfinish]
    simp [frameBytes]

/-- Rows are written one after another. -/
theorem writes_forM {α : Type} {rows : List α} {write : α → Write} {fits : α → Prop} {bytesOf : α → Bytes}
    (h : ∀ row, Writes (write row) (fun _ => fits row) (bytesOf row) fun n => n) :
    Writes (rows.forM write) (fun _ => ∀ row ∈ rows, fits row) (rows.flatMap bytesOf) fun n => n := by
  induction rows with
  | nil => exact writes_pure.congr (fun _ => by simp) rfl fun _ => rfl
  | cons row rows ih =>
    exact ((h row).bind ih).congr (fun _ => by simp) (by simp) fun _ => rfl

theorem writes_appendTextAtomRecord (kind : UInt8) (text label : String) :
    Writes (appendTextAtomRecord kind text label) (fun _ => (utf8Encode text).length ≤ snapshotMaxTextBytes)
      (frameBytes (1 :: kind :: sizedText text)) fun n => n := by
  have hm : snapshotMaxTextBytes = 1048576 := rfl
  unfold appendTextAtomRecord
  dsimp only
  split
  · rename_i h
    exact (writes_error _ _ _).congr (fun _ => by simp; omega) rfl fun _ => rfl
  · rename_i h
    have hp := ((writes_appendBytes [1, kind]).bind ((writes_appendU32Le (utf8Encode text).length).bind
      (writes_appendBytes (utf8Encode text))))
    refine (writes_appendRecord hp (by simp; omega)).congr (fun _ => ?_) (by simp [sizedText]) fun _ => rfl
    constructor
    · intro
      omega
    · intro
      exact ⟨⟨trivial, ⟨by omega, by omega⟩, trivial⟩, by omega⟩

theorem writes_appendAtomRecord (a : Atom) : Writes (appendAtomRecord a) (fun _ => a.TextFits snapshotMaxTextBytes)
    (frameBytes (Record.atom a).payload) fun n => n := by
  cases a with
  | string s => exact writes_appendTextAtomRecord 1 s _
  | keyword k => exact writes_appendTextAtomRecord 5 k.spelling _
  | int v =>
    exact (writes_appendRecord ((writes_appendBytes [1, 2]).bind (writes_appendI64Le v)) (by simp)).congr
      (fun _ => by simp [Atom.TextFits]) rfl fun _ => rfl
  | float x =>
    exact (writes_appendRecord ((writes_appendBytes [1, 3]).bind (writes_appendI64Le x.toBits)) (by simp)).congr
      (fun _ => by simp [Atom.TextFits]) rfl fun _ => rfl
  | bool v =>
    exact (writes_appendRecord (writes_appendBytes [1, 4, if v then 1 else 0]) (by simp)).congr
      (fun _ => by simp [Atom.TextFits]) rfl fun _ => rfl
  | instant i =>
    have := i.canonical
    exact (writes_appendRecord ((writes_appendBytes [1, 6]).bind ((writes_appendI64Le i.epochSeconds).bind
      (writes_appendU32Le i.nanos))) (by simp)).congr (fun _ => by simp [Atom.TextFits]; omega) rfl fun _ => rfl

theorem writes_appendTripleRecord (row : TripleRow) :
    Writes (appendTripleRecord row) (fun _ => True) (frameBytes (Record.triple row).payload) fun n => n :=
  (writes_appendRecord ((writes_appendBytes [2]).bind ((writes_appendI64Le row.t1).bind ((writes_appendI64Le row.t2).bind
    (writes_appendI64Le row.t3)))) (by simp)).congr (fun _ => by simp) rfl fun _ => rfl

theorem writes_appendTransactionRecord (row : TransactionRow) :
    Writes (appendTransactionRecord row) (fun _ => True) (frameBytes (Record.transaction row).payload) fun n => n :=
  (writes_appendRecord ((writes_appendBytes [3]).bind ((writes_appendI64Le row.sequence).bind
    ((writes_appendI64Le row.firstOperation).bind (writes_appendI64Le row.operationCount)))) (by simp)).congr
      (fun _ => by simp) rfl fun _ => rfl

theorem writes_appendOperationRecord (row : OperationRow) :
    Writes (appendOperationRecord row) (fun _ => True) (frameBytes (Record.operation row).payload) fun n => n := by
  obtain ⟨sequence, ordinal, action, handle⟩ := row
  cases action <;>
  exact (writes_appendRecord ((writes_appendBytes [4]).bind ((writes_appendI64Le sequence).bind ((writes_appendI64Le ordinal).bind
    ((writes_appendBytes _).bind (writes_appendI64Le handle))))) (by simp)).congr (fun _ => by simp) rfl fun _ => rfl

/-- The rows of a dump are written a record a row. -/
theorem writes_appendRowRecords (dump : TermStoreDump) :
    Writes (appendRowRecords dump) (fun _ => ∀ a ∈ dump.atoms, a.TextFits snapshotMaxTextBytes)
      (framesBytes (dump.records.map (·.payload))) fun n => n := by
  refine ((writes_forM writes_appendAtomRecord).bind ((writes_forM writes_appendTripleRecord).bind
    ((writes_forM writes_appendTransactionRecord).bind (writes_forM writes_appendOperationRecord)))).congr (fun _ => by simp) ?_
      fun _ => rfl
  simp [framesBytes, TermStoreDump.records, List.flatMap_map]

/-- The trailer is written when its labels and counts fit. -/
theorem writes_appendTrailerRecord (sidecar : Sidecar) :
    Writes (appendTrailerRecord sidecar) (fun _ => (sidecar.logSet.length ≤ 4294967295 ∧
        (∀ label ∈ sidecar.logSet, (utf8Encode label).length ≤ snapshotMaxTextBytes) ∧ sidecar.fingerprint ≤ 4294967295) ∧
        (Record.trailer sidecar).payload.length ≤ 4294967295)
      (frameBytes (Record.trailer sidecar).payload) fun n => n := by
  have hlabels : Writes (sidecar.logSet.forM fun label => appendSizedText label snapshotMaxTextBytes "snapshot log label")
      (fun _ => ∀ label ∈ sidecar.logSet, (utf8Encode label).length ≤ snapshotMaxTextBytes) (sidecar.logSet.flatMap sizedText)
      fun n => n := writes_forM fun label => writes_appendSizedText label (by decide) _
  have hp := ((writes_appendBytes [5]).bind ((writes_appendI64Le sidecar.sequence).bind ((writes_appendI64Le sidecar.watermark).bind
    ((writes_appendU32Le sidecar.logSet.length).bind (hlabels.bind ((writes_appendI64Le sidecar.imageStart).bind
      ((writes_appendI64Le sidecar.imageEnd).bind ((writes_appendI64Le sidecar.stamp).bind (writes_appendU32Le sidecar.fingerprint)))))))))
  refine (writes_frameRecord hp).congr (fun _ => ?_) ?_ fun _ => rfl
  · simp only [Record.payload, true_and, Int.toNat_natCast, List.singleton_append]
    constructor
    · rintro ⟨⟨⟨-, h1⟩, h2, -, h3⟩, h4⟩
      exact ⟨⟨by omega, h2, by omega⟩, h4⟩
    · rintro ⟨⟨h1, h2, h3⟩, h4⟩
      exact ⟨⟨⟨by omega, by omega⟩, h2, by omega, by omega⟩, h4⟩
  · simp [Record.payload]

theorem writes_appendSnapshotHeader (dump : TermStoreDump) :
    Writes (appendSnapshotHeader dump) (fun _ => (utf8Encode dump.spaceId).length ≤ snapshotMaxTextBytes)
      (snapshotHeader dump.spaceId dump.nextSequence) fun n => n := by
  have hm : snapshotMaxTextBytes = 1048576 := rfl
  unfold appendSnapshotHeader
  dsimp only
  split
  · rename_i h
    exact (writes_error _ _ _).congr (fun _ => by simp; omega) rfl fun _ => rfl
  · rename_i h
    refine ((writes_appendBytes snapshotMagic).bind ((writes_appendBytes (toBytes 2 snapshotCodecVersion)).bind
      ((writes_appendBytes (toBytes 2 snapshotFlags)).bind ((writes_appendU32Le (utf8Encode dump.spaceId).length).bind
        ((writes_appendBytes (utf8Encode dump.spaceId)).bind (writes_appendI64Le dump.nextSequence)))))).congr
      (fun _ => ?_) (by simp [snapshotHeader]) fun _ => rfl
    constructor
    · intro
      omega
    · intro
      exact ⟨trivial, trivial, trivial, ⟨by omega, by omega⟩, trivial, trivial⟩

/-- The bytes of an image: its header, the records of its rows, and the trailer. -/
theorem encodeSnapshot_ok {s : TermStore} {snapshotSequence watermark stamp : Int} {encoded : SnapshotBytes}
    (h : encodeSnapshot s snapshotSequence watermark stamp = .ok encoded) :
    (0 ≤ snapshotSequence ∧ 0 ≤ watermark) ∧ s.spaceId ≠ "" ∧ (utf8Encode s.spaceId).length ≤ snapshotMaxTextBytes ∧
      (∀ a ∈ s.atoms, a.TextFits snapshotMaxTextBytes) ∧ ∃ sidecar : Sidecar, sidecar.sequence = snapshotSequence ∧
        sidecar.watermark = watermark ∧ sidecar.logSet = [s.spaceId] ∧ sidecar.stamp = stamp ∧ sidecar.fingerprint < 256 ^ 4 ∧
        (Record.trailer sidecar).payload.length ≤ 4294967295 ∧
        encoded.bytes = snapshotHeader s.spaceId s.nextSequence ++
          (framesBytes ((dumpTermStore s).records.map (·.payload)) ++ frameBytes (Record.trailer sidecar).payload) := by
  unfold encodeSnapshot at h
  dsimp only at h
  split at h
  · cases h
  · rename_i hne
    split at h
    · cases h
    · rename_i hneg
      split at h
      · cases h
      · rename_i fingerprint e hw
        cases h
        unfold appendSnapshot at hw
        simp only [encode_bind_eq_ok_iff] at hw
        obtain ⟨_, e₁, h1, start, e₂, h2, _, e₃, h3, stop, e₄, h4, now, e₅, h5, _, e₆, h6, h7⟩ := hw
        obtain ⟨hspace, rfl⟩ := (writes_appendSnapshotHeader _ _ _).1 h1
        cases h2
        obtain ⟨hrows, rfl⟩ := (writes_appendRowRecords _ _ _).1 h3
        cases h4
        cases h5
        obtain ⟨⟨⟨-, -, hfp⟩, hlen⟩, rfl⟩ := (writes_appendTrailerRecord _ _ _).1 h6
        cases h7
        refine ⟨by omega, fun he => hne (length_pos_iff_ne_empty.2 he), hspace, hrows, _, rfl, rfl, rfl, rfl, ?_, hlen, ?_⟩
        · dsimp only at hfp ⊢
          omega
        · simp [dumpTermStore]

end Writing

/-! ## Reading an image -/

/-- The image with the content of one more record. -/
def Image.add (image : Image) : Record → Image
  | .atom row => { image with atoms := image.atoms ++ [row] }
  | .triple row => { image with triples := image.triples ++ [row] }
  | .transaction row => { image with transactions := image.transactions ++ [row] }
  | .operation row => { image with operations := image.operations ++ [row] }
  | .trailer sidecar => { image with sidecar := some sidecar }

/-- The record is the last of an image. -/
def Record.IsTrailer : Record → Prop
  | .trailer _ => True
  | _ => False

section Images

variable {image image' : Image} {fuel k : Nat}

/-- A record that is read from a prefix of an image is whole, and reading goes on after it. -/
theorem readRecords_frame {r : Record} (hs : r.Sound) (hl : r.payload.length ≤ 4294967295) {more : Bytes}
    (h : readRecords (fuel + 1) image ((frameBytes r.payload ++ more).take k) = .ok image') :
    r.payload.length + 8 ≤ k ∧ (r.IsTrailer → image' = image.add r) ∧
      (¬r.IsTrailer → readRecords fuel (image.add r) (more.take (k - (r.payload.length + 8))) = .ok image') := by
  unfold readRecords at h
  split at h
  · cases h
  · rename_i h8
    rw [not_lt, List.length_take] at h8
    have hword : u32LeAt ((frameBytes r.payload ++ more).take k) 0 = r.payload.length := by
      rw [← u32LeAt_frameBytes (by omega : r.payload.length < 256 ^ 4) more]
      unfold u32LeAt
      rw [List.drop_zero, List.drop_zero, List.take_take, min_eq_left (by omega)]
    rw [hword] at h
    dsimp only at h
    split at h
    · cases h
    · split at h
      · cases h
      · rename_i hfit
        rw [not_lt, List.length_take, List.length_append, length_frameBytes] at hfit
        have hk : r.payload.length + 8 ≤ k := by omega
        have htake : (frameBytes r.payload ++ more).take k =
            frameBytes r.payload ++ more.take (k - (r.payload.length + 8)) := by
          rw [List.take_append, length_frameBytes, List.take_of_length_le (by rw [length_frameBytes]; omega)]
        obtain ⟨h1, h2, h3⟩ := frameBytes_parts r.payload (more.take (k - (r.payload.length + 8)))
        rw [htake, h1, h2, h3, if_neg (by simp), decodeRecord_payload hs] at h
        refine ⟨hk, ?_⟩
        cases r with
        | trailer sidecar =>
          dsimp only at h
          split at h
          · cases h
          · cases h
            exact ⟨fun _ => rfl, fun hn => absurd trivial hn⟩
        | atom row => exact ⟨fun hn => hn.elim, fun _ => h⟩
        | triple row => exact ⟨fun hn => hn.elim, fun _ => h⟩
        | transaction row => exact ⟨fun hn => hn.elim, fun _ => h⟩
        | operation row => exact ⟨fun hn => hn.elim, fun _ => h⟩

/-- The records that are read from a prefix of rows and their trailer are all of them. -/
theorem readRecords_take {rows : List Record} (hr : ∀ r ∈ rows, r.Sound ∧ r.payload.length ≤ 4294967295 ∧ ¬r.IsTrailer)
    {sidecar : Sidecar} (hs : (Record.trailer sidecar).Sound) (hl : (Record.trailer sidecar).payload.length ≤ 4294967295)
    (h : readRecords fuel image ((framesBytes (rows.map (·.payload)) ++ frameBytes (Record.trailer sidecar).payload).take k) = .ok image') :
    (framesBytes (rows.map (·.payload)) ++ frameBytes (Record.trailer sidecar).payload).length ≤ k ∧
      image' = (rows.foldl Image.add image).add (.trailer sidecar) := by
  induction rows generalizing image fuel k with
  | nil =>
    cases fuel with
    | zero => cases h
    | succ fuel =>
      rw [List.map_nil, framesBytes_nil, List.nil_append, ← List.append_nil (frameBytes _)] at h
      obtain ⟨hk, ht, -⟩ := readRecords_frame hs hl h
      exact ⟨by simpa using hk, ht trivial⟩
  | cons r rows ih =>
    rw [List.forall_mem_cons] at hr
    cases fuel with
    | zero => cases h
    | succ fuel =>
      rw [List.map_cons, framesBytes_cons, List.append_assoc] at h
      obtain ⟨hk, -, hn⟩ := readRecords_frame hr.1.1 hr.1.2.1 h
      obtain ⟨hk', he⟩ := ih hr.2 (hn hr.1.2.2)
      refine ⟨?_, he⟩
      rw [List.map_cons, framesBytes_cons, List.append_assoc, List.length_append, length_frameBytes]
      omega

/-- The rows of a dump, added to an image. -/
theorem foldl_add_records (dump : TermStoreDump) (image : Image) : dump.records.foldl Image.add image = { image with
    atoms := image.atoms ++ dump.atoms, triples := image.triples ++ dump.triples
    transactions := image.transactions ++ dump.transactions, operations := image.operations ++ dump.operations } := by
  have hrows : ∀ {α : Type} (record : α → Record) (added : Image → List α → Image), (∀ image, added image [] = image) →
      (∀ image row rows, added (image.add (record row)) rows = added image (row :: rows)) → ∀ rows image,
        (rows.map record).foldl Image.add image = added image rows := by
    intro α record added hnil hcons rows
    induction rows with
    | nil => exact fun image => (hnil image).symm
    | cons row rows ih => exact fun image => (ih _).trans (hcons image row rows)
  simp only [TermStoreDump.records, List.foldl_append,
    hrows Record.atom (fun image rows => { image with atoms := image.atoms ++ rows }) (by simp) (by simp [Image.add]),
    hrows Record.triple (fun image rows => { image with triples := image.triples ++ rows }) (by simp) (by simp [Image.add]),
    hrows Record.transaction (fun image rows => { image with transactions := image.transactions ++ rows }) (by simp) (by simp [Image.add]),
    hrows Record.operation (fun image rows => { image with operations := image.operations ++ rows }) (by simp) (by simp [Image.add])]

theorem exact_readSnapshotSpace (spaceLength : Nat) : Exact (readSnapshotSpace spaceLength) fun n r used n' =>
    used = utf8Encode r.1 ++ toBytes 8 (natOfI64 r.2) ∧ (utf8Encode r.1).length = spaceLength ∧ InI64 r.2 ∧ n' = n := by
  refine ((exact_readUtf8 spaceLength _).bind fun spaceId => (exact_readI64Le _).bind fun nextSequence =>
    exact_pure (spaceId, nextSequence)).congr fun n r used n' => ?_
  constructor
  · rintro ⟨spaceId, u, v, m, rfl, ⟨rfl, hl, rfl⟩, nextSequence, u', v', m', rfl, ⟨rfl, hn, rfl⟩, rfl, rfl, rfl⟩
    exact ⟨by simp, hl, hn, rfl⟩
  · rintro ⟨rfl, hl, hn, rfl⟩
    exact ⟨r.1, _, _, _, rfl, ⟨rfl, hl, rfl⟩, r.2, _, [], _, (List.append_nil _).symm, ⟨rfl, hn, rfl⟩, rfl, rfl, rfl⟩

theorem takes_readSnapshotVersion {size : Nat} (h : size < 256 ^ 4) : Takes readSnapshotVersion
    (toBytes 2 snapshotCodecVersion ++ (toBytes 2 snapshotFlags ++ toBytes 4 size)) (snapshotCodecVersion, snapshotFlags, size) :=
  (takes_readU16Le _ (by decide)).bind ((takes_readU16Le _ (by decide)).bind ((takes_readU32Le _ h).map fun size =>
    (snapshotCodecVersion, snapshotFlags, size)))

/-- What is read from a prefix of an image is the whole image. -/
theorem readSnapshot_take {spaceId configured : String} {nextSequence : Int} (hsize : (utf8Encode spaceId).length ≤ snapshotMaxTextBytes)
    (hnext : InI64 nextSequence) {rows : List Record}
    (hr : ∀ r ∈ rows, r.Sound ∧ r.payload.length ≤ 4294967295 ∧ ¬r.IsTrailer) {sidecar : Sidecar}
    (hs : (Record.trailer sidecar).Sound) (hl : (Record.trailer sidecar).payload.length ≤ 4294967295)
    (h : readSnapshot ((snapshotHeader spaceId nextSequence ++
      (framesBytes (rows.map (·.payload)) ++ frameBytes (Record.trailer sidecar).payload)).take k) configured = .ok image) :
    (snapshotHeader spaceId nextSequence ++
        (framesBytes (rows.map (·.payload)) ++ frameBytes (Record.trailer sidecar).payload)).length ≤ k ∧
      image = (rows.foldl Image.add ⟨spaceId, nextSequence, [], [], [], [], none⟩).add (.trailer sidecar) := by
  have hm := snapshotMaxTextBytes_lt
  generalize hbody : framesBytes (rows.map (·.payload)) ++ frameBytes (Record.trailer sidecar).payload = body at h ⊢
  unfold readSnapshot at h
  split at h
  · cases h
  · rename_i h28
    split at h
    · cases h
    · rw [not_lt, List.length_take] at h28
      have hfixed : snapshotHeaderFixedBytes = 28 := rfl
      -- The bytes from the version on, of which the first eight are whole.
      have hdrop : ((snapshotHeader spaceId nextSequence ++ body).take k).drop 16 =
          (toBytes 2 snapshotCodecVersion ++ (toBytes 2 snapshotFlags ++ toBytes 4 (utf8Encode spaceId).length)) ++
            (utf8Encode spaceId ++ (toBytes 8 (natOfI64 nextSequence) ++ body)).take (k - 24) := by
        have hall : snapshotHeader spaceId nextSequence ++ body = snapshotMagic ++ ((toBytes 2 snapshotCodecVersion ++
            (toBytes 2 snapshotFlags ++ toBytes 4 (utf8Encode spaceId).length)) ++
              (utf8Encode spaceId ++ (toBytes 8 (natOfI64 nextSequence) ++ body))) := by simp [snapshotHeader]
        rw [List.drop_take, hall, List.drop_left' (show snapshotMagic.length = 16 from rfl), List.take_append,
          List.take_of_length_le (by simp; omega)]
        congr 2
      rw [hdrop] at h
      simp only [takes_readSnapshotVersion (hsize.trans_lt hm) _ 0, bind, Except.bind] at h
      split at h
      · cases h
      · split at h
        · cases h
        · split at h
          · cases h
          · rename_i r hspace
            obtain ⟨⟨spaceId', nextSequence'⟩, rest, n⟩ := r
            obtain ⟨used, hu, rfl, hlen, hn, rfl⟩ := (exact_readSnapshotSpace _ _ _ _).1 hspace
            dsimp only at h hu hlen hn
            have hk : (utf8Encode spaceId).length + 8 ≤ k - 24 := by
              have := congrArg List.length hu
              simp only [List.length_take, List.length_append, length_toBytes] at this
              omega
            rw [List.take_append, List.take_of_length_le (by omega), List.take_append,
              List.take_of_length_le (by rw [length_toBytes]; omega), List.append_assoc] at hu
            obtain ⟨hname, htail⟩ := List.append_inj hu hlen.symm
            obtain ⟨hseq, rfl⟩ := List.append_inj htail (by simp)
            obtain rfl := utf8Encode_injective hname
            have hseq' : natOfI64 nextSequence = natOfI64 nextSequence' := by
              have := congrArg ofBytes hseq
              rwa [ofBytes_toBytes_of_lt (natOfI64_lt _), ofBytes_toBytes_of_lt (natOfI64_lt _)] at this
            obtain rfl : nextSequence = nextSequence' := by
              rw [← i64OfNat_natOfI64 hnext, hseq', i64OfNat_natOfI64 hn]
            split at h
            · cases h
            · split at h
              · cases h
              · rw [← hbody] at h
                obtain ⟨htotal, he⟩ := readRecords_take hr hs hl h
                refine ⟨?_, he⟩
                rw [hbody, length_toBytes] at htotal
                simp only [List.length_append, snapshotHeader, length_toBytes]
                have : snapshotMagic.length = 16 := rfl
                omega

end Images

end Fram

/-!
## The image of a store

The image that is encoded of a store that holds a history is read back as the rows of the store and the byte count of its log
(`readSnapshot_encodeSnapshot`), and what is installed of it is a twin of the store (`Represents.installImage`).
-/

namespace Fram

open LittleEndian

section Images

variable {Γ : Host} {s : TermStore} {frames : List TransactionFrame} {n : Nat}

/-- A keyword of a record that fits has a spelling. -/
theorem Atom.fits_of_textFits {a : Atom} {m k : Nat} (h : a.Fits m) (ht : a.TextFits k) : a.Fits k := by
  cases a with
  | string s => exact ht
  | keyword k => exact ⟨h.1, ht⟩
  | _ => trivial

theorem Atom.length_recordBytes {a : Atom} (h : a.TextFits snapshotMaxTextBytes) : a.recordBytes.length ≤ 1048581 := by
  have hm : snapshotMaxTextBytes = 1048576 := rfl
  cases a with
  | string s =>
    simp only [Atom.TextFits] at h
    simp only [Atom.recordBytes, sizedText, List.length_cons, List.length_append, length_toBytes]
    omega
  | keyword k =>
    simp only [Atom.TextFits] at h
    simp only [Atom.recordBytes, sizedText, List.length_cons, List.length_append, length_toBytes]
    omega
  | _ => simp [Atom.recordBytes]

/-- The operation rows of a store that holds a history are within the ranges of their fields. -/
theorem Represents.operationRow_sound (h : Represents Γ s frames) (hterms : s.atoms.length + s.triples.length < 2 ^ 62)
    (hops : s.operations.length < 2 ^ 62) (hseq : s.nextSequence ≤ maxTransactionSequence + 1) {row : OperationRow}
    (hr : row ∈ s.operations) : (Record.operation row).Sound := by
  obtain ⟨i, hi, rfl⟩ := List.getElem_of_mem hr
  have hlen := h.rows.length_eq
  obtain ⟨row', hrow', hf⟩ := h.row (List.getElem?_eq_getElem (hlen ▸ hi))
  rw [List.getElem?_eq_getElem hi, Option.some.injEq] at hrow'
  subst hrow'
  have hm' := List.getElem_mem (hlen ▸ hi : i < (logOf frames).length)
  obtain ⟨f, hf', he⟩ := List.mem_flatMap.1 hm'
  obtain ⟨p, hp, -⟩ := hf.proposition
  have h1 := h.advances.lower f hf'
  have h2 := h.advances.upper f hf'
  have h4 := ordinal_of_mem_loggedFrom he
  have h5 : f.operations.length ≤ (logOf frames).length := by
    have hsub : f.logged.Sublist (frames.map (·.logged)).flatten := List.sublist_flatten_of_mem (List.mem_map_of_mem hf')
    have := hsub.length_le
    rwa [← List.flatMap_def, TransactionFrame.logged, length_loggedFrom] at this
  have h7 : maxTransactionSequence = 9223372036854775806 := rfl
  refine ⟨?_, ?_, inI64_of_validPrior hp.validPrior (by omega)⟩
  · rw [hf.sequence, sequence_of_mem_loggedFrom he]
    exact inI64_of_lt (by omega) (by omega)
  · rw [hf.ordinal]
    exact inI64_of_lt (by omega) (by omega)

/-- The records of a store that holds a history are those of its atoms, and records within the ranges of their fields. -/
theorem Represents.records_sound_or (h : Represents Γ s frames) (hterms : s.atoms.length + s.triples.length < 2 ^ 62)
    (hops : s.operations.length < 2 ^ 62) (hseq : s.nextSequence ≤ maxTransactionSequence + 1) {r : Record}
    (hr : r ∈ (dumpTermStore s).records) :
    (∃ a ∈ s.atoms, r = .atom a) ∨ (r.Sound ∧ r.payload.length ≤ 26 ∧ ¬r.IsTrailer ∧ ∀ a, r ≠ .atom a) := by
  simp only [TermStoreDump.records, dumpTermStore, List.mem_append, List.mem_map] at hr
  rcases hr with ⟨a, ha, rfl⟩ | ⟨row, hrow, rfl⟩ | ⟨row, hrow, rfl⟩ | ⟨row, hrow, rfl⟩
  · exact .inl ⟨a, ha, rfl⟩
  · obtain ⟨i, hi, rfl⟩ := List.getElem_of_mem hrow
    obtain ⟨h1, h2, h3⟩ := h.interned.prior i _ (List.getElem?_eq_getElem hi)
    exact .inr ⟨⟨inI64_of_validPrior h1 (by omega), inI64_of_validPrior h2 (by omega), inI64_of_validPrior h3 (by omega)⟩,
      by simp [Record.payload], id, by simp⟩
  · rw [h.transactions] at hrow
    obtain ⟨f, hf, h1, h2, h3, h4, h5⟩ := transactionRow_of_mem hrow
    have hl := h.advances.lower f hf
    have hu := h.advances.upper f hf
    have hlen := h.rows.length_eq
    have hmax : maxTransactionSequence = 9223372036854775806 := rfl
    exact .inr ⟨⟨inI64_of_lt (by omega) (by omega), inI64_of_lt h2 (by omega), inI64_of_lt h4 (by omega)⟩, by simp [Record.payload], id,
      by simp⟩
  · exact .inr ⟨h.operationRow_sound hterms hops hseq hrow, by simp [Record.payload], id, by simp⟩

/-- The records of a store that holds a history are within the ranges of their fields. -/
theorem Represents.records_sound (h : Represents Γ s frames) (hm : Measured s n) (hn : n < 2 ^ 62)
    (htext : ∀ a ∈ s.atoms, a.TextFits snapshotMaxTextBytes) {r : Record} (hr : r ∈ (dumpTermStore s).records) :
    r.Sound ∧ r.payload.length ≤ 4294967295 ∧ ¬r.IsTrailer := by
  have hterms := hm.terms
  have hops := hm.operations
  rcases h.records_sound_or (by omega) (by omega) hm.sequence hr with ⟨a, ha, rfl⟩ | ⟨hs, hl, ht, -⟩
  · obtain ⟨hf, hran⟩ := hm.atoms a ha
    have := Atom.length_recordBytes (htext a ha)
    exact ⟨⟨Atom.fits_of_textFits hf (htext a ha), hran⟩, by simp only [Record.payload, List.length_cons]; omega, id⟩
  · exact ⟨hs, by omega, ht⟩

theorem Represents.one_le_nextSequence (h : Represents Γ s frames) : 1 ≤ s.nextSequence := by
  have hlast := h.advances.last
  cases hl : frames.getLast? with
  | none =>
    rw [hl] at hlast
    simp only [Option.map_none, Option.getD_none] at hlast
    omega
  | some f =>
    have := h.advances.lower f (List.mem_of_getLast? hl)
    have := h.advances.upper f (List.mem_of_getLast? hl)
    omega

/-- A number as it is read back from its 64 bits. -/
def wrapped (v : Int) : Int := i64OfNat (natOfI64 v)

theorem natOfI64_wrapped (v : Int) : natOfI64 (wrapped v) = natOfI64 v := natOfI64_i64OfNat (natOfI64_lt v)

/-- What is read of an image that was encoded of a store is its rows and the byte count of its log; a prefix that is read is all of
the image. -/
theorem Represents.readSnapshot_encodeSnapshot (h : Represents Γ s frames) (hm : Measured s n) (hn : n < 2 ^ 62)
    {snapshotSequence stamp : Int} {watermark k : Nat} (hw : watermark < 2 ^ 62) {encoded : SnapshotBytes}
    (he : encodeSnapshot s snapshotSequence watermark stamp = .ok encoded) {configured : String} {image : Image}
    (hr : readSnapshot (encoded.bytes.take k) configured = .ok image) : ∃ sidecar : Sidecar, sidecar.watermark = watermark ∧ image =
      ⟨s.spaceId, s.nextSequence, s.atoms, s.triples, s.transactions, s.operations, some sidecar⟩ := by
  obtain ⟨⟨-, -⟩, -, hspace, htext, sidecar, -, hmark, hset, -, hfp, hlen, hbytes⟩ := encodeSnapshot_ok he
  -- The trailer is that of a sidecar whose numbers are of 64 bits.
  let sound : Sidecar := { sidecar with
    sequence := wrapped sidecar.sequence, imageStart := wrapped sidecar.imageStart, imageEnd := wrapped sidecar.imageEnd
    stamp := wrapped sidecar.stamp }
  have hpayload : (Record.trailer sidecar).payload = (Record.trailer sound).payload := by
    simp only [Record.payload, sound, natOfI64_wrapped]
  have hsound : (Record.trailer sound).Sound := by
    refine ⟨⟨inI64_i64OfNat _, ?_, inI64_i64OfNat _, inI64_i64OfNat _, inI64_i64OfNat _⟩, ?_, ?_, hfp⟩
    · rw [show sound.watermark = (watermark : Int) from hmark]
      exact inI64_of_lt (by omega) (by omega)
    · rw [show sound.logSet = [s.spaceId] from hset]
      simp [snapshotMaxLogLabels]
    · rw [show sound.logSet = [s.spaceId] from hset]
      simpa using hspace
  have hseq := hm.sequence
  have hpos := h.one_le_nextSequence
  have hmax : maxTransactionSequence = 9223372036854775806 := rfl
  rw [hpayload] at hbytes hlen
  rw [hbytes] at hr
  obtain ⟨-, rfl⟩ := readSnapshot_take hspace (inI64_of_lt (by omega) (by omega))
    (fun r hrec => h.records_sound hm hn htext hrec) hsound hlen hr
  refine ⟨sound, hmark, ?_⟩
  rw [foldl_add_records]
  simp [Image.add, dumpTermStore]

/-- What is installed of the image of a store is a twin of the store and holds its history. -/
theorem Represents.installImage (h : Represents Γ s frames) {sidecar : Option Sidecar} {ctx root : TermStore}
    (hi : installImage Γ ⟨s.spaceId, s.nextSequence, s.atoms, s.triples, s.transactions, s.operations, sidecar⟩ ctx = .ok root) :
    Represents Γ root frames ∧ Twin s root :=
  loadTermStoreResult_dump h hi

end Images

end Fram
