import Fram.Lemmas.Boot

/-!
# Committed frames in a file

`Chain` lists payloads that the reader accepts one after another. A scan reads such a chain and then what follows it
(`Chain.scans_iff`), every scan is a chain and a torn rest (`Scans.chain`), and a chain cut anywhere is scanned up to the last whole
frame (`Chain.cut`).
-/

namespace Fram

/-- The payloads are read as the frames, in order, where the next sequence is `next`. -/
inductive Chain : Int → List Bytes → List TransactionFrame → Prop
  | nil (next : Int) : Chain next [] []
  | cons {next : Int} {payload : Bytes} {payloads : List Bytes} {frame : TransactionFrame} {frames : List TransactionFrame} :
    Accepts next payload frame → Chain (frame.sequence + 1) payloads frames → Chain next (payload :: payloads) (frame :: frames)

/-- The bytes of the frames of payloads. -/
def framesBytes (payloads : List Bytes) : Bytes := payloads.flatMap frameBytes

/-- The sequence that a frame after the frames must reach. -/
def nextAfter (next : Int) (frames : List TransactionFrame) : Int := (frames.getLast?.map (·.sequence + 1)).getD next

section Chains

variable {next : Int} {payloads : List Bytes} {frames : List TransactionFrame}

@[simp] theorem framesBytes_nil : framesBytes [] = [] := rfl

@[simp] theorem framesBytes_cons (payload : Bytes) (payloads : List Bytes) :
    framesBytes (payload :: payloads) = frameBytes payload ++ framesBytes payloads := rfl

@[simp] theorem framesBytes_append (payloads payloads' : List Bytes) :
    framesBytes (payloads ++ payloads') = framesBytes payloads ++ framesBytes payloads' := by
  simp [framesBytes]

@[simp] theorem nextAfter_nil (next : Int) : nextAfter next [] = next := rfl

@[simp] theorem nextAfter_cons (next : Int) (f : TransactionFrame) (frames : List TransactionFrame) :
    nextAfter next (f :: frames) = nextAfter (f.sequence + 1) frames := by
  unfold nextAfter
  cases frames with
  | nil => rfl
  | cons g frames => simp [List.getLast?_cons]

/-- A scan of a chain and what follows it. -/
theorem Chain.scans_iff (h : Chain next payloads frames) {rest : Bytes} {frames' : List TransactionFrame} {n : Nat} :
    Scans next (framesBytes payloads ++ rest) frames' n ↔ ∃ fs m, frames' = frames ++ fs ∧
      n = (framesBytes payloads).length + m ∧ Scans (nextAfter next frames) rest fs m := by
  induction h generalizing frames' n with
  | nil => simp
  | @cons next payload payloads frame frames ha _ ih =>
    rw [framesBytes_cons, List.append_assoc, scans_frameBytes_iff ha.size, nextAfter_cons, List.length_append, length_frameBytes]
    constructor
    · rintro ⟨f, fs, m, rfl, rfl, ha', hs⟩
      obtain rfl : frame = f := Except.ok.inj (ha.decodes.symm.trans ha'.decodes)
      obtain ⟨fs', m', rfl, rfl, hs'⟩ := ih.1 hs
      exact ⟨fs', m', rfl, by omega, hs'⟩
    · rintro ⟨fs, m, rfl, rfl, hs⟩
      exact ⟨frame, frames ++ fs, (framesBytes payloads).length + m, rfl, by omega, ha, ih.2 ⟨fs, m, rfl, rfl, hs⟩⟩

/-- A chain is scanned to its end. -/
theorem Chain.scans (h : Chain next payloads frames) : Scans next (framesBytes payloads) frames (framesBytes payloads).length := by
  have hs : Scans next (framesBytes payloads ++ []) frames (framesBytes payloads).length :=
    h.scans_iff.2 ⟨[], 0, (List.append_nil _).symm, rfl, .torn (Or.inl (by simp))⟩
  rwa [List.append_nil] at hs

/-- What is scanned is a chain, and its rest is torn. -/
theorem Scans.chain {rest : Bytes} {n : Nat} (h : Scans next rest frames n) :
    ∃ payloads, Chain next payloads frames ∧ n = (framesBytes payloads).length ∧ rest = framesBytes payloads ++ rest.drop n ∧
      Torn (rest.drop n) := by
  induction h with
  | torn ht => exact ⟨[], .nil _, rfl, by simp, by simpa using ht⟩
  | @frame next payload rest frame frames n ha _ ih =>
    obtain ⟨payloads, hc, rfl, hr, ht⟩ := ih
    have hdrop : (frameBytes payload ++ rest).drop (payload.length + 8 + (framesBytes payloads).length) =
        rest.drop (framesBytes payloads).length := by
      rw [← length_frameBytes, List.drop_length_add_append]
    refine ⟨payload :: payloads, .cons ha hc, by simp, ?_, by rwa [hdrop]⟩
    rw [hdrop, framesBytes_cons, List.append_assoc, ← hr]

/-- A scan of scanned bytes and more goes on where the scan stopped. -/
theorem Scans.append_iff {rest : Bytes} {n : Nat} (h : Scans next rest frames n) (more : Bytes) {frames' : List TransactionFrame}
    {n' : Nat} : Scans next (rest ++ more) frames' n' ↔ ∃ fs m, frames' = frames ++ fs ∧ n' = n + m ∧
      Scans (nextAfter next frames) (rest.drop n ++ more) fs m := by
  obtain ⟨payloads, hc, rfl, hr, -⟩ := h.chain
  rw [← hc.scans_iff, ← List.append_assoc, ← hr]

/-- A frame cut short is torn. -/
theorem torn_take_frameBytes {payload : Bytes} (hs : payload.length ≤ framlogStreamMaxPayloadBytes) (rest : Bytes) {k : Nat}
    (hk : k < payload.length + 8) : Torn ((frameBytes payload ++ rest).take k) := by
  rw [List.take_append_of_le_length (by rw [length_frameBytes]; omega)]
  exact Records.cut_take_record (by decide) hs hk

/-- A chain cut anywhere is scanned up to its last whole frame. -/
theorem Chain.cut (h : Chain next payloads frames) {k : Nat} (hk : k ≤ (framesBytes payloads).length) :
    ∃ i, i ≤ payloads.length ∧ (framesBytes (payloads.take i)).length ≤ k ∧
      (i < payloads.length → k < (framesBytes (payloads.take (i + 1))).length) ∧
      Scans next ((framesBytes payloads).take k) (frames.take i) (framesBytes (payloads.take i)).length := by
  induction h generalizing k with
  | nil => exact ⟨0, Nat.le_refl _, Nat.zero_le _, by simp, .torn (Or.inl (by simp))⟩
  | @cons next payload payloads frame frames ha _ ih =>
    rw [framesBytes_cons, List.length_append, length_frameBytes] at hk
    by_cases hlt : k < payload.length + 8
    · exact ⟨0, Nat.zero_le _, Nat.zero_le _, fun _ => by simpa using hlt, .torn (torn_take_frameBytes ha.size _ hlt)⟩
    · obtain ⟨j, rfl⟩ := Nat.exists_eq_add_of_le (Nat.not_lt.1 hlt)
      obtain ⟨i, h1, h2, h3, h4⟩ := ih (k := j) (by omega)
      refine ⟨i + 1, by simpa using h1, ?_, fun hi => ?_, ?_⟩
      · simp only [List.take_succ_cons, framesBytes_cons, List.length_append, length_frameBytes]
        omega
      · have := h3 (by simpa using hi)
        simp only [List.take_succ_cons, framesBytes_cons, List.length_append, length_frameBytes] at this ⊢
        omega
      · simp only [List.take_succ_cons, framesBytes_cons, List.length_append, length_frameBytes]
        rw [← length_frameBytes, List.take_length_add_append, length_frameBytes]
        exact .frame ha h4

end Chains

/-! ## Whole logs -/

/-- The bytes of a log: its header and its frames. -/
def logBytes (spaceId : String) (payloads : List Bytes) : Bytes := headerBytes spaceId ++ framesBytes payloads

/-- A valid header and committed frames, where a space is configured. -/
structure CommittedLog (configured spaceId : String) (payloads : List Bytes) (frames : List TransactionFrame) : Prop where
  header : AdmitsHeader configured spaceId
  chain : Chain 1 payloads frames

section Logs

variable {configured spaceId : String} {payloads : List Bytes} {frames : List TransactionFrame}

@[simp] theorem length_logBytes (spaceId : String) (payloads : List Bytes) :
    (logBytes spaceId payloads).length = (headerBytes spaceId).length + (framesBytes payloads).length := by
  simp [logBytes]

/-- A whole log boots. -/
theorem CommittedLog.boots (h : CommittedLog configured spaceId payloads frames) :
    Boots configured (logBytes spaceId payloads) spaceId frames (logBytes spaceId payloads).length [] := by
  rw [length_logBytes]
  exact .log h.header h.chain.scans

/-- A log with a header does not boot when it ends inside the header. -/
theorem AdmitsHeader.not_boots_take (h : AdmitsHeader configured spaceId) (rest : Bytes) {k : Nat} (h0 : 0 < k)
    (hk : k < (headerBytes spaceId).length) {spaceId' : String} {frames : List TransactionFrame} {valid : Nat} {append : Bytes} :
    ¬Boots configured ((headerBytes spaceId ++ rest).take k) spaceId' frames valid append := by
  have hm : framlogStreamMaxSpaceBytes = 4096 := rfl
  intro hb
  have hlen : ((headerBytes spaceId ++ rest).take k).length = k := by
    rw [List.length_take, List.length_append]
    omega
  generalize hbytes : (headerBytes spaceId ++ rest).take k = bytes at hb hlen
  cases hb with
  | new =>
    rw [List.length_nil] at hlen
    omega
  | @log _ rest' _ n hadm _ =>
    have he : headerBytes spaceId ++ rest = headerBytes spaceId' ++ (rest' ++ (headerBytes spaceId ++ rest).drop k) := by
      rw [← List.append_assoc, ← hbytes, List.take_append_drop]
    obtain ⟨rfl, -⟩ := headerBytes_append_inj (by have := h.size; omega) (by have := hadm.size; omega) he
    rw [List.length_append] at hlen
    omega

/-- The payload that is written for a frame within the limits is accepted. -/
theorem TransactionFrame.Loggable.accepts {frame : TransactionFrame} (h : frame.Loggable) (hr : frame.Ranged)
    (hs : frame.payload.length ≤ framlogStreamMaxPayloadBytes) {next : Int} (hl : next ≤ frame.sequence)
    (hu : frame.sequence ≤ maxTransactionSequence) : Accepts next frame.payload frame :=
  ⟨hs, h.decode_payload hr, hl, hu⟩

/-- A frame of one assertion. -/
def oneFrame : TransactionFrame := ⟨1, [⟨.assert, ⟨.int 1, .int 2, .int 3⟩⟩]⟩

/-- The log of one assertion. -/
theorem committedLog_one : CommittedLog "s" "s" [oneFrame.payload] [oneFrame] := by
  refine ⟨⟨by decide, by decide, .inr rfl⟩, .cons (TransactionFrame.Loggable.accepts ⟨by decide, by decide, by decide, ?_⟩
    ⟨⟨by decide, by decide⟩, ?_⟩ (by decide) (by decide) (by decide)) (.nil _)⟩
  · simp only [oneFrame, List.mem_singleton, forall_eq]
    exact ⟨by decide, by decide, trivial, trivial, trivial⟩
  · simp only [oneFrame, List.mem_singleton, forall_eq]
    exact ⟨⟨by decide, by decide⟩, ⟨by decide, by decide⟩, by decide, by decide⟩

end Logs

end Fram
