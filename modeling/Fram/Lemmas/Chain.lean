import Fram.BranchStore
import Fram.Lemmas.CrashRun

/-!
# Logs that continue a chain

The bytes of a log are its header, the records of its frames and a cut rest (`IsLog`), and that is what the reader takes
(`IsLog.parse`, `isLog_of_parse`). A ref folds a branch when every segment is the log that it names, and each log begins at the
sequence behind the logs before it (`SealedIn`); a branch opens exactly when its ref folds it (`openBranch_ok_iff`).

The path of a file says what it is: the log and the marker stand beside three directories, of segments, of refs and of tails. So what
is written to the tail of a branch leaves the rest of the store as it was, and a branch is opened anew after a
commit as its ref says.
-/

namespace Fram.Database

open Reader LittleEndian Framrpc
open Lines (Text)

/-! ## Logs -/

/-- The bytes are a log: its header, the records of its frames, and a cut rest. -/
structure IsLog (J : Gzip) (bytes : Bytes) (spaceId : String) (deflate continuation : Bool) (frames : List TransactionFrame)
    (rest : Bytes) : Prop where
  space : spaceId ≠ ""
  size : (utf8Encode spaceId).length ≤ integerMax
  records : ∃ stored, bytes = logHeader deflate continuation spaceId ++ (Records.records crc32 stored ++ rest) ∧
    List.Forall₂ (Stores J deflate) stored frames
  cut : Records.Cut integerMax rest

/-- What a log is parsed as. -/
structure ParsedAs (parsed : TripleLog) (bytes : Bytes) (spaceId : String) (deflate continuation : Bool)
    (frames : List TransactionFrame) (rest : Bytes) : Prop where
  space : parsed.spaceId = spaceId
  frames : parsed.frames = frames
  continuation : parsed.continuation = continuation
  deflate : parsed.deflate = if 4 ≤ rest.length then none else some deflate
  torn : parsed.tornTail = none ↔ rest = []
  valid : parsed.validBytes + rest.length = bytes.length

section Logs

variable {J : Gzip} {bytes rest : Bytes} {spaceId : String} {deflate continuation : Bool} {frames : List TransactionFrame}

theorem parsedAs_endOfLog {headerBytes length : Nat} {ends : List (Int × Nat)} {validBytes : Nat} (hb : bytes.length = length)
    (hv : validBytes + rest.length = length) :
    ParsedAs (endOfLog spaceId deflate continuation headerBytes length (frames, validBytes, ends) rest) bytes spaceId deflate
      continuation frames rest := by
  unfold endOfLog
  dsimp only
  by_cases h0 : rest.length = 0
  · rw [if_pos h0]
    exact ⟨rfl, rfl, rfl, by rw [if_neg (by omega)], by simpa using h0, by dsimp only; omega⟩
  · have hrest : rest ≠ [] := fun h => h0 (by rw [h]; rfl)
    rw [if_neg h0]
    by_cases h4 : rest.length < 4
    · rw [if_pos h4]
      exact ⟨rfl, rfl, rfl, by rw [if_neg (by omega)], by simpa using hrest, by dsimp only; omega⟩
    · rw [if_neg h4]
      exact ⟨rfl, rfl, rfl, by rw [if_pos (by omega)], by simpa using hrest, by dsimp only; omega⟩

/-- A log is parsed, if it continues no chain or that is allowed. -/
theorem IsLog.parse (h : IsLog J bytes spaceId deflate continuation frames rest) {allowContinuation : Bool}
    (ha : continuation = true → allowContinuation = true) : ∃ parsed, parseTripleLogBytes J bytes allowContinuation = .ok parsed ∧
      ParsedAs parsed bytes spaceId deflate continuation frames rest := by
  obtain ⟨stored, rfl, hst⟩ := h.records
  obtain ⟨ends, hparse⟩ := parseFrames_pieces hst h.cut (16 + (utf8Encode spaceId).length)
  refine ⟨_, parseTripleLogBytes_eq_ok_iff.2 ⟨deflate, continuation, spaceId, _, _, rest, ha, rfl, h.space, h.size, hparse, rfl⟩,
    parsedAs_endOfLog rfl ?_⟩
  simp only [List.length_append, length_logHeader]
  omega

/-- What is parsed is a log. -/
theorem isLog_of_parse {allowContinuation : Bool} {parsed : TripleLog}
    (h : parseTripleLogBytes J bytes allowContinuation = .ok parsed) : ∃ spaceId deflate continuation frames rest,
      IsLog J bytes spaceId deflate continuation frames rest ∧ (continuation = true → allowContinuation = true) := by
  obtain ⟨deflate, continuation, spaceId, body, parsed, rest, ha, rfl, hne, hsize, hparse, rfl⟩ := parseTripleLogBytes_eq_ok_iff.1 h
  obtain ⟨stored, hpieces, hst⟩ := parseFrames_ok hparse
  exact ⟨spaceId, deflate, continuation, parsed.1, rest, ⟨hne, hsize, ⟨stored, by rw [hpieces.bytes], hst⟩, hpieces.cut⟩, ha⟩

/-- A log has one header, one list of frames and one rest. -/
theorem IsLog.parsedAs (h : IsLog J bytes spaceId deflate continuation frames rest) {allowContinuation : Bool} {parsed : TripleLog}
    (hp : parseTripleLogBytes J bytes allowContinuation = .ok parsed) :
    ParsedAs parsed bytes spaceId deflate continuation frames rest ∧ (continuation = true → allowContinuation = true) := by
  by_cases ha : continuation = true → allowContinuation = true
  · obtain ⟨parsed', hp', hparsed⟩ := h.parse ha
    rw [hp] at hp'
    cases hp'
    exact ⟨hparsed, ha⟩
  · obtain ⟨hc, ha⟩ := Classical.not_imp.1 ha
    obtain ⟨parsed', hp', hparsed⟩ := @IsLog.parse _ _ _ _ _ _ _ h true fun _ => rfl
    obtain ⟨deflate', continuation', spaceId', body, r, rest', hallow, hbytes, hne, hsize, hparse, hlog⟩ :=
      parseTripleLogBytes_eq_ok_iff.1 hp
    have htrue : parseTripleLogBytes J bytes true = .ok parsed :=
      parseTripleLogBytes_eq_ok_iff.2 ⟨deflate', continuation', spaceId', body, r, rest', fun _ => rfl, hbytes, hne, hsize, hparse, hlog⟩
    rw [hp', Except.ok.injEq] at htrue
    have hcont : parsed'.continuation = continuation' := by
      rw [htrue, hlog]
      unfold endOfLog
      dsimp only
      split
      · rfl
      · split <;> rfl
    rw [hparsed.continuation, hc] at hcont
    exact absurd (hallow hcont.symm) ha

/-- A log of the space that is read, in its mode, can be made. -/
theorem ParsedAs.header {parsed : TripleLog} (h : ParsedAs parsed bytes spaceId deflate continuation frames rest)
    (hne : spaceId ≠ "") (hs : (utf8Encode spaceId).length ≤ integerMax) :
    Database.createTripleLog parsed.spaceId (parsed.deflate.getD false) true =
      .ok (logHeader (parsed.deflate.getD false) true parsed.spaceId) :=
  createTripleLog_eq_ok_iff.2 ⟨rfl, by rw [h.space]; exact hne, by rw [h.space]; exact hs⟩

/-- A header and what follows it are determined by the bytes. -/
theorem logHeader_append_inj {spaceId' : String} {deflate' continuation' : Bool} {more more' : Bytes}
    (hs : (utf8Encode spaceId).length ≤ integerMax) (hs' : (utf8Encode spaceId').length ≤ integerMax)
    (h : logHeader deflate continuation spaceId ++ more = logHeader deflate' continuation' spaceId' ++ more') :
    deflate = deflate' ∧ continuation = continuation' ∧ spaceId = spaceId' ∧ more = more' := by
  have hmax : integerMax < 256 ^ 4 := by decide
  obtain ⟨-, -, p3, p4, p5, p6⟩ := @flaggedHeader_parts spaceId _ (logFlags_lt deflate continuation) (by omega) more
  obtain ⟨-, -, q3, q4, q5, q6⟩ := @flaggedHeader_parts spaceId' _ (logFlags_lt deflate' continuation') (by omega) more'
  unfold logHeader at h
  rw [h] at p3 p4 p5 p6
  rw [q4] at p4
  rw [← p4, q5] at p5
  rw [← p4, q6] at p6
  rw [q3] at p3
  have hflags : deflate = deflate' ∧ continuation = continuation' := by
    revert p3
    cases deflate <;> cases continuation <;> cases deflate' <;> cases continuation' <;> decide
  exact ⟨hflags.1, hflags.2, (utf8Encode_injective p5).symm, p6.symm⟩

/-- A log with a mode keeps its header when bytes are appended. -/
theorem IsLog.header_of_append {spaceId' : String} {deflate' continuation' : Bool} {frames' : List TransactionFrame}
    {rest' more : Bytes} (h : IsLog J bytes spaceId deflate continuation frames rest)
    (h' : IsLog J (bytes ++ more) spaceId' deflate' continuation' frames' rest') :
    deflate' = deflate ∧ continuation' = continuation ∧ spaceId' = spaceId := by
  obtain ⟨stored, rfl, -⟩ := h.records
  obtain ⟨stored', hb, -⟩ := h'.records
  rw [List.append_assoc] at hb
  obtain ⟨h1, h2, h3, -⟩ := logHeader_append_inj h.size h'.size hb
  exact ⟨h1.symm, h2.symm, h3.symm⟩

/-- A whole log takes the records of more frames, and a part of one more. -/
theorem IsLog.extend (h : IsLog J bytes spaceId deflate continuation frames []) {stored : List Bytes} {more : List TransactionFrame}
    (hst : List.Forall₂ (Stores J deflate) stored more) {rest : Bytes} (hc : Records.Cut integerMax rest) :
    IsLog J (bytes ++ (Records.records crc32 stored ++ rest)) spaceId deflate continuation (frames ++ more) rest := by
  obtain ⟨stored₀, rfl, hst₀⟩ := h.records
  refine ⟨h.space, h.size, ⟨stored₀ ++ stored, ?_, List.rel_append hst₀ hst⟩, hc⟩
  simp only [Records.records_append, List.append_assoc, List.append_nil]

/-- A log without a frame. -/
theorem isLog_logHeader (deflate continuation : Bool) (hne : spaceId ≠ "") (hs : (utf8Encode spaceId).length ≤ integerMax) :
    IsLog J (logHeader deflate continuation spaceId) spaceId deflate continuation [] [] :=
  ⟨hne, hs, ⟨[], by simp, .nil⟩, Or.inl (by simp)⟩

/-- What is cut off a log at its rest is the whole log before it. -/
theorem IsLog.take (h : IsLog J bytes spaceId deflate continuation frames rest) :
    IsLog J (bytes.take (bytes.length - rest.length)) spaceId deflate continuation frames [] := by
  obtain ⟨stored, rfl, hst⟩ := h.records
  refine ⟨h.space, h.size, ⟨stored, ?_, hst⟩, Or.inl (by simp)⟩
  rw [List.append_nil, ← List.append_assoc, List.length_append, Nat.add_sub_cancel, List.take_left]

/-- The mode of a log is in the flags of its header. -/
def deflates (bytes : Bytes) : Bool := decide (0 < deflateFlag &&& u16LeAt bytes 10)

theorem IsLog.deflates (h : IsLog J bytes spaceId deflate continuation frames rest) (more : Bytes) :
    deflates (bytes ++ more) = deflate := by
  have hmax : integerMax < 256 ^ 4 := by decide
  have hsize := h.size
  obtain ⟨stored, rfl, -⟩ := h.records
  rw [List.append_assoc]
  obtain ⟨-, -, p3, -⟩ := @flaggedHeader_parts spaceId _ (logFlags_lt deflate continuation) (by omega)
    (Records.records crc32 stored ++ rest ++ more)
  unfold Database.deflates logHeader
  rw [p3]
  cases deflate <;> cases continuation <;> decide

end Logs

/-! ## Chains -/

/-- The sequence behind frames that begin at `next`. -/
def nextOf (next : Int) (frames : List TransactionFrame) : Int := (frames.getLast?.map (·.sequence + 1)).getD next

/-- The first of the frames, if there is one, has the sequence. -/
def StartsAt (next : Int) (frames : List TransactionFrame) : Prop := ∀ f ∈ frames.head?, f.sequence = next

/-- All sequences are positive. -/
def Positive (frames : List TransactionFrame) : Prop := ∀ f ∈ frames, 0 < f.sequence

/-- The segment is the whole log of the frames that it is recorded as. -/
structure SegmentIs (J : Gzip) (files : Files) (store : Text) (spaceId : String) (segment : SegmentRecord) (continuation : Bool)
    (frames : List TransactionFrame) : Prop where
  name : validSegmentName segment.sha256 = true
  log : ∃ bytes deflate, files (fileIn (segmentsDirectory store) segment.sha256) = some bytes ∧
    IsLog J bytes spaceId deflate continuation frames [] ∧ segment.byteCount = bytes.length
  start : segment.startSequence = sequenceOf frames.head?
  last : segment.endSequence = sequenceOf frames.getLast?

/-- The segments, from an index and a sequence on, are the logs of the frames. -/
inductive SealedIn (J : Gzip) (files : Files) (store : Text) (spaceId : String) :
    Nat → Int → List SegmentRecord → List TransactionFrame → Prop
  | nil {index : Nat} {next : Int} : SealedIn J files store spaceId index next [] []
  | cons {index : Nat} {next : Int} {segment : SegmentRecord} {segments : List SegmentRecord} {first more : List TransactionFrame}
      (hs : SegmentIs J files store spaceId segment (decide (0 < index)) first) (hstart : StartsAt next first)
      (hmore : SealedIn J files store spaceId (index + 1) (nextOf next first) segments more) :
      SealedIn J files store spaceId index next (segment :: segments) (first ++ more)

section Sequences

variable {next : Int} {frames more : List TransactionFrame}

theorem nextOf_append (next : Int) (frames more : List TransactionFrame) :
    nextOf next (frames ++ more) = nextOf (nextOf next frames) more := by
  unfold nextOf
  rw [List.getLast?_append]
  cases more.getLast? with
  | none => rfl
  | some f => rfl

theorem startsAt_iff (h : Positive frames) : (0 < sequenceOf frames.head? → next = sequenceOf frames.head?) ↔ StartsAt next frames := by
  unfold StartsAt sequenceOf
  cases frames with
  | nil => simp
  | cons f frames =>
    have := h f List.mem_cons_self
    simp [this, eq_comm]

theorem nextAfter_eq (h : Positive frames) {member : ChainMember} (hm : member.endSequence = sequenceOf frames.getLast?) :
    member.nextAfter next = nextOf next frames := by
  unfold ChainMember.nextAfter nextOf
  rw [hm]
  cases hl : frames.getLast? with
  | none => rfl
  | some f => exact if_pos (h f (List.mem_of_getLast? hl))

theorem Positive.of_continues (h : Continues next frames) (hn : 0 < next) : Positive frames := by
  induction frames generalizing next with
  | nil => exact fun _ hm => nomatch hm
  | cons f frames ih =>
    obtain ⟨⟨hl, -, -⟩, hc⟩ := h
    have hf : 0 < f.sequence := by omega
    exact List.forall_mem_cons.2 ⟨hf, ih hc (by omega)⟩

end Sequences

section Reading

variable {J : Gzip} {files : Files} {store path : Text} {spaceId : String} {segment : SegmentRecord} {continuation : Bool}
  {frames : List TransactionFrame} {document : RefDocument} {index : Nat} {next : Int}

/-- The member that a log is in a chain. -/
def memberOf (spaceId : String) (byteCount : Nat) (continuation : Bool) (frames : List TransactionFrame) (torn : Bool) : ChainMember :=
  ⟨sequenceOf frames.head?, sequenceOf frames.getLast?, byteCount, continuation, spaceId.toList, torn⟩

theorem ParsedAs.member {parsed : TripleLog} {bytes rest : Bytes} {deflate : Bool}
    (h : ParsedAs parsed bytes spaceId deflate continuation frames rest) :
    chainMember parsed bytes.length = memberOf spaceId bytes.length continuation frames (decide (rest ≠ [])) := by
  unfold chainMember memberOf
  rw [h.frames, h.continuation, h.space]
  have ht := h.torn
  cases hp : parsed.tornTail with
  | none => simp [ht.1 hp]
  | some tail =>
    have hne : rest ≠ [] := fun he => by rw [ht.2 he] at hp; cases hp
    simp [hne]

/-- A log is read as a member. -/
theorem IsLog.readChainMember {bytes rest : Bytes} {deflate : Bool} (h : IsLog J bytes spaceId deflate continuation frames rest)
    (hf : files path = some bytes) : ∃ parsed, readChainMember J files path =
      .ok (parsed, memberOf spaceId bytes.length continuation frames (decide (rest ≠ []))) ∧
        ParsedAs parsed bytes spaceId deflate continuation frames rest := by
  obtain ⟨parsed, hp, hparsed⟩ := @IsLog.parse _ _ _ _ _ _ _ h true fun _ => rfl
  refine ⟨parsed, ?_, hparsed⟩
  unfold Database.readChainMember requireLog
  rw [hf, ← hparsed.member]
  exact ExceptList.bind_eq_ok_iff.2 ⟨bytes, rfl, ExceptList.bind_eq_ok_iff.2 ⟨parsed, hp, rfl⟩⟩

/-- What is read as a member is a log. -/
theorem isLog_of_readChainMember {parsed : TripleLog} {member : ChainMember} (h : readChainMember J files path = .ok (parsed, member)) :
    ∃ bytes spaceId deflate continuation frames rest, files path = some bytes ∧
      IsLog J bytes spaceId deflate continuation frames rest ∧
      member = memberOf spaceId bytes.length continuation frames (decide (rest ≠ [])) ∧
      ParsedAs parsed bytes spaceId deflate continuation frames rest := by
  unfold readChainMember requireLog at h
  obtain ⟨bytes, hb, h⟩ := ExceptList.bind_eq_ok_iff.1 h
  obtain ⟨parsed', hp, h⟩ := ExceptList.bind_eq_ok_iff.1 h
  cases h
  obtain ⟨spaceId, deflate, continuation, frames, rest, hlog, -⟩ := isLog_of_parse hp
  obtain ⟨hparsed, -⟩ := hlog.parsedAs hp
  refine ⟨bytes, spaceId, deflate, continuation, frames, rest, ?_, hlog, hparsed.member, hparsed⟩
  cases hf : files path with
  | none =>
    rw [hf] at hb
    cases hb
  | some bytes' =>
    rw [hf] at hb
    cases hb
    rfl

/-- The chain law for one member. -/
theorem memberFault_eq_none_iff {byteCount : Nat} {torn : Bool} (hpos : Positive frames) :
    memberFault document segment index (memberOf spaceId byteCount continuation frames torn) next = none ↔
      document.spaceId = spaceId.toList ∧ segment.byteCount = byteCount ∧ segment.startSequence = sequenceOf frames.head? ∧
        segment.endSequence = sequenceOf frames.getLast? ∧ torn = false ∧ continuation = decide (0 < index) ∧ StartsAt next frames := by
  rw [← startsAt_iff hpos]
  unfold memberFault memberOf
  simp only [ite_eq_iff, reduceCtorEq, and_false, false_or, not_not, Bool.and_eq_true, decide_eq_true_eq, Bool.not_eq_true',
    not_and, ne_eq, and_true, Bool.not_eq_true, Bool.not_eq_false]
  rcases Nat.eq_zero_or_pos index with hi | hi <;> cases continuation <;> simp [hi, Nat.pos_iff_ne_zero.1]

/-- The chain law for the tail. -/
theorem tailFault_eq_none_iff {byteCount count : Nat} {torn : Bool} (hpos : Positive frames) :
    tailFault document count (memberOf spaceId byteCount continuation frames torn) next = none ↔
      document.spaceId = spaceId.toList ∧ continuation = decide (0 < count) ∧ StartsAt next frames := by
  rw [← startsAt_iff hpos]
  unfold tailFault memberOf
  simp only [ite_eq_iff, reduceCtorEq, and_false, false_or, not_not, Bool.and_eq_true, decide_eq_true_eq, Bool.not_eq_true',
    not_and, ne_eq, and_true, Bool.not_eq_true, Bool.not_eq_false]
  rcases Nat.eq_zero_or_pos count with hi | hi <;> cases continuation <;> simp [hi, Nat.pos_iff_ne_zero.1]

theorem segmentPath_ok (h : validSegmentName segment.sha256 = true) :
    segmentPath store segment.sha256 = .ok (fileIn (segmentsDirectory store) segment.sha256) := if_pos h

theorem validSegmentName_of_segmentPath (h : segmentPath store segment.sha256 = .ok path) :
    validSegmentName segment.sha256 = true ∧ path = fileIn (segmentsDirectory store) segment.sha256 := by
  unfold segmentPath branchFail at h
  split at h
  · rename_i hn
    cases h
    exact ⟨hn, rfl⟩
  · cases h

/-- The frames of logs that are read. -/
def framesOf (sealed : List (TripleLog × ChainMember)) : List TransactionFrame := (sealed.map (·.1.frames)).flatten

/-- Segments that are sealed in a chain are read, and keep its law. -/
theorem SealedIn.read {segments : List SegmentRecord} (h : SealedIn J files store spaceId index next segments frames)
    (hspace : document.spaceId = spaceId.toList) (hpos : Positive frames) : ∃ sealed, readSegments J files store segments = .ok sealed ∧
      framesOf sealed = frames ∧ sealed.length = segments.length ∧ ∀ tail, memberFaults document tail index next (segments.zip (sealed.map (·.2))) =
        tailFault document (index + segments.length) tail (nextOf next frames) := by
  induction h with
  | nil => exact ⟨[], rfl, rfl, rfl, fun tail => rfl⟩
  | @cons index next segment segments first more hs hstart _ ih =>
    have hfirst : Positive first := fun f hf => hpos f (List.mem_append_left _ hf)
    obtain ⟨sealed, hread, hframes, hlength, hlaw⟩ := ih fun f hf => hpos f (List.mem_append_right _ hf)
    obtain ⟨bytes, deflate, hb, hlog, hsize⟩ := hs.log
    obtain ⟨parsed, hmember, hparsed⟩ := hlog.readChainMember hb
    refine ⟨_ :: sealed, ExceptList.mapM_eq_ok_iff.2 (.cons (ExceptList.bind_eq_ok_iff.2 ⟨_, segmentPath_ok hs.name, hmember⟩)
      (ExceptList.mapM_eq_ok_iff.1 hread)), ?_, by simp [hlength], fun tail => ?_⟩
    · rw [framesOf, List.map_cons, List.flatten_cons, ← framesOf, hframes, hparsed.frames]
    · rw [List.map_cons, List.zip_cons_cons, memberFaults,
        (memberFault_eq_none_iff hfirst).2 ⟨hspace, hsize, hs.start, hs.last, by simp, rfl, hstart⟩]
      dsimp only
      rw [nextAfter_eq hfirst rfl, hlaw, nextOf_append, List.length_cons]
      congr 1
      omega

/-- Segments that are read and keep the law of a chain are sealed in it. -/
theorem sealedIn_of_read {segments : List SegmentRecord} {sealed : List (TripleLog × ChainMember)} {tail : ChainMember}
    (hread : readSegments J files store segments = .ok sealed)
    (hlaw : memberFaults document tail index next (segments.zip (sealed.map (·.2))) = none) (hpos : Positive (framesOf sealed)) :
    SealedIn J files store (String.ofList document.spaceId) index next segments (framesOf sealed) ∧
      tailFault document (index + segments.length) tail (nextOf next (framesOf sealed)) = none := by
  replace hread := ExceptList.mapM_eq_ok_iff.1 hread
  induction hread generalizing index next with
  | nil => exact ⟨.nil, hlaw⟩
  | @cons segment r segments sealed hs _ ih =>
    obtain ⟨parsed, member⟩ := r
    obtain ⟨path, hpath, hmember⟩ := ExceptList.bind_eq_ok_iff.1 hs
    obtain ⟨hname, rfl⟩ := validSegmentName_of_segmentPath hpath
    obtain ⟨bytes, spaceId, deflate, continuation, frames, rest, hb, hlog, rfl, hparsed⟩ := isLog_of_readChainMember hmember
    rw [framesOf, List.map_cons, List.flatten_cons, ← framesOf, hparsed.frames] at hpos ⊢
    have hfirst : Positive frames := fun f hf => hpos f (List.mem_append_left _ hf)
    rw [List.map_cons, List.zip_cons_cons, memberFaults] at hlaw
    split at hlaw
    · cases hlaw
    rename_i hnone
    obtain ⟨hspace, hsize, hstart, hlast, htorn, hcont, hat⟩ := (memberFault_eq_none_iff hfirst).1 hnone
    obtain rfl : rest = [] := by simpa using htorn
    obtain rfl : continuation = decide (0 < index) := hcont
    rw [nextAfter_eq hfirst rfl] at hlaw
    obtain ⟨hmore, htail⟩ := ih hlaw fun f hf => hpos f (List.mem_append_right _ hf)
    have hid : String.ofList document.spaceId = spaceId := by rw [hspace, String.ofList_toList]
    refine ⟨.cons ⟨hname, ⟨bytes, deflate, hb, hid ▸ hlog, hsize⟩, hstart, hlast⟩ hat hmore, ?_⟩
    rw [nextOf_append, List.length_cons, ← htail]
    congr 1
    omega

end Reading

/-! ## Opening a branch -/

/-- The ref folds the branch: its segments are the logs of the sealed frames, and the tail continues them. -/
structure Folds (J : Gzip) (files : Files) (store branch : Text) (document : RefDocument) (sealed tail : List TransactionFrame)
    (bytes : Bytes) (deflate : Bool) (rest : Bytes) : Prop where
  chain : SealedIn J files store (String.ofList document.spaceId) 0 1 document.segments sealed
  file : files (tailOf store branch) = some bytes
  log : IsLog J bytes (String.ofList document.spaceId) deflate (decide (0 < document.segments.length)) tail rest
  starts : StartsAt (nextOf 1 sealed) tail
  ordered : Continues 1 (sealed ++ tail)

/-- The database of a store, a SpaceId and a mode, over a log with a torn tail or none. -/
def openedDb (s : TermStore) (spaceId : String) (mode : Option Bool) (torn : Option TornTail) (repairTorn : Bool) : Db :=
  ⟨s, spaceId, mode, .ready, if repairTorn then none else torn, if repairTorn then torn else none⟩

section Opening

variable {Γ : Host} {J : Gzip} {files files' : Files} {store branch : Text} {document : RefDocument} {db : Db}
  {expectedSpace : Option String} {repairTorn : Bool} {sealed tail : List TransactionFrame} {bytes rest : Bytes} {deflate : Bool}

theorem branchTailPath_ok (h : validBranchName branch = true) : branchTailPath store branch = .ok (tailOf store branch) := by
  unfold branchTailPath requireBranchName
  rw [if_pos h]
  rfl

theorem refPath_ok (h : validBranchName branch = true) : refPath store branch = .ok (fileIn (refsDirectory store) branch) := by
  unfold refPath requireBranchName
  rw [if_pos h]
  rfl

theorem replayFrames_append (s : TermStore) (frames more : List TransactionFrame) :
    replayFrames Γ s (frames ++ more) = replayFrames Γ s frames >>= fun s => replayFrames Γ s more := List.foldlM_append

/-- Logs are replayed as their frames are. -/
theorem foldlM_replayFrames (members : List (TripleLog × ChainMember)) (s : TermStore) :
    members.foldlM (fun context member => replayFrames Γ context member.1.frames) s = replayFrames Γ s (framesOf members) := by
  induction members generalizing s with
  | nil => rfl
  | cons member members ih =>
    rw [List.foldlM_cons, framesOf, List.map_cons, List.flatten_cons, ← framesOf, replayFrames_append]
    exact congrArg _ (funext ih)

/-- Frames that continue the empty history are those that are replayed over a new store. -/
theorem replayFrames_new_iff {spaceId : String} {s s' : TermStore} {frames : List TransactionFrame} (hs : newTermStore spaceId = .ok s) :
    replayFrames Γ s frames = .ok s' ↔ Continues 1 frames ∧ s' = Fram.appendFrames Γ s frames := by
  obtain ⟨hrep, -, -⟩ := represents_newTermStoreSized Γ hs
  have hnext : s.nextSequence = 1 := hrep.advances.last
  rw [replayFrames_ok_iff hrep, hnext]

theorem expectedSpace_any_iff {spaceId : String} :
    expectedSpace.any (fun space => decide (space ≠ spaceId)) = true ↔ ¬(expectedSpace = none ∨ expectedSpace = some spaceId) := by
  cases expectedSpace <;> simp

/-- The files after a branch is opened on a tail. -/
def openedFiles (files : Files) (path : Text) (bytes rest : Bytes) (torn : Option TornTail) (repairTorn : Bool) : Files :=
  if torn.isSome ∧ repairTorn then truncateLog files path (bytes.length - rest.length) else files

/-- A branch with a ref that opens is folded by the ref. -/
theorem folds_of_openChain (hb : validBranchName branch = true)
    (h : openChain Γ J files store branch document expectedSpace repairTorn = .ok (db, files')) :
    ∃ sealed tail bytes deflate rest s torn, Folds J files store branch document sealed tail bytes deflate rest ∧
      (expectedSpace = none ∨ expectedSpace = some (String.ofList document.spaceId)) ∧
      newTermStore (String.ofList document.spaceId) = .ok s ∧ (torn = none ↔ rest = []) ∧
      db = openedDb (Fram.appendFrames Γ s (sealed ++ tail)) (String.ofList document.spaceId)
        (if 4 ≤ rest.length then none else some deflate) torn repairTorn ∧
      files' = openedFiles files (tailOf store branch) bytes rest torn repairTorn := by
  unfold openChain at h
  rw [branchTailPath_ok hb] at h
  simp only [ExceptList.bind_eq_ok_iff] at h
  obtain ⟨_, hpath, members, hread, ⟨parsed, member⟩, htail, h⟩ := h
  cases hpath
  dsimp only at h
  split at h
  · cases h
  rename_i hspace
  rw [expectedSpace_any_iff, not_not] at hspace
  split at h
  · cases h
  rename_i hlaw
  obtain ⟨s, hs, s1, hsealed, s2, hreplay, h⟩ := by simpa only [ExceptList.bind_eq_ok_iff] using h
  obtain ⟨bytes, spaceId, deflate, continuation, tail, rest, hfile, hlog, rfl, hparsed⟩ := isLog_of_readChainMember htail
  rw [foldlM_replayFrames] at hsealed
  rw [hparsed.frames] at hreplay
  have hall : replayFrames Γ s (framesOf members ++ tail) = .ok s2 := by
    rw [replayFrames_append]
    exact ExceptList.bind_eq_ok_iff.2 ⟨s1, hsealed, hreplay⟩
  obtain ⟨hordered, hs2⟩ := (replayFrames_new_iff hs).1 hall
  have hpos := Positive.of_continues hordered (by omega)
  unfold chainFault at hlaw
  split at hlaw
  · cases hlaw
  obtain ⟨hchain, htailLaw⟩ := sealedIn_of_read hread hlaw fun f hf => hpos f (List.mem_append_left _ hf)
  rw [Nat.zero_add] at htailLaw
  obtain ⟨hid, hcont, hstarts⟩ := (tailFault_eq_none_iff fun f hf => hpos f (List.mem_append_right _ hf)).1 htailLaw
  have hid : String.ofList document.spaceId = spaceId := by rw [hid, String.ofList_toList]
  cases h
  refine ⟨framesOf members, tail, bytes, deflate, rest, s, parsed.tornTail, ⟨hchain, hfile, ?_, hstarts, hordered⟩, hspace, hs,
    hparsed.torn, ?_, ?_⟩
  · rw [hid, ← hcont]
    exact hlog
  · rw [hs2, hparsed.deflate]
    rfl
  · have hv := hparsed.valid
    rw [openedFiles, show bytes.length - rest.length = parsed.validBytes by omega]

/-- A branch that its ref folds opens. -/
theorem Folds.openChain {Γ : Host} (h : Folds J files store branch document sealed tail bytes deflate rest) (hb : validBranchName branch = true)
    (hspace : expectedSpace = none ∨ expectedSpace = some (String.ofList document.spaceId)) (repairTorn : Bool) :
    ∃ s torn, newTermStore (String.ofList document.spaceId) = .ok s ∧ (torn = none ↔ rest = []) ∧
      openChain Γ J files store branch document expectedSpace repairTorn =
        .ok (openedDb (Fram.appendFrames Γ s (sealed ++ tail)) (String.ofList document.spaceId)
          (if 4 ≤ rest.length then none else some deflate) torn repairTorn,
          openedFiles files (tailOf store branch) bytes rest torn repairTorn) := by
  have hpos := Positive.of_continues h.ordered (by omega)
  have hid : document.spaceId = (String.ofList document.spaceId).toList := by rw [String.toList_ofList]
  obtain ⟨members, hread, hframes, hlength, hlaw⟩ := h.chain.read hid fun f hm => hpos f (List.mem_append_left _ hm)
  obtain ⟨parsed, hmember, hparsed⟩ := h.log.readChainMember h.file
  obtain ⟨s, hs⟩ := exists_newTermStoreSized h.log.space 0 0 0
  have hs : newTermStore (String.ofList document.spaceId) = .ok s := hs
  have hreplay : replayFrames Γ s (framesOf members ++ parsed.frames) = .ok (Fram.appendFrames Γ s (sealed ++ tail)) := by
    rw [hframes, hparsed.frames]
    exact (replayFrames_new_iff hs).2 ⟨h.ordered, rfl⟩
  rw [replayFrames_append] at hreplay
  obtain ⟨s1, h1, h2⟩ := ExceptList.bind_eq_ok_iff.1 hreplay
  have hchain : chainFault document (members.map (·.2)) (memberOf (String.ofList document.spaceId) bytes.length
      (decide (0 < document.segments.length)) tail (decide (rest ≠ []))) = none := by
    unfold chainFault
    rw [if_neg (by rw [List.length_map, hlength]; simp), hlaw, Nat.zero_add]
    exact (tailFault_eq_none_iff fun f hm => hpos f (List.mem_append_right _ hm)).2 ⟨by rw [String.toList_ofList], rfl, h.starts⟩
  refine ⟨s, parsed.tornTail, hs, hparsed.torn, ?_⟩
  have hv := hparsed.valid
  unfold Database.openChain
  rw [branchTailPath_ok hb]
  refine ExceptList.bind_eq_ok_iff.2 ⟨_, rfl, ExceptList.bind_eq_ok_iff.2 ⟨_, hread, ExceptList.bind_eq_ok_iff.2 ⟨_, hmember, ?_⟩⟩⟩
  dsimp only
  rw [if_neg (by rw [expectedSpace_any_iff, not_not]; exact hspace), hchain]
  dsimp only
  refine ExceptList.bind_eq_ok_iff.2 ⟨_, hs, ExceptList.bind_eq_ok_iff.2 ⟨_, (foldlM_replayFrames members s).trans h1,
    ExceptList.bind_eq_ok_iff.2 ⟨_, h2, ?_⟩⟩⟩
  rw [hparsed.deflate, openedFiles, show bytes.length - rest.length = parsed.validBytes by omega]
  rfl

/-- A log that continues no chain opens exactly when its frames continue the empty history. -/
theorem IsLog.openDatabase {Γ : Host} {spaceId : String} {frames : List TransactionFrame}
    (h : IsLog J bytes spaceId deflate false frames rest) (hspace : expectedSpace = none ∨ expectedSpace = some spaceId)
    (repairTorn : Bool) : (Continues 1 frames → ∃ s torn, newTermStore spaceId = .ok s ∧ (torn = none ↔ rest = []) ∧
      Database.openDatabase Γ J bytes expectedSpace repairTorn =
        .ok (openedDb (Fram.appendFrames Γ s frames) spaceId (if 4 ≤ rest.length then none else some deflate) torn repairTorn,
          if torn.isSome ∧ repairTorn then bytes.take (bytes.length - rest.length) else bytes)) ∧
    (¬Continues 1 frames → ∃ fault, Database.openDatabase Γ J bytes expectedSpace repairTorn = .error fault) := by
  obtain ⟨parsed, hp, hparsed⟩ := @IsLog.parse _ _ _ _ _ _ _ h false nofun
  obtain ⟨s, hs⟩ := exists_newTermStoreSized h.space 0 0 0
  have hs : newTermStore spaceId = .ok s := hs
  have hv := hparsed.valid
  have hrun : Database.openDatabase Γ J bytes expectedSpace repairTorn = (replayFrames Γ s frames >>= fun context =>
      .ok (openedDb context spaceId (if 4 ≤ rest.length then none else some deflate) parsed.tornTail repairTorn,
        if parsed.tornTail.isSome ∧ repairTorn then bytes.take (bytes.length - rest.length) else bytes)) := by
    unfold Database.openDatabase openedDb
    rw [hp]
    simp only [bind, Except.bind]
    rw [hparsed.space, if_neg (by rw [expectedSpace_any_iff, not_not]; exact hspace), hs, hparsed.frames, hparsed.deflate,
      show bytes.length - rest.length = parsed.validBytes by omega]
  rw [hrun]
  constructor
  · intro hc
    refine ⟨s, parsed.tornTail, hs, hparsed.torn, ?_⟩
    rw [(replayFrames_new_iff hs).2 ⟨hc, rfl⟩]
    rfl
  · intro hc
    cases hr : replayFrames Γ s frames with
    | error fault => exact ⟨fault, rfl⟩
    | ok s' => exact absurd ((replayFrames_new_iff hs).1 hr).1 hc

/-- What opens as a log is a log that continues no chain. -/
theorem isLog_of_openDatabase {log : Bytes} (h : Database.openDatabase Γ J bytes expectedSpace repairTorn = .ok (db, log)) :
    ∃ spaceId deflate frames rest, IsLog J bytes spaceId deflate false frames rest ∧ Continues 1 frames ∧
      (expectedSpace = none ∨ expectedSpace = some spaceId) := by
  obtain ⟨deflate, spaceId, stored, frames, rest, rfl, hne, hsize, hst, hcut, hc, he⟩ := generation_of_openDatabase h
  exact ⟨spaceId, deflate, frames, rest, ⟨hne, hsize, ⟨stored, by rw [logHeader_false], hst⟩, hcut⟩, hc, he⟩

end Opening

/-! ## The files of a branch store -/

open Lines (Text)

/-! ## Paths -/

section Paths

variable {store branch name : Text}

@[simp] theorem put_self (files : Files) (path : Text) (content : Option Bytes) : files.put path content path = content := if_pos rfl

theorem put_ne {files : Files} {path other : Text} (h : other ≠ path) (content : Option Bytes) :
    files.put path content other = files other := if_neg h

theorem tailOf_cases (store branch : Text) :
    tailOf store branch = store ∨ tailOf store branch = fileIn (branchesDirectory store) branch := by
  unfold tailOf
  split
  · exact Or.inl rfl
  · exact Or.inr rfl

theorem store_ne_append {more : Text} (h : more ≠ []) : store ≠ store ++ more := by
  intro he
  have := congrArg List.length he
  rw [List.length_append] at this
  exact h (List.length_eq_zero_iff.1 (by omega))

theorem tailOf_ne_marker : tailOf store branch ≠ forkMarkerPath store := by
  rcases tailOf_cases store branch with h | h
  · rw [h]
    exact store_ne_append (by decide)
  · rw [h, fileIn, branchesDirectory, forkMarkerPath, List.append_assoc]
    exact fun he => by simpa using List.append_cancel_left he

theorem tailOf_ne_ref : tailOf store branch ≠ fileIn (refsDirectory store) name := by
  rcases tailOf_cases store branch with h | h
  · rw [h, fileIn, refsDirectory, List.append_assoc]
    exact store_ne_append (by simp)
  · rw [h, fileIn, fileIn, branchesDirectory, refsDirectory, List.append_assoc, List.append_assoc]
    exact fun he => by simpa using List.append_cancel_left he

theorem tailOf_ne_segment : tailOf store branch ≠ fileIn (segmentsDirectory store) name := by
  rcases tailOf_cases store branch with h | h
  · rw [h, fileIn, segmentsDirectory, List.append_assoc]
    exact store_ne_append (by simp)
  · rw [h, fileIn, fileIn, branchesDirectory, segmentsDirectory, List.append_assoc, List.append_assoc]
    exact fun he => by simpa using List.append_cancel_left he

end Paths

/-! ## What a branch is read from -/

/-- The sealed segments of a branch. -/
def sealedSegments (files : Files) (store branch : Text) : List SegmentRecord :=
  match readBranchRef files store branch with
  | .ok (some document) => document.segments
  | _ => []

section Reading

variable {Γ : Host} {J : Gzip} {files files' : Files} {store branch : Text} {spaceId : String}

theorem SegmentIs.congr {segment : SegmentRecord} {continuation : Bool} {frames : List TransactionFrame}
    (h : SegmentIs J files store spaceId segment continuation frames)
    (hs : files' (fileIn (segmentsDirectory store) segment.sha256) = files (fileIn (segmentsDirectory store) segment.sha256)) :
    SegmentIs J files' store spaceId segment continuation frames :=
  ⟨h.name, by rw [hs]; exact h.log, h.start, h.last⟩

/-- A chain is read from the files of its segments. -/
theorem SealedIn.congr {index : Nat} {next : Int} {segments : List SegmentRecord} {frames : List TransactionFrame}
    (h : SealedIn J files store spaceId index next segments frames) (hs : ∀ segment ∈ segments,
      files' (fileIn (segmentsDirectory store) segment.sha256) = files (fileIn (segmentsDirectory store) segment.sha256)) :
    SealedIn J files' store spaceId index next segments frames := by
  induction h with
  | nil => exact .nil
  | cons hsegment hstart _ ih =>
    rw [List.forall_mem_cons] at hs
    exact .cons (hsegment.congr hs.1) hstart (ih hs.2)

/-- A marker is read from its file. -/
theorem requireNoPendingFork_ok_iff : requireNoPendingFork files store = .ok () ↔ files (forkMarkerPath store) = none := by
  unfold requireNoPendingFork
  cases files (forkMarkerPath store) <;> simp

/-- A ref is read from its file. -/
theorem readBranchRef_congr (h : files' (fileIn (refsDirectory store) branch) = files (fileIn (refsDirectory store) branch)) :
    readBranchRef files' store branch = readBranchRef files store branch := by
  unfold readBranchRef
  by_cases hb : validBranchName branch = true
  · rw [refPath_ok hb]
    simp only [bind, Except.bind]
    rw [h]
  · unfold refPath requireBranchName branchFail
    rw [if_neg hb]
    rfl

theorem strictUtf8String_textBytes (text : Text) (label : String) : strictUtf8String (textBytes text) label = .ok text := by
  unfold strictUtf8String textBytes
  rw [utf8Decode_eq_some_iff.2 rfl]
  simp

/-- A ref that is stored as its print, and read back from it. -/
theorem readBranchRef_of_printRef {document : RefDocument} (hb : validBranchName branch = true)
    (hf : files (fileIn (refsDirectory store) branch) = some (textBytes (printRef document)))
    (hp : parseRef (printRef document) = .ok document) : readBranchRef files store branch = .ok (some document) := by
  unfold readBranchRef
  rw [refPath_ok hb]
  simp only [bind, Except.bind]
  rw [hf]
  dsimp only
  rw [strictUtf8String_textBytes]
  dsimp only
  rw [hp]

/-- A branch that is opened has a usable name. -/
theorem validBranchName_of_readBranchRef {document : Option RefDocument} (h : readBranchRef files store branch = .ok document) :
    validBranchName branch = true := by
  by_contra hb
  unfold readBranchRef refPath requireBranchName branchFail at h
  rw [if_neg hb] at h
  cases h

/-- A branch opens by its ref, or it is the default branch and opens as a log. -/
theorem openBranch_ok_iff {expectedSpace : Option String} {repairTorn : Bool} {r : Db × Files} :
    openBranch Γ J files store branch expectedSpace repairTorn = .ok r ↔ files (forkMarkerPath store) = none ∧
      ((∃ document, readBranchRef files store branch = .ok (some document) ∧
          openChain Γ J files store branch document expectedSpace repairTorn = .ok r) ∨
        (branch = defaultBranch ∧ readBranchRef files store branch = .ok none ∧ ∃ bytes db log, files store = some bytes ∧
          openDatabase Γ J bytes expectedSpace repairTorn = .ok (db, log) ∧ r = (db, files.put store (some log)))) := by
  unfold openBranch
  simp only [ExceptList.bind_eq_ok_iff]
  constructor
  · rintro ⟨u, hm, document, hd, h⟩
    refine ⟨requireNoPendingFork_ok_iff.1 hm, ?_⟩
    cases document with
    | some document => exact Or.inl ⟨document, hd, h⟩
    | none =>
      dsimp only at h
      split at h
      · rename_i hbranch
        unfold openDatabaseFile requireLog at h
        simp only [ExceptList.bind_eq_ok_iff] at h
        obtain ⟨_, -, bytes, hb, ⟨db, log⟩, ho, h⟩ := h
        cases hf : files store with
        | none =>
          rw [hf] at hb
          cases hb
        | some bytes' =>
          rw [hf] at hb
          cases hb
          cases h
          exact Or.inr ⟨hbranch, hd, bytes, db, log, rfl, ho, rfl⟩
      · cases h
  · rintro ⟨hm, ⟨document, hd, h⟩ | ⟨hbranch, hd, bytes, db, log, hf, ho, rfl⟩⟩
    · exact ⟨(), requireNoPendingFork_ok_iff.2 hm, some document, hd, h⟩
    · refine ⟨(), requireNoPendingFork_ok_iff.2 hm, none, hd, ?_⟩
      dsimp only
      rw [if_pos hbranch]
      unfold openDatabaseFile requireLog
      rw [hf]
      exact ExceptList.bind_eq_ok_iff.2 ⟨(), requireNoPendingFork_ok_iff.2 hm, ExceptList.bind_eq_ok_iff.2 ⟨bytes, rfl,
        ExceptList.bind_eq_ok_iff.2 ⟨(db, log), ho, rfl⟩⟩⟩

end Reading

end Fram.Database
