import Fram.Lemmas.Branch
import Fram.Lemmas.Forking
import Fram.Lemmas.Reconcile

/-!
# Runs of a branch store

Between forks every branch of a store is folded by its ref to its history (`Branches`). A fork that is on its way has an end at which
this is so (`Underway`). Both are kept by commits, and by forks that are interrupted anywhere (`Kept.step`).
-/

namespace Fram.Database

open Lines (Text)

/-! ## Branches that hold their histories -/

/-- What the ref of a branch says: the default branch need not have one. -/
def RefIs (files : Files) (store branch : Text) (document : RefDocument) : Prop :=
  files (refOf store branch) = some (textBytes (printRef document)) ∨
    (branch = defaultBranch ∧ files (refOf store branch) = none ∧ document.segments = [])

/-- The branch is folded to a history, and its tail is whole. -/
structure Holds (J : Gzip) (files : Files) (store : Text) (spaceId : String) (branch : Text) (frames : List TransactionFrame) : Prop where
  name : validBranchName branch = true
  folds : ∃ document sealed tail bytes deflate, Folds J files store branch document sealed tail bytes deflate [] ∧
    frames = sealed ++ tail ∧ document.spaceId = spaceId.toList ∧ document.Readable ∧ RefIs files store branch document

/-- Every branch with a history is folded to it, and every segment has the name of its content. -/
structure Branches (D : Digest) (J : Gzip) (files : Files) (store : Text) (spaceId : String)
    (histories : Text → Option (List TransactionFrame)) : Prop where
  named : ∀ name content, files (segmentOf store name) = some content → name = D.sha256Hex content
  holds : ∀ branch frames, histories branch = some frames → Holds J files store spaceId branch frames

section Holding

variable {Γ : Host} {J : Gzip} {files files' : Files} {store branch : Text} {spaceId : String} {frames : List TransactionFrame}
  {document : RefDocument}

theorem SealedIn.keep {index : Nat} {next : Int} {segments : List SegmentRecord}
    (h : SealedIn J files store spaceId index next segments frames)
    (hs : ∀ name content, files (segmentOf store name) = some content → files' (segmentOf store name) = some content) :
    SealedIn J files' store spaceId index next segments frames := by
  induction h with
  | nil => exact .nil
  | cons hsegment hstart _ ih =>
    obtain ⟨bytes, deflate, hb, hlog⟩ := hsegment.log
    exact .cons ⟨hsegment.name, ⟨bytes, deflate, hs _ _ hb, hlog⟩, hsegment.start, hsegment.last⟩ hstart ih

/-- A branch is folded where its files are. -/
theorem Folds.keep {sealed tail : List TransactionFrame} {bytes rest : Bytes} {deflate : Bool}
    (h : Folds J files store branch document sealed tail bytes deflate rest) (ht : files' (tailOf store branch) = some bytes)
    (hs : ∀ name content, files (segmentOf store name) = some content → files' (segmentOf store name) = some content) :
    Folds J files' store branch document sealed tail bytes deflate rest :=
  ⟨h.chain.keep hs, ht, h.log, h.starts, h.ordered⟩

theorem Holds.keep (h : Holds J files store spaceId branch frames) (hr : files' (refOf store branch) = files (refOf store branch))
    (ht : ∀ bytes, files (tailOf store branch) = some bytes → files' (tailOf store branch) = some bytes)
    (hs : ∀ name content, files (segmentOf store name) = some content → files' (segmentOf store name) = some content) :
    Holds J files' store spaceId branch frames := by
  obtain ⟨document, sealed, tail, bytes, deflate, hf, hframes, hspace, hreadable, href⟩ := h.folds
  refine ⟨h.name, document, sealed, tail, bytes, deflate, hf.keep (ht bytes hf.file) hs, hframes, hspace, hreadable, ?_⟩
  unfold RefIs at href ⊢
  rwa [hr]

/-- The ref of a branch is read as it says. -/
theorem RefIs.read (h : RefIs files store branch document) (hb : validBranchName branch = true) (hr : document.Readable)
    (hone : OnOneLine document.spaceId) : readBranchRef files store branch = .ok (some document) ∨
      (branch = defaultBranch ∧ readBranchRef files store branch = .ok none ∧ document.segments = []) := by
  rcases h with h | ⟨hmain, h, hnil⟩
  · exact Or.inl (readBranchRef_of_printRef hb h (parseRef_printRef_iff.2 ⟨hr, hone⟩))
  · refine Or.inr ⟨hmain, ?_, hnil⟩
    unfold readBranchRef
    rw [refPath_ok hb]
    simp only [bind, Except.bind]
    rw [h]

theorem put_same {path : Text} {content : Bytes} (h : files path = some content) : files.put path (some content) = files := by
  funext p
  by_cases he : p = path
  · rw [he, put_self, h]
  · exact put_ne he _

/-- A branch that its ref folds opens, and opening it changes no file. -/
theorem Folds.opens {sealed tail : List TransactionFrame} {bytes : Bytes} {deflate : Bool}
    (h : Folds J files store branch document sealed tail bytes deflate []) (hb : validBranchName branch = true)
    (hid : document.spaceId = spaceId.toList) (hr : document.Readable) (href : RefIs files store branch document)
    (hone : OnOneLine spaceId.toList) (hm : files (forkMarkerPath store) = none) {expectedSpace : Option String}
    (hspace : expectedSpace = none ∨ expectedSpace = some spaceId) (repairTorn : Bool) :
    ∃ db, Database.openBranch Γ J files store branch expectedSpace repairTorn = .ok (db, files) ∧ db.termStore.spaceId = spaceId ∧
      Ready Γ (some deflate) (sealed ++ tail) db := by
  have hstore {s : TermStore} (hs : newTermStore spaceId = .ok s) (frames : List TransactionFrame) :
      (Fram.appendFrames Γ s frames).spaceId = spaceId := by
    obtain ⟨-, hspace, -⟩ := represents_newTermStoreSized Γ hs
    exact (appendFrames_spaceId s frames).trans hspace
  have hstring : String.ofList document.spaceId = spaceId := by rw [hid, String.ofList_toList]
  rcases href.read hb hr (hid ▸ hone) with hd | ⟨hmain, hd, hnil⟩
  · obtain ⟨s, torn, hs, htorn, hopen⟩ := h.openChain (Γ := Γ) hb (hstring ▸ hspace) repairTorn
    obtain rfl := htorn.2 rfl
    rw [show openedFiles files (tailOf store branch) bytes [] none repairTorn = files from if_neg (by simp)] at hopen
    refine ⟨_, openBranch_ok_iff.2 ⟨hm, Or.inl ⟨document, hd, hopen⟩⟩, hstore (hstring ▸ hs) _, ?_⟩
    exact ready_openedDb hs h.ordered (by cases repairTorn <;> rfl)
  · have hsealed : sealed = [] := by
      have hchain := h.chain
      rw [hnil] at hchain
      cases hchain
      rfl
    have hlog := h.log
    rw [hstring, hnil] at hlog
    have htail : tailOf store branch = store := by rw [hmain, tailOf, if_pos rfl]
    have hfile : files store = some bytes := by
      rw [← htail]
      exact h.file
    have hc := h.ordered
    rw [hsealed] at hc ⊢
    obtain ⟨s, torn, hs, htorn, hopen⟩ := (hlog.openDatabase (Γ := Γ) hspace repairTorn).1 hc
    obtain rfl := htorn.2 rfl
    refine ⟨openedDb (Fram.appendFrames Γ s tail) spaceId (some deflate) none repairTorn,
      openBranch_ok_iff.2 ⟨hm, Or.inr ⟨hmain, hd, bytes, _, bytes, hfile, hopen, ?_⟩⟩, hstore hs _,
      ready_openedDb hs hc (by cases repairTorn <;> rfl)⟩
    rw [put_same hfile]
    rfl

/-- Opening a branch changes no file but its tail. -/
theorem openBranch_frame {expectedSpace : Option String} {repairTorn : Bool} {db : Db}
    (h : Database.openBranch Γ J files store branch expectedSpace repairTorn = .ok (db, files')) {path : Text}
    (hp : path ≠ tailOf store branch) : files' path = files path := by
  obtain ⟨-, ⟨document, hd, h⟩ | ⟨hmain, -, bytes, db, log, -, -, hr⟩⟩ := openBranch_ok_iff.1 h
  · obtain ⟨sealed, tail, bytes, deflate, rest, s, torn, -, -, -, -, -, rfl⟩ := folds_of_openChain (validBranchName_of_readBranchRef hd) h
    exact openedFiles_ne hp _ _ _ _
  · cases hr
    rw [hmain, tailOf, if_pos rfl] at hp
    exact put_ne hp _

end Holding

/-! ## Commits -/

section Commits

variable {Γ : Host} {D : Digest} {J : Gzip} {files files' : Files} {store branch : Text} {spaceId : String}
  {frames : List TransactionFrame} {histories : Text → Option (List TransactionFrame)}

/-- A commit to a branch adds its frames to the history of the branch. -/
theorem Holds.committed (h : Holds J files store spaceId branch frames) (hone : OnOneLine spaceId.toList)
    (hm : files (forkMarkerPath store) = none) (hnext : nextOf 1 frames ≤ maxTransactionSequence) {db : Db}
    (ho : Database.openBranch Γ J files store branch none true = .ok (db, files')) {log : Bytes}
    (hl : log = (files' (tailOf store branch)).getD []) (operations : List CommitOperation) :
    Holds J (files'.put (tailOf store branch) (some (log ++ (Database.commit Γ J log db false operations).appended))) store spaceId branch
      (frames ++ (Database.commit Γ J log db false operations).written) := by
  obtain ⟨document, sealed, tail, bytes, deflate, hf, rfl, hspace, hreadable, href⟩ := h.folds
  obtain ⟨db', hopen, -, hready⟩ := hf.opens (Γ := Γ) h.name hspace hreadable href hone hm (Or.inl rfl) true
  rw [ho, Except.ok.injEq, Prod.mk.injEq] at hopen
  obtain ⟨rfl, rfl⟩ := hopen
  obtain rfl : log = bytes := by rw [hl, hf.file]; rfl
  have hext : Extends Γ J deflate (some deflate) (sealed ++ tail) (Database.commit Γ J log db false operations) :=
    hready.commit rfl (hready.nextSequence ▸ hnext) operations
  have hstart := @startsAt_commit Γ J log db operations
  rw [hready.nextSequence, nextOf_append] at hstart
  obtain ⟨stored, happended, hstored⟩ := hext.appended
  have hnil : Records.Cut integerMax [] := Or.inl (by simp)
  have hlog := hf.log.extend hstored hnil
  rw [List.append_nil, ← happended] at hlog
  have hother {other : Text} (hne : tailOf store branch ≠ other) (content : Option Bytes) :
      files'.put (tailOf store branch) content other = files' other := put_ne hne.symm _
  refine ⟨h.name, document, sealed, tail ++ _, _, deflate, ⟨?_, put_self _ _ _, hlog, hf.starts.append hstart, ?_⟩,
    List.append_assoc _ _ _, hspace, hreadable, ?_⟩
  · exact hf.chain.congr fun segment _ => hother tailOf_ne_segment _
  · rw [← List.append_assoc]
    exact hext.ordered
  · unfold RefIs at href ⊢
    rwa [hother tailOf_ne_ref]

/-- A commit to one branch is in no other. -/
theorem Branches.committed (h : Branches D J files store spaceId histories) (hone : OnOneLine spaceId.toList)
    (hm : files (forkMarkerPath store) = none)
    (hnext : ∀ frames, histories branch = some frames → nextOf 1 frames ≤ maxTransactionSequence) {db : Db}
    (ho : Database.openBranch Γ J files store branch none true = .ok (db, files')) {log : Bytes}
    (hl : log = (files' (tailOf store branch)).getD []) (operations : List CommitOperation) :
    Branches D J (files'.put (tailOf store branch) (some (log ++ (Database.commit Γ J log db false operations).appended))) store spaceId
      (wrote histories branch (Database.commit Γ J log db false operations).written) := by
  have hframe {path : Text} (hp : path ≠ tailOf store branch) (content : Option Bytes) :
      files'.put (tailOf store branch) content path = files path := by rw [put_ne hp, openBranch_frame ho hp]
  refine ⟨fun name content hs => ?_, fun b frames hb => ?_⟩
  · rw [hframe tailOf_ne_segment.symm] at hs
    exact h.named name content hs
  · unfold wrote at hb
    split at hb
    · rename_i he
      subst he
      obtain ⟨frames, hframes, rfl⟩ := Option.map_eq_some_iff.1 hb
      exact (h.holds b frames hframes).committed hone hm (hnext frames hframes) ho hl operations
    · rename_i he
      refine (h.holds b frames hb).keep (hframe tailOf_ne_ref.symm _) (fun bytes ht => ?_) fun name content hs => ?_
      · rw [hframe (fun hq => he (tailOf_inj.1 hq))]
        exact ht
      · rw [hframe tailOf_ne_segment.symm]
        exact hs

end Commits

end Fram.Database
