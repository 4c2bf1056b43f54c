import Fram.Lemmas.EventAt
import Fram.Lemmas.Historical
import Fram.Lemmas.Server
import Fram.Lemmas.ResultCache
import Fram.Lemmas.Rpc
import Fram.Lemmas.Run

/-!
# Scans of a session

A scan at a version answers what stood at the version, from the session's rotation, from a store rebuilt for the version, or from the
cache. What is done to a session between two requests keeps it the session of a longer history, and the rows in its cache those of
their versions (`Serves.step`).
-/

namespace Fram

/-- The frames up to a version. -/
def framesUpTo (frames : List TransactionFrame) (version : Int) : List TransactionFrame :=
  frames.filter fun f => decide (f.sequence ≤ version)

/-- What a scan at a version is for: the propositions of what stands there and is equal to the bound positions, in commit order. -/
def Reference.scanRows (spaceId : String) (frames : List TransactionFrame) (version : Int) (pattern : Dispatch.Pattern) : List Triple :=
  ((Reference.liveOccurrences spaceId (logOf (framesUpTo frames version))).filter
    (boundTo pattern.t1 pattern.t2 pattern.t3)).map (·.proposition)

/-! ## Versions -/

section Versions

variable {frames : List TransactionFrame} {version next : Int}

/-- A version ends the frames up to it. -/
theorem framesUpTo_ends (h : (frames.map (·.sequence)).Pairwise (· < ·)) (version : Int) :
    ∃ rest, frames = framesUpTo frames version ++ rest ∧ Ends version (framesUpTo frames version) rest := by
  induction frames with
  | nil => exact ⟨[], rfl, ⟨by simp [framesUpTo], by simp⟩⟩
  | cons f frames ih =>
    rw [List.map_cons, List.pairwise_cons] at h
    obtain ⟨rest, heq, he⟩ := ih h.2
    by_cases hf : f.sequence ≤ version
    · have hup : framesUpTo (f :: frames) version = f :: framesUpTo frames version := by simp [framesUpTo, hf]
      refine ⟨rest, by rw [hup, List.cons_append, ← heq], ⟨?_, he.lower⟩⟩
      rw [hup]
      exact List.forall_mem_cons.2 ⟨hf, he.upper⟩
    · have hlater : ∀ g ∈ f :: frames, version < g.sequence := by
        refine List.forall_mem_cons.2 ⟨by omega, fun g hg => ?_⟩
        have := h.1 _ (List.mem_map_of_mem hg)
        omega
      have hup : framesUpTo (f :: frames) version = [] :=
        List.filter_eq_nil_iff.2 fun g hg => by
          have := hlater g hg
          simp only [decide_eq_true_eq]
          omega
      refine ⟨f :: frames, by rw [hup, List.nil_append], ⟨?_, hlater⟩⟩
      rw [hup]
      simp

/-- Later frames do not change what is up to a version. -/
theorem framesUpTo_append {later : List TransactionFrame} (h : ∀ f ∈ later, version < f.sequence) :
    framesUpTo (frames ++ later) version = framesUpTo frames version := by
  have hnone : later.filter (fun f => decide (f.sequence ≤ version)) = [] :=
    List.filter_eq_nil_iff.2 fun f hf => by
      have := h f hf
      simp only [decide_eq_true_eq]
      omega
  simp only [framesUpTo, List.filter_append, hnone, List.append_nil]

/-- Up to the newest version are all frames. -/
theorem framesUpTo_newest (h : ∀ f ∈ frames, f.sequence ≤ version) : framesUpTo frames version = frames :=
  List.filter_eq_self.2 fun f hf => decide_eq_true (h f hf)

end Versions

/-! ## Rows -/

section Rows

variable {Γ : Host} {session : Session} {spaceId : String} {frames : List TransactionFrame}

/-- A rotation that covers frames scans what stands of them. -/
theorem Covers.scanRows {r : Rotation} {next : Int} (h : Covers Γ r spaceId frames) (ha : Advances frames next)
    (pattern : Dispatch.Pattern) : List.Forall₂ Triple.same (Dispatch.scanRows Γ r pattern)
      (((Reference.liveOccurrences spaceId (logOf frames)).filter (boundTo pattern.t1 pattern.t2 pattern.t3)).map (·.proposition)) := by
  have hsame : List.Forall₂ OperationOccurrence.same (Reference.liveOccurrences spaceId (logOf frames))
      (Reference.liveOccurrences spaceId (logOf frames)) := List.forall₂_same.2 fun o _ => ⟨rfl, rfl, Triple.same_refl _⟩
  have hmatching := (h.toFollows.agrees ha hsame).matching pattern.t1 pattern.t2 pattern.t3
  unfold Dispatch.scanRows
  rw [List.forall₂_map_left_iff, List.forall₂_map_right_iff]
  exact hmatching.imp fun _ _ ho => ho.2.2

/-- The rotation of a scan at a version covers the frames up to it. -/
theorem SessionFor.scanRotation (h : SessionFor Γ session spaceId frames) (version : Int) : ∃ r next,
    Dispatch.scanRotation Γ session version = .ok r ∧ Covers Γ r spaceId (framesUpTo frames version) ∧ Advances (framesUpTo frames version) next :=
    by
  have hadvances := h.represents.advances
  unfold Dispatch.scanRotation
  by_cases hcur : version = currentSequence session.store
  · have hall : framesUpTo frames version = frames := framesUpTo_newest fun f hf => by
      have := hadvances.upper f hf
      rw [hcur, currentSequence]
      omega
    rw [if_pos hcur, hall]
    exact ⟨session.view, _, rfl, h.covers, hadvances⟩
  · obtain ⟨rest, heq, hends⟩ := framesUpTo_ends hadvances.sorted version
    have hrep := h.represents
    rw [heq] at hrep
    obtain ⟨copy, hcopy, hof⟩ := hrep.historicalRoot hends
    obtain ⟨r, hr, hc⟩ := project_ok hof.represents
    rw [if_neg hcur]
    refine ⟨r, _, by simp only [hcopy, bind, Except.bind]; exact hr, ?_, hof.represents.advances⟩
    rwa [hof.space.trans h.space] at hc

/-- A scan that is not in the cache. -/
theorem SessionFor.scanRows (h : SessionFor Γ session spaceId frames) (version : Int) (pattern : Dispatch.Pattern) :
    ∃ r, Dispatch.scanRotation Γ session version = .ok r ∧
      List.Forall₂ Triple.same (Dispatch.scanRows Γ r pattern) (Reference.scanRows spaceId frames version pattern) := by
  obtain ⟨r, next, hr, hc, ha⟩ := h.scanRotation version
  exact ⟨r, hr, hc.scanRows ha pattern⟩

/-- A commit adds a frame to the history of a session. -/
theorem SessionFor.commit (h : SessionFor Γ session spaceId frames) {operations : List CommitOperation} {session' : Session}
    (hc : session.commit Γ operations = .ok session') :
    SessionFor Γ session' spaceId (frames ++ [⟨session.store.nextSequence, operations⟩]) ∧
      session'.orderedResults = session.orderedResults := by
  unfold Session.commit at hc
  cases ht : commitTransaction Γ session.store operations with
  | error e =>
    rw [ht] at hc
    cases hc
  | ok result =>
    obtain ⟨store, coordinate⟩ := result
    obtain ⟨rfl, hrep⟩ := h.represents.appendTransaction ht
    have hspace := (@appendValidTransaction_spaceId Γ _ session.store.nextSequence operations).trans h.space
    obtain ⟨r, hr, hcovers⟩ := refresh_ok (hspace.symm ▸ h.covers) hrep
    simp only [ht, refreshSession, hr, bind, Except.bind] at hc
    cases hc
    exact ⟨⟨hrep, hspace, hspace ▸ hcovers⟩, rfl⟩

end Rows

/-! ## Sessions that serve -/

/-- The payloads are those of requests read off the wire, and no two of them that differ have one digest. -/
structure Distinguished (R : Reads) (payloads : Term → Prop) : Prop where
  ranged : ∀ p, payloads p → p.Ranged
  apart : ∀ p q, payloads p → payloads q → R.sha256 p.bytes = R.sha256 q.bytes → p.bytes = q.bytes

/-- What moves a session between two requests of a client: commits, scans of other clients, what the other operations look up and
retain in the cache, and evictions. -/
inductive SessionStep (Γ : Host) (R : Reads) (payloads : Term → Prop) : Session → Session → Prop where
  | commit {session session' : Session} {operations : List CommitOperation} (h : session.commit Γ operations = .ok session') :
    SessionStep Γ R payloads session session'
  | scan {session session' : Session} {request : RpcRequest} {response : RpcResponse} (hp : payloads request.payload)
    (h : Dispatch.scanResponse Γ R session request (currentSequence session.store) = .ok (session', response)) :
    SessionStep Γ R payloads session session'
  | lookup (session : Session) (key : OrderedResultKey) : SessionStep Γ R payloads session (resultCacheLookup session key).1
  | retain (session : Session) {entry : OrderedResultEntry} (h : entry.key.operation ≠ ⟨"rpc/scan"⟩) :
    SessionStep Γ R payloads session (retainResultEntry session entry)
  | evict (session : Session) {cache : OrderedResultCache} (h : cache.entries ⊆ session.orderedResults.entries) :
    SessionStep Γ R payloads session { session with orderedResults := cache }

/-- A retained scan has the rows of its version. -/
structure ScanKept (R : Reads) (payloads : Term → Prop) (spaceId : String) (frames : List TransactionFrame) (current : Int)
    (entry : OrderedResultEntry) (payload : Term) (pattern : Dispatch.Pattern) (version : Int) : Prop where
  scanned : payloads payload
  parses : Dispatch.parsePattern payload = .ok pattern
  digests : Dispatch.canonicalTermSha256Result R payload = .ok entry.key.digest
  snapshot : entry.key.snapshot = ⟨spaceId, version, -1⟩
  newest : version ≤ current
  rows : List.Forall₂ Triple.same entry.tripleRows (Reference.scanRows spaceId frames version pattern)

/-- The session of a history, the scans in its cache those of their versions. -/
structure Serves (Γ : Host) (R : Reads) (payloads : Term → Prop) (session : Session) (spaceId : String)
    (frames : List TransactionFrame) : Prop extends SessionFor Γ session spaceId frames where
  kept : ∀ entry ∈ session.orderedResults.entries, entry.key.operation = ⟨"rpc/scan"⟩ →
    ∃ payload pattern version, ScanKept R payloads spaceId frames (currentSequence session.store) entry payload pattern version

section Serving

variable {Γ : Host} {R : Reads} {payloads : Term → Prop} {session session' : Session} {spaceId : String}
  {frames : List TransactionFrame}

/-- Payloads with one digest are one payload. -/
theorem Distinguished.eq (hd : Distinguished R payloads) {p q : Term} (hp : payloads p) (hq : payloads q) {digest : String}
    (h : Dispatch.canonicalTermSha256Result R p = .ok digest) (h' : Dispatch.canonicalTermSha256Result R q = .ok digest) : p = q := by
  unfold Dispatch.canonicalTermSha256Result at h h'
  cases hw : written (appendTerm p 0) with
  | error message =>
    rw [hw] at h
    cases h
  | ok bytes =>
    cases hw' : written (appendTerm q 0) with
    | error message =>
      rw [hw'] at h'
      cases h'
    | ok bytes' =>
      obtain ⟨rfl, hf⟩ := written_appendTerm hw
      obtain ⟨rfl, hf'⟩ := written_appendTerm hw'
      rw [hw] at h
      rw [hw'] at h'
      have hsha : R.sha256 p.bytes = R.sha256 q.bytes := (Except.ok.inj h).trans (Except.ok.inj h').symm
      exact Term.eq_of_bytes (hd.apart p q hp hq hsha) hf hf' (hd.ranged p hp) (hd.ranged q hq)

/-- The same session but for what is in its cache. -/
theorem Serves.recache (h : Serves Γ R payloads session spaceId frames) (hs : session'.store = session.store)
    (hv : session'.view = session.view) (he : ∀ entry ∈ session'.orderedResults.entries, entry.key.operation = ⟨"rpc/scan"⟩ →
      entry ∈ session.orderedResults.entries ∨ ∃ payload pattern version,
        ScanKept R payloads spaceId frames (currentSequence session.store) entry payload pattern version) :
    Serves Γ R payloads session' spaceId frames := by
  refine ⟨⟨hs ▸ h.represents, hs ▸ h.space, hv ▸ h.covers⟩, fun entry hentry hop => ?_⟩
  rw [hs]
  rcases he entry hentry hop with hold | hnew
  · exact h.kept entry hold hop
  · exact hnew

/-- A commit keeps the cached scans: they are of earlier versions. -/
theorem Serves.commit (h : Serves Γ R payloads session spaceId frames) {operations : List CommitOperation}
    (hc : session.commit Γ operations = .ok session') :
    Serves Γ R payloads session' spaceId (frames ++ [⟨session.store.nextSequence, operations⟩]) := by
  obtain ⟨hfor, hcache⟩ := h.toSessionFor.commit hc
  refine ⟨hfor, fun entry hentry hop => ?_⟩
  rw [hcache] at hentry
  obtain ⟨payload, pattern, version, hkept⟩ := h.kept entry hentry hop
  have hnewest := hkept.newest
  have hcur : currentSequence session'.store = session.store.nextSequence := by
    rw [hfor.represents.currentSequence]
    simp
  refine ⟨payload, pattern, version, hkept.scanned, hkept.parses, hkept.digests, hkept.snapshot, ?_, ?_⟩
  · rw [hcur]
    unfold currentSequence at hnewest
    omega
  · unfold Reference.scanRows
    rw [framesUpTo_append]
    · exact hkept.rows
    · intro f hf
      rw [List.mem_singleton.1 hf]
      unfold currentSequence at hnewest
      dsimp only
      omega

/-- The rows of a scan are those of its version, whether they are in the cache or not. -/
theorem Serves.scanResult (h : Serves Γ R payloads session spaceId frames) (hd : Distinguished R payloads) {payload : Term}
    (hp : payloads payload) {pattern : Dispatch.Pattern} (hpattern : Dispatch.parsePattern payload = .ok pattern) {digest : String}
    (hdigest : Dispatch.canonicalTermSha256Result R payload = .ok digest) {version : Int} (hv : version ≤ currentSequence session.store) :
    ∃ session' rows, Dispatch.scanResult Γ session (resultCacheKey session version (-1) ⟨"rpc/scan"⟩ digest) version pattern =
        .ok (session', rows) ∧ session'.store = session.store ∧ Serves Γ R payloads session' spaceId frames ∧
      List.Forall₂ Triple.same rows (Reference.scanRows spaceId frames version pattern) := by
  obtain ⟨hstore, hview, hentries, hfound⟩ := resultCacheLookup_spec session (resultCacheKey session version (-1) ⟨"rpc/scan"⟩ digest)
  have hlooked : Serves Γ R payloads (resultCacheLookup session (resultCacheKey session version (-1) ⟨"rpc/scan"⟩ digest)).1 spaceId
      frames := h.recache hstore hview fun entry hentry _ => Or.inl (hentries hentry)
  unfold Dispatch.scanResult
  cases hl : resultCacheLookup session (resultCacheKey session version (-1) ⟨"rpc/scan"⟩ digest) with
  | mk looked found =>
    rw [hl] at hstore hview hlooked hfound
    cases found with
    | some entry =>
      obtain ⟨hmem, hkey⟩ := hfound entry rfl
      obtain ⟨payload', pattern', version', hkept⟩ := h.kept entry hmem (by rw [hkey]; rfl)
      have hsnapshot := hkept.snapshot
      have hdigest' := hkept.digests
      rw [hkey] at hsnapshot hdigest'
      obtain rfl : payload = payload' := hd.eq hp hkept.scanned hdigest hdigest'
      obtain rfl : pattern = pattern' := Except.ok.inj (hpattern.symm.trans hkept.parses)
      obtain rfl : version = version' := congrArg OrderedResultSnapshot.version hsnapshot
      exact ⟨looked, entry.tripleRows, rfl, hstore, hlooked, hkept.rows⟩
    | none =>
      obtain ⟨r, hr, hrows⟩ := hlooked.toSessionFor.scanRows version pattern
      dsimp only
      simp only [hr, bind, Except.bind]
      refine ⟨_, _, rfl, hstore, ?_, hrows⟩
      refine hlooked.recache rfl rfl fun entry hentry hop => ?_
      rcases retainResultEntry_entries hentry with hold | rfl
      · exact Or.inl hold
      · refine Or.inr ⟨payload, pattern, version, hp, hpattern, hdigest, ?_, ?_, hrows⟩
        · rw [← h.space]
          rfl
        · rw [hstore]
          exact hv

/-- Where a page begins: at the cursor that the request carries, or at the first row of the newest version. -/
inductive BeginsAt (request : RpcRequest) (page : RpcPageRequest) (current : Int) : Dispatch.ScanCursor → Prop where
  | first (h : Dispatch.pageCursor page = none) : BeginsAt request page current ⟨current, 0, 0⟩
  | cursor {value : Term} {cursor : Dispatch.ScanCursor} (h : Dispatch.pageCursor page = some value)
    (hp : Dispatch.parseScanCursor value request.space request.payload = .ok cursor) : BeginsAt request page current cursor

/-- A scan of a page is answered from the rows of its version. -/
theorem Serves.scanPage (h : Serves Γ R payloads session spaceId frames) (hd : Distinguished R payloads) {request : RpcRequest}
    (hp : payloads request.payload) {pattern : Dispatch.Pattern} (hpattern : Dispatch.parsePattern request.payload = .ok pattern)
    {page : RpcPageRequest} (hpage : request.page = some page) (hlimit : 1 ≤ page.limit) (hlimit' : page.limit ≤ 200)
    {digest : String} (hdigest : Dispatch.canonicalTermSha256Result R request.payload = .ok digest) {cursor : Dispatch.ScanCursor}
    (hbegins : BeginsAt request page (currentSequence session.store) cursor) (hv : cursor.version ≤ currentSequence session.store) :
    ∃ session' rows, Dispatch.scanResponse Γ R session request (currentSequence session.store) =
        .ok (session', Dispatch.scanPage request page.limit cursor rows) ∧ session'.store = session.store ∧
      Serves Γ R payloads session' spaceId frames ∧
      List.Forall₂ Triple.same rows (Reference.scanRows spaceId frames cursor.version pattern) := by
  obtain ⟨session', rows, hresult, hstore, hserves, hrows⟩ := h.scanResult hd hp hpattern hdigest hv
  have hvalid : ¬(page.limit < 1 ∨ Dispatch.effectivePageLimit < page.limit) := by
    unfold Dispatch.effectivePageLimit
    omega
  refine ⟨session', rows, ?_, hstore, hserves, hrows⟩
  unfold Dispatch.scanResponse
  cases hbegins with
  | first hc =>
    simp only [hpattern, hpage, if_neg hvalid, hc, if_neg (Int.lt_irrefl _), hdigest, hresult, bind, Except.bind]
  | cursor hc hparse =>
    simp only [hpattern, hpage, if_neg hvalid, hc, hparse, if_neg (by omega : ¬currentSequence session.store < cursor.version),
      hdigest, hresult, bind, Except.bind]

/-- Any scan is answered, and keeps the session. -/
theorem Serves.scanResponse (h : Serves Γ R payloads session spaceId frames) (hd : Distinguished R payloads) {request : RpcRequest}
    (hp : payloads request.payload) : ∃ session' response,
    Dispatch.scanResponse Γ R session request (currentSequence session.store) = .ok (session', response) ∧
      Serves Γ R payloads session' spaceId frames := by
  unfold Dispatch.scanResponse
  split
  · exact ⟨_, _, rfl, h⟩
  · rename_i pattern hpattern
    split
    · dsimp only
      split
      · exact ⟨_, _, rfl, h⟩
      · exact ⟨_, _, rfl, h⟩
    · split
      · exact ⟨_, _, rfl, h⟩
      · split
        · exact ⟨_, _, rfl, h⟩
        · rename_i cursor _
          split
          · exact ⟨_, _, rfl, h⟩
          · rename_i hv
            split
            · exact ⟨_, _, rfl, h⟩
            · rename_i digest hdigest
              obtain ⟨session', rows, hresult, -, hserves, -⟩ := h.scanResult hd hp hpattern hdigest (not_lt.1 hv)
              simp only [hresult, bind, Except.bind]
              exact ⟨_, _, rfl, hserves⟩

/-- Whatever moves a session keeps what it serves, of the same history or of one with a frame more. -/
theorem Serves.step (h : Serves Γ R payloads session spaceId frames) (hd : Distinguished R payloads)
    (hs : SessionStep Γ R payloads session session') :
    ∃ later, Serves Γ R payloads session' spaceId (frames ++ later) ∧ ∀ f ∈ later, currentSequence session.store < f.sequence := by
  cases hs with
  | commit hc =>
    refine ⟨_, h.commit hc, fun f hf => ?_⟩
    rw [List.mem_singleton.1 hf]
    unfold currentSequence
    dsimp only
    omega
  | scan hp hc =>
    obtain ⟨session'', response, hok, hserves⟩ := h.scanResponse hd hp
    rw [hc] at hok
    cases hok
    exact ⟨[], by rwa [List.append_nil], by simp⟩
  | lookup key =>
    obtain ⟨hstore, hview, hentries, -⟩ := resultCacheLookup_spec session key
    refine ⟨[], ?_, by simp⟩
    rw [List.append_nil]
    exact h.recache hstore hview fun entry hentry _ => Or.inl (hentries hentry)
  | retain hne =>
    refine ⟨[], ?_, by simp⟩
    rw [List.append_nil]
    refine h.recache rfl rfl fun entry hentry hop => ?_
    rcases retainResultEntry_entries hentry with hold | rfl
    · exact Or.inl hold
    · exact absurd hop hne
  | evict hsub =>
    refine ⟨[], ?_, by simp⟩
    rw [List.append_nil]
    exact h.recache rfl rfl fun entry hentry _ => Or.inl (hsub hentry)

/-- The versions of a session advance. -/
theorem Serves.versions {later : List TransactionFrame} (h : Serves Γ R payloads session spaceId frames)
    (h' : Serves Γ R payloads session' spaceId (frames ++ later)) : currentSequence session.store ≤ currentSequence session'.store := by
  rw [h.represents.currentSequence, h'.represents.currentSequence]
  cases hl : later.getLast? with
  | none =>
    rw [List.getLast?_eq_none_iff.1 hl, List.append_nil]
  | some f =>
    rw [List.getLast?_append, hl, Option.some_or, Option.map_some, Option.getD_some]
    cases hf : frames.getLast? with
    | none =>
      have := h'.represents.advances.lower f (List.mem_append_right _ (List.mem_of_getLast? hl))
      simp
      omega
    | some g =>
      have hsorted := h'.represents.advances.sorted
      rw [List.map_append, List.pairwise_append] at hsorted
      exact (hsorted.2.2 _ (List.mem_map_of_mem (List.mem_of_getLast? hf)) _ (List.mem_map_of_mem (List.mem_of_getLast? hl))).le

/-- Whatever moves a session for a while. -/
theorem Serves.steps (h : Serves Γ R payloads session spaceId frames) (hd : Distinguished R payloads)
    (hs : Relation.ReflTransGen (SessionStep Γ R payloads) session session') :
    ∃ later, Serves Γ R payloads session' spaceId (frames ++ later) ∧ ∀ f ∈ later, currentSequence session.store < f.sequence := by
  induction hs with
  | refl => exact ⟨[], by rwa [List.append_nil], by simp⟩
  | tail _ hstep ih =>
    obtain ⟨later, hserves, hlater⟩ := ih
    obtain ⟨more, hserves', hmore⟩ := hserves.step hd hstep
    refine ⟨later ++ more, by rwa [← List.append_assoc], fun f hf => ?_⟩
    rcases List.mem_append.1 hf with hf | hf
    · exact hlater f hf
    · exact (h.versions hserves).trans_lt (hmore f hf)

end Serving

end Fram
