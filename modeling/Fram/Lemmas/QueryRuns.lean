import Fram.Lemmas.QueryView
import Fram.Lemmas.Requests
import Fram.Lemmas.Scan

/-!
# Queries of a session

A query of a session is answered from a view of its history, or from the rows that the cache has for its plan and window. What any request
does to the session keeps the rows in its cache those that their plans ask for (`KeepsQueries.dispatch`), so they are that in every run.
-/

namespace Fram

open Query
open ExceptList (bind_eq_ok_iff)

namespace QueryOps

variable {Γ : Host} {H : ReadHost} {session session' : Session} {spaceId : String} {frames : List TransactionFrame} {request : RpcRequest}
  {answer : RpcResponse}

/-! ## Views -/

/-- A window that the history does not have is refused; another is seen. -/
theorem queryView_cases (h : SessionFor Γ session spaceId frames) {bounds : QueryBounds} (hw : bounds.lowerExclusive ≤ bounds.version) :
    (∃ error, queryView Γ session bounds = .ok (.error error)) ∨
      ∃ view, queryView Γ session bounds = .ok (.ok view) ∧ Sees Γ view spaceId (framesUpTo frames bounds.version) ∧
        view.version = bounds.version ∧ view.lowerExclusive = bounds.lowerExclusive ∧ bounds.version ≤ currentSequence session.store := by
  have hadvances := h.represents.advances
  unfold queryView
  by_cases hout : bounds.version < 0 ∨ currentSequence session.store < bounds.version
  · refine Or.inl ⟨⟨⟨"query-invalid-snapshot"⟩, "query snapshot is outside available history"⟩, ?_⟩
    simp only [snapshotRoot, if_pos hout, bind, Except.bind]
    rfl
  rw [not_or, not_lt, not_lt] at hout
  by_cases hcur : bounds.version = currentSequence session.store
  · have hall : framesUpTo frames bounds.version = frames := framesUpTo_newest fun f hf => by
      have := hadvances.upper f hf
      rw [hcur, currentSequence]
      omega
    refine Or.inr ⟨⟨session.store, session.view, bounds.version, bounds.lowerExclusive⟩, ?_, ?_, rfl, rfl, hcur.le⟩
    · have hroot : snapshotRoot Γ none session.store bounds.version = .ok (none, session.store) := by
        rw [snapshotRoot, if_neg (by omega), if_pos hcur]
      simp only [hroot, if_pos hcur.symm, bind, Except.bind]
    · rw [hall]
      exact ⟨h.represents, h.space, h.covers.toFollows, hw⟩
  · obtain ⟨rest, heq, hends⟩ := framesUpTo_ends hadvances.sorted bounds.version
    have hrep := h.represents
    rw [heq] at hrep
    obtain ⟨hok, hbad⟩ := hrep.snapshotRoot hends hout.1 (by omega)
    by_cases hvalid : validAtomRows session.store.atoms = true ∧ ∀ f ∈ framesUpTo frames bounds.version, f.sequence ≤ maxTransactionSequence
    · obtain ⟨copy, hcopy, hroot⟩ := hok hvalid
      obtain ⟨r, hr, hc⟩ := project_ok hcopy.represents
      refine Or.inr ⟨⟨copy, r, bounds.version, bounds.lowerExclusive⟩, ?_, ⟨hcopy.represents, hcopy.space.trans h.space, ?_, hw⟩, rfl, rfl,
        hout.2⟩
      · simp only [hroot none, if_neg (Ne.symm hcur), hr, bind, Except.bind]
      · rw [hcopy.space, h.space] at hc
        exact hc.toFollows
    · obtain ⟨error, herror⟩ := hbad hvalid
      exact Or.inl ⟨error, by simp only [herror, bind, Except.bind]⟩

/-! ## Requests -/

/-- What the digest of a query is of. -/
def digestTerm (planTerm : Term) (bounds : QueryBounds) : Term := .triple planTerm (.int bounds.lowerExclusive) (.int bounds.version)

/-- The request asks for a plan in a window. -/
structure AsksFor (H : ReadHost) (head : Int) (request : RpcRequest) (planTerm : Term) (ask : QueryAsk) : Prop where
  fields : ∃ snapshot, readRecordFields request.payload "query/request" 2 = .ok [planTerm, snapshot]
  parsed : parseQueryRequest H head request = .ok ask
  plan : parseQueryPlan H.query planTerm = .ok ask.plan
  window : ask.bounds.lowerExclusive ≤ ask.bounds.version
  digest : readDigest H.sha256 (digestTerm planTerm ask.bounds) = .ok ask.digest

/-- The bounds that a query is given are a window. -/
theorem window_of_requestedQueryBounds {head : Int} {snapshot : Term} {cursor : Option QueryCursor} {bounds : QueryBounds}
    (h : requestedQueryBounds head snapshot cursor = .ok bounds) : bounds.lowerExclusive ≤ bounds.version := by
  unfold requestedQueryBounds at h
  obtain ⟨⟨lower, upper⟩, -, h⟩ := bind_eq_ok_iff.1 h
  dsimp only at h
  split at h
  · cases h
  · split at h
    · cases h
    · rename_i hle
      cases h
      exact not_lt.1 hle

/-- A request that is parsed asks for the plan in its fields. -/
theorem asksFor_of_parse {head : Int} {ask : QueryAsk} (h : parseQueryRequest H head request = .ok ask) :
    ∃ planTerm, AsksFor H head request planTerm ask := by
  have hparsed := h
  unfold parseQueryRequest at h
  obtain ⟨fields, hfields, h⟩ := bind_eq_ok_iff.1 h
  split at h
  · rename_i planTerm snapshot
    obtain ⟨plan, hplan, h⟩ := bind_eq_ok_iff.1 h
    obtain ⟨cursor, -, h⟩ := bind_eq_ok_iff.1 h
    obtain ⟨bounds, hbounds, h⟩ := bind_eq_ok_iff.1 h
    obtain ⟨digest, hdigest, h⟩ := bind_eq_ok_iff.1 h
    cases h
    exact ⟨planTerm, ⟨snapshot, hfields⟩, hparsed, hplan, window_of_requestedQueryBounds hbounds, hdigest⟩
  · cases h

/-- A plan that is read has passed its validation. -/
theorem validatePlan_of_parse {host : QueryHost} {planTerm : Term} {plan : QueryPlan} (h : parseQueryPlan host planTerm = .ok plan) :
    validatePlan host plan = [] := by
  unfold parseQueryPlan at h
  obtain ⟨fields, -, h⟩ := bind_eq_ok_iff.1 h
  split at h
  · obtain ⟨limit, -, h⟩ := bind_eq_ok_iff.1 h
    obtain ⟨find, -, h⟩ := bind_eq_ok_iff.1 h
    obtain ⟨strataTerms, -, h⟩ := bind_eq_ok_iff.1 h
    obtain ⟨strata, -, h⟩ := bind_eq_ok_iff.1 h
    obtain ⟨clauses, -, h⟩ := bind_eq_ok_iff.1 h
    obtain ⟨order, -, h⟩ := bind_eq_ok_iff.1 h
    obtain ⟨limit', -, h⟩ := bind_eq_ok_iff.1 h
    dsimp only at h
    split at h
    · rename_i hnone
      cases h
      exact hnone
    · cases h
  · cases h

/-! ## What a query answers -/

/-- A result of a plan over the history in a window. -/
def PlanResult (H : ReadHost) (spaceId : String) (frames : List TransactionFrame) (bounds : QueryBounds) (plan : QueryPlan)
    (result : QueryResult) : Prop :=
  ∃ rows, PlanRows H.text spaceId (logOf (framesUpTo frames bounds.version)) bounds.lowerExclusive bounds.version plan rows ∧
    findResult H.query rows plan = .ok result ∧ result.errors = []

/-- A query that is let through: its digest is of one of these terms, and what its plan searches fits. -/
def Admitted (Γ : Host) (H : ReadHost) (asks : Term → Prop) (session : Session) (request : RpcRequest) : Prop :=
  request.op = ⟨"rpc/query"⟩ → ∀ planTerm ask, AsksFor H (currentSequence session.store) request planTerm ask →
    asks (digestTerm planTerm ask.bounds) ∧ ∀ view, queryView Γ session ask.bounds = .ok (.ok view) → Searchable H view ask.plan

/-- A retained query has the rows that its plan asks for. -/
structure QueryKept (H : ReadHost) (asks : Term → Prop) (spaceId : String) (frames : List TransactionFrame) (current : Int)
    (entry : OrderedResultEntry) (planTerm : Term) (plan : QueryPlan) (bounds : QueryBounds) : Prop where
  asked : asks (digestTerm planTerm bounds)
  parses : parseQueryPlan H.query planTerm = .ok plan
  digests : readDigest H.sha256 (digestTerm planTerm bounds) = .ok entry.key.digest
  snapshot : entry.key.snapshot = ⟨spaceId, bounds.version, bounds.lowerExclusive⟩
  newest : bounds.version ≤ current
  rows : ∃ result, PlanResult H spaceId frames bounds plan result ∧ entry.queryRows = result.rows

/-- The session of a history, the queries in its cache those of their windows. -/
structure KeepsQueries (Γ : Host) (H : ReadHost) (asks : Term → Prop) (session : Session) (spaceId : String)
    (frames : List TransactionFrame) : Prop extends SessionFor Γ session spaceId frames where
  kept : ∀ entry ∈ session.orderedResults.entries, entry.key.operation = ⟨"rpc/query"⟩ →
    ∃ planTerm plan bounds, QueryKept H asks spaceId frames (currentSequence session.store) entry planTerm plan bounds

section Keeping

variable {asks : Term → Prop}

/-- Digests are of one term each. -/
theorem digestTerm_eq (hd : Distinguished (reads Γ H) asks) {p q : Term} (hp : asks p) (hq : asks q) {digest : String}
    (h : readDigest H.sha256 p = .ok digest) (h' : readDigest H.sha256 q = .ok digest) : p = q := by
  have hsha : ∀ {t : Term}, readDigest H.sha256 t = .ok digest → Dispatch.canonicalTermSha256Result (reads Γ H) t = .ok digest := by
    intro t ht
    unfold readDigest at ht
    unfold Dispatch.canonicalTermSha256Result
    cases hw : written (appendTerm t 0) with
    | error message =>
      rw [hw] at ht
      cases ht
    | ok bytes =>
      rw [hw] at ht
      cases ht
      rfl
  exact hd.eq hp hq (hsha h) (hsha h')

/-- The same session but for what is in its cache. -/
theorem KeepsQueries.recache (h : KeepsQueries Γ H asks session spaceId frames) (hk : Kept session session')
    (he : ∀ entry ∈ session'.orderedResults.entries, entry.key.operation = ⟨"rpc/query"⟩ → entry ∈ session.orderedResults.entries ∨
      ∃ planTerm plan bounds, QueryKept H asks spaceId frames (currentSequence session.store) entry planTerm plan bounds) :
    KeepsQueries Γ H asks session' spaceId frames := by
  refine ⟨h.toSessionFor.kept hk, fun entry hentry hop => ?_⟩
  rw [hk.store]
  rcases he entry hentry hop with hold | hnew
  · exact h.kept entry hold hop
  · exact hnew

/-- A commit keeps the cached queries: they are of earlier versions. -/
theorem KeepsQueries.commit (h : KeepsQueries Γ H asks session spaceId frames) {operations : List CommitOperation}
    (hc : session.commit Γ operations = .ok session') :
    KeepsQueries Γ H asks session' spaceId (frames ++ [⟨session.store.nextSequence, operations⟩]) := by
  obtain ⟨hfor, hcache⟩ := h.toSessionFor.commit hc
  refine ⟨hfor, fun entry hentry hop => ?_⟩
  rw [hcache] at hentry
  obtain ⟨planTerm, plan, bounds, hkept⟩ := h.kept entry hentry hop
  have hnewest := hkept.newest
  have hcur : currentSequence session'.store = session.store.nextSequence := by
    rw [hfor.represents.currentSequence]
    simp
  have hframes : framesUpTo (frames ++ [⟨session.store.nextSequence, operations⟩]) bounds.version = framesUpTo frames bounds.version :=
    framesUpTo_append fun f hf => by
      rw [List.mem_singleton.1 hf]
      unfold currentSequence at hnewest
      dsimp only
      omega
  refine ⟨planTerm, plan, bounds, hkept.asked, hkept.parses, hkept.digests, hkept.snapshot, ?_, ?_⟩
  · rw [hcur]
    unfold currentSequence at hnewest
    omega
  · obtain ⟨result, hresult, hrows⟩ := hkept.rows
    unfold PlanResult at hresult ⊢
    rw [hframes]
    exact ⟨result, hresult, hrows⟩

/-- A page of the result of the plan that was asked for. -/
def AnswersPlan (H : ReadHost) (session : Session) (spaceId : String) (frames : List TransactionFrame) (request : RpcRequest)
    (answer : RpcResponse) : Prop :=
  ∃ planTerm ask result, AsksFor H (currentSequence session.store) request planTerm ask ∧
    PlanResult H spaceId frames ask.bounds ask.plan result ∧
    answer = pageResponse request (currentSequence session.store) ask.bounds.version
      (sliceQueryPage result.rows request.page ask.cursor ask.bounds.version ask.digest)

/-- Two queries with one term to digest have one plan and one window. -/
theorem digestTerm_inj {p q : Term} {b c : QueryBounds} (h : digestTerm p b = digestTerm q c) : p = q ∧ b = c := by
  obtain ⟨_, _⟩ := b
  obtain ⟨_, _⟩ := c
  simp only [digestTerm, Term.triple.injEq, Term.atom.injEq, Atom.int.injEq] at h
  obtain ⟨rfl, rfl, rfl⟩ := h
  exact ⟨rfl, rfl⟩

/-- Rows that are not in the cache are evaluated over the view of the window, and kept. -/
theorem KeepsQueries.evaluated (h : KeepsQueries Γ H asks session spaceId frames) {planTerm : Term} {ask : QueryAsk}
    (hasks : AsksFor H (currentSequence session.store) request planTerm ask) (hadmitted : asks (digestTerm planTerm ask.bounds))
    (hfits : ∀ view, queryView Γ session ask.bounds = .ok (.ok view) → Searchable H view ask.plan) {timeoutMs : Int}
    (hq : evaluatedResponse Γ H session request ask
      (resultCacheKey session ask.bounds.version ask.bounds.lowerExclusive ⟨"rpc/query"⟩ ask.digest) timeoutMs = .ok (session', answer)) :
    Kept session session' ∧ KeepsQueries Γ H asks session' spaceId frames ∧
      (answer.error ≠ none ∨ AnswersPlan H session spaceId frames request answer) := by
  have hfailed : ∀ {error : ReadError}, (readFailed request (currentSequence session.store) error).error ≠ none := fun h => by cases h
  have habort : ∀ {code : Keyword} {version : Int} {message : String}, (readErrorResponse request version code message).error ≠ none :=
    fun h => by cases h
  unfold evaluatedResponse at hq
  rcases queryView_cases h.toSessionFor hasks.window with ⟨error, hview⟩ | ⟨view, hview, hsees, hversion, hlower, hcurrent⟩
  · simp only [hview, bind, Except.bind] at hq
    cases hq
    exact ⟨.refl _, h, Or.inl hfailed⟩
  · simp only [hview, bind, Except.bind] at hq
    rcases queryRows_cases hsees (validatePlan_of_parse hasks.plan) (hfits view hview) timeoutMs with ⟨error, hrows⟩ | ⟨hrows, -⟩ |
      ⟨rows, hplan, hrows⟩
    · simp only [hrows] at hq
      cases hq
      refine ⟨.refl _, h, Or.inl ?_⟩
      unfold queryEvaluationErrorResponse
      split
      · exact habort
      · exact hfailed
    · simp only [hrows] at hq
      cases hq
    · cases hresult : findResult H.query rows ask.plan with
      | error fault =>
        rw [hresult] at hrows
        rw [hrows] at hq
        cases hq
      | ok result =>
        rw [hresult] at hrows
        have hrows : queryRows Γ H view ask.plan timeoutMs = .ok (some ⟨some result, none⟩) := hrows
        simp only [hrows] at hq
        split at hq
        · cases hq
          exact ⟨.refl _, h, Or.inl habort⟩
        · rename_i herrors
          cases hq
          rw [hversion, hlower] at hplan
          have hplanResult : PlanResult H spaceId frames ask.bounds ask.plan result := ⟨rows, hplan, hresult, herrors⟩
          refine ⟨⟨rfl, rfl⟩, h.recache ⟨rfl, rfl⟩ fun entry hentry _ => ?_, Or.inr ⟨planTerm, ask, result, hasks, hplanResult, ?_⟩⟩
          · rcases retainResultEntry_entries hentry with hold | rfl
            · exact Or.inl hold
            · exact Or.inr ⟨planTerm, ask.plan, ask.bounds, hadmitted, hasks.plan, hasks.digest, by rw [← h.space]; rfl, hcurrent, result,
                hplanResult, rfl⟩
          · rw [hversion]

/-- A query is refused, or answered by a page of the result of its plan; its session keeps what it serves. -/
theorem KeepsQueries.query (h : KeepsQueries Γ H asks session spaceId frames) (hd : Distinguished (reads Γ H) asks)
    (hop : request.op = ⟨"rpc/query"⟩) (hadmitted : Admitted Γ H asks session request)
    (hq : queryResponse Γ H session request = .ok (session', answer)) :
    Kept session session' ∧ KeepsQueries Γ H asks session' spaceId frames ∧
      (answer.error ≠ none ∨ AnswersPlan H session spaceId frames request answer) := by
  unfold queryResponse at hq
  dsimp only at hq
  split at hq
  · cases hq
    exact ⟨.refl _, h, Or.inl fun hn => by cases hn⟩
  · rename_i ask hparse
    obtain ⟨planTerm, hasks⟩ := asksFor_of_parse hparse
    obtain ⟨hasked, hfits⟩ := hadmitted hop planTerm ask hasks
    split at hq
    · cases hq
      exact ⟨.refl _, h, Or.inl fun hn => by cases hn⟩
    obtain ⟨hstore, hview, hentries, hfound⟩ := resultCacheLookup_spec session
      (resultCacheKey session ask.bounds.version ask.bounds.lowerExclusive ⟨"rpc/query"⟩ ask.digest)
    cases hl : resultCacheLookup session (resultCacheKey session ask.bounds.version ask.bounds.lowerExclusive ⟨"rpc/query"⟩ ask.digest) with
    | mk looked found =>
      rw [hl] at hstore hview hentries hfound hq
      have hkept : Kept session looked := ⟨hstore, hview⟩
      have hlooked := h.recache hkept fun entry hentry _ => Or.inl (hentries hentry)
      cases found with
      | some entry =>
        cases hq
        obtain ⟨hmem, hkey⟩ := hfound entry rfl
        obtain ⟨planTerm', plan', bounds', hk⟩ := h.kept entry hmem (by rw [hkey]; rfl)
        have hdigest := hk.digests
        rw [hkey] at hdigest
        obtain ⟨rfl, rfl⟩ := digestTerm_inj (digestTerm_eq hd hasked hk.asked hasks.digest hdigest)
        obtain rfl : ask.plan = plan' := Except.ok.inj (hasks.plan.symm.trans hk.parses)
        obtain ⟨result, hresult, hrows⟩ := hk.rows
        exact ⟨hkept, hlooked, Or.inr ⟨planTerm, ask, result, hasks, hresult, by rw [hrows]⟩⟩
      | none =>
        have hkeys : resultCacheKey session ask.bounds.version ask.bounds.lowerExclusive ⟨"rpc/query"⟩ ask.digest =
            resultCacheKey looked ask.bounds.version ask.bounds.lowerExclusive ⟨"rpc/query"⟩ ask.digest := by
          unfold resultCacheKey
          rw [hstore]
        have hviews : queryView Γ looked ask.bounds = queryView Γ session ask.bounds := by
          unfold queryView
          rw [hstore, hview]
        dsimp only at hq
        rw [hkeys] at hq
        obtain ⟨hk, hkeeps, hanswer⟩ := hlooked.evaluated (hstore ▸ hasks) hasked (fun view hv => hfits view (hviews ▸ hv)) hq
        refine ⟨⟨hk.store.trans hstore, hk.view.trans hview⟩, hkeeps, hanswer.imp_right fun ha => ?_⟩
        unfold AnswersPlan at ha ⊢
        rwa [hstore] at ha

end Keeping

/-! ## What a request keeps -/

/-- What a request adds to the cache is of its own operation. -/
def RetainsOwn (request : RpcRequest) (session session' : Session) : Prop :=
  ∀ entry ∈ session'.orderedResults.entries, entry ∈ session.orderedResults.entries ∨ entry.key.operation = request.op

section Retaining

variable {R : Reads} {nowMs servedVersion : Int}

theorem RetainsOwn.of_eq (h : session'.orderedResults = session.orderedResults) : RetainsOwn request session session' := by
  intro entry hentry
  rw [h] at hentry
  exact Or.inl hentry

theorem orderedResults_of_commit {operations : List CommitOperation} (h : session.commit Γ operations = .ok session') :
    session'.orderedResults = session.orderedResults := by
  unfold Session.commit at h
  obtain ⟨⟨store, coordinate⟩, -, h⟩ := bind_eq_ok_iff.1 h
  unfold refreshSession at h
  obtain ⟨view, -, h⟩ := bind_eq_ok_iff.1 h
  cases h
  rfl

/-- What is touched under the operation of the request adds to the cache results of that operation. -/
theorem RetainsOwn.of_touches (h : Touches request.op session session') : RetainsOwn request session session' := by
  cases h with
  | same => exact .of_eq rfl
  | @lookup key looked found h =>
    have hentries := (resultCacheLookup_spec session key).2.2.1
    rw [h] at hentries
    exact fun entry hentry => Or.inl (hentries hentry)
  | @retain key looked entry h hkey hoperation =>
    have hentries := (resultCacheLookup_spec session key).2.2.1
    rw [h] at hentries
    intro other hother
    rcases retainResultEntry_entries hother with hold | rfl
    · exact Or.inl (hentries hold)
    · exact Or.inr (hkey ▸ hoperation)

/-- What the routes beside the read route add to the cache. -/
theorem dispatchRoute_retains (h : Dispatch.dispatchRoute Γ R session request nowMs = .ok (session', answer)) :
    RetainsOwn request session session' := by
  rcases (dispatchRoute_cases h).1 with h | ⟨operations, -, hcommit, -⟩
  · exact .of_touches h
  · exact .of_eq (orderedResults_of_commit hcommit)

/-- A query touches the cache under its own operation. -/
theorem queryResponse_touches 
    (h : queryResponse Γ H session request = .ok (session', answer)) : Touches ⟨"rpc/query"⟩ session session' := by
  unfold queryResponse at h
  dsimp only at h
  split at h
  · cases h
    exact .same
  split at h
  · cases h
    exact .same
  split at h
  · rename_i hlookup
    cases h
    exact .lookup hlookup
  rename_i hlookup
  unfold evaluatedResponse at h
  obtain ⟨view, -, h⟩ := bind_eq_ok_iff.1 h
  cases view with
  | error error =>
    cases h
    exact .lookup hlookup
  | ok view =>
    obtain ⟨execution, -, h⟩ := bind_eq_ok_iff.1 h
    cases execution with
    | none => cases h
    | some execution =>
      dsimp only at h
      split at h
      · cases h
        exact .lookup hlookup
      · cases h
        exact .lookup hlookup
      · split at h
        · cases h
          exact .lookup hlookup
        · cases h
          exact .retain hlookup rfl rfl

/-- So does a read of the occurrences. -/
theorem occurrencesResponse_touches 
    (h : occurrencesResponse Γ H session request = .ok (session', answer)) : Touches ⟨"rpc/occurrences"⟩ session session' := by
  unfold occurrencesResponse at h
  dsimp only at h
  split at h
  · cases h
    exact .same
  split at h
  · split at h
    · rename_i hlookup
      cases h
      exact .lookup hlookup
    · rename_i hlookup
      obtain ⟨rows, -, h⟩ := bind_eq_ok_iff.1 h
      cases rows with
      | error error =>
        cases h
        exact .lookup hlookup
      | ok rows =>
        cases h
        exact .retain hlookup rfl rfl
  · obtain ⟨rows, -, h⟩ := bind_eq_ok_iff.1 h
    cases rows <;> cases h <;> exact .same

theorem validateResponse_session (h : validateResponse Γ session request = .ok (session', answer)) : session' = session := by
  unfold validateResponse at h
  dsimp only at h
  split at h
  · cases h
    rfl
  · obtain ⟨payload, -, h⟩ := bind_eq_ok_iff.1 h
    cases h
    rfl

/-- A read that answers leaves the cache and its generation in the session. -/
theorem derivedOf_eq_ok {answered : Except Fault (Session × RpcResponse)} {derived : RpcResponse × OrderedResultCache × Int}
    (h : derivedOf <$> answered = .ok derived) : ∃ read, answered = .ok (read, derived.1) ∧
      Dispatch.withDerived session derived =
        ({ session with orderedResults := read.orderedResults, derivedGeneration := read.derivedGeneration }, derived.1) := by
  cases answered with
  | error fault => cases h
  | ok answered =>
    obtain ⟨read, answer⟩ := answered
    cases h
    exact ⟨read, rfl, rfl⟩

/-- A request is refused, or answered by this read, whose cache is kept. -/
def ReadBy (read : Except Fault (Session × RpcResponse)) (session session' : Session) (answer : RpcResponse) : Prop :=
  Kept session session' ∧ (session' = session ∧ answer.error ≠ none ∨
    ∃ derived, read = .ok (derived, answer) ∧ session'.orderedResults = derived.orderedResults)

/-- What a read adds to the cache; a query is answered by its response, and so is a read of occurrences. -/
theorem dispatchRead_retains {answered : Session × RpcResponse}
    (h : Dispatch.dispatchRead (reads Γ H) session request = .ok (some answered)) : RetainsOwn request session answered.1 ∧
      (request.op = ⟨"rpc/query"⟩ → ReadBy (queryResponse Γ H session request) session answered.1 answered.2) ∧
      (request.op = ⟨"rpc/occurrences"⟩ → ReadBy (occurrencesResponse Γ H session request) session answered.1 answered.2) := by
  have hkept := (dispatchRead_kept h).1
  unfold Dispatch.dispatchRead at h
  dsimp only at h
  split at h
  · rename_i hop
    obtain ⟨derived, hderived, h⟩ := bind_eq_ok_iff.1 h
    cases h
    obtain ⟨read, hread, hwith⟩ := @derivedOf_eq_ok session _ _ hderived
    rw [hwith]
    have hretains : RetainsOwn request session read := .of_touches (hop ▸ queryResponse_touches hread)
    refine ⟨fun entry hentry => hretains entry hentry, fun _ => ⟨⟨rfl, rfl⟩, Or.inr ⟨read, hread, rfl⟩⟩,
      fun ho => absurd (hop.symm.trans ho) (by decide)⟩
  split at h
  · rename_i hop
    split at h
    · cases h
      exact ⟨.of_eq rfl, fun hq => absurd (hop.symm.trans hq) (by decide), fun _ => ⟨hkept, Or.inl ⟨rfl, fun he => by cases he⟩⟩⟩
    · obtain ⟨derived, hderived, h⟩ := bind_eq_ok_iff.1 h
      cases h
      obtain ⟨read, hread, hwith⟩ := @derivedOf_eq_ok session _ _ hderived
      rw [hwith]
      have hretains : RetainsOwn request session read := .of_touches (hop ▸ occurrencesResponse_touches hread)
      exact ⟨fun entry hentry => hretains entry hentry, fun hq => absurd (hop.symm.trans hq) (by decide),
        fun _ => ⟨⟨rfl, rfl⟩, Or.inr ⟨read, hread, rfl⟩⟩⟩
  split at h
  · rename_i hop
    refine ⟨?_, fun hq => absurd (hop.symm.trans hq) (by decide), fun ho => absurd (hop.symm.trans ho) (by decide)⟩
    split at h
    · cases h
      exact .of_eq rfl
    split at h
    · cases h
      exact .of_eq rfl
    · obtain ⟨derived, hderived, h⟩ := bind_eq_ok_iff.1 h
      cases h
      obtain ⟨read, hread, hwith⟩ := @derivedOf_eq_ok session _ _ hderived
      obtain rfl := validateResponse_session hread
      rw [hwith]
      exact .of_eq rfl
  · cases h

/-- **What a request adds to the cache.** Results of its own operation; a query is refused, or answered by its response, and so is a read
of occurrences. -/
theorem dispatch_retains (h : Dispatch.dispatch Γ (reads Γ H) session request nowMs = .ok (session', answer)) :
    RetainsOwn request session session' ∧
      (request.op = ⟨"rpc/query"⟩ → ReadBy (queryResponse Γ H session request) session session' answer) ∧
      (request.op = ⟨"rpc/occurrences"⟩ → ReadBy (occurrencesResponse Γ H session request) session session' answer) := by
  have hrefused : ∀ {read : Except Fault (Session × RpcResponse)} {code message : String} {retryable : Bool},
      ReadBy read session session (errorResponse request (currentSequence session.store) code retryable message) :=
    ⟨.refl _, Or.inl ⟨rfl, fun he => by cases he⟩⟩
  unfold Dispatch.dispatch at h
  dsimp only at h
  split at h
  · cases h
    exact ⟨.of_eq rfl, fun _ => hrefused, fun _ => hrefused⟩
  split at h
  · cases h
    exact ⟨.of_eq rfl, fun _ => hrefused, fun _ => hrefused⟩
  obtain ⟨read, hread, h⟩ := bind_eq_ok_iff.1 h
  cases read with
  | some answered =>
    cases h
    exact dispatchRead_retains hread
  | none =>
    have hnone : request.op ≠ ⟨"rpc/query"⟩ ∧ request.op ≠ ⟨"rpc/occurrences"⟩ := by
      unfold Dispatch.dispatchRead at hread
      refine ⟨fun hop => ?_, fun hop => ?_⟩
      · rw [hop] at hread
        obtain ⟨derived, -, hread⟩ := bind_eq_ok_iff.1 hread
        cases hread
      · rw [hop] at hread
        dsimp only at hread
        rw [if_neg (by decide), if_pos rfl] at hread
        split at hread
        · cases hread
        · obtain ⟨derived, -, hread⟩ := bind_eq_ok_iff.1 hread
          cases hread
    exact ⟨dispatchRoute_retains h, fun hop => absurd hop hnone.1, fun hop => absurd hop hnone.2⟩

end Retaining

/-- Any request that is let through keeps the cached queries. -/
theorem KeepsQueries.dispatch {asks : Term → Prop} (h : KeepsQueries Γ H asks session spaceId frames)
    (hd : Distinguished (reads Γ H) asks) (hadmitted : Admitted Γ H asks session request) {nowMs : Int}
    (hq : Dispatch.dispatch Γ (reads Γ H) session request nowMs = .ok (session', answer)) :
    (∃ later, KeepsQueries Γ H asks session' spaceId (frames ++ later)) ∧
      (request.op = ⟨"rpc/query"⟩ → Kept session session' ∧
        (answer.error ≠ none ∨ AnswersPlan H session spaceId frames request answer)) := by
  obtain ⟨hretains, hquery, -⟩ := dispatch_retains hq
  by_cases hop : request.op = ⟨"rpc/query"⟩
  · obtain ⟨hkept, ⟨rfl, herror⟩ | ⟨read, hread, hcache⟩⟩ := hquery hop
    · exact ⟨⟨[], by rwa [List.append_nil]⟩, fun _ => ⟨hkept, Or.inl herror⟩⟩
    · obtain ⟨hreadKept, hkeeps, hanswers⟩ := h.query hd hop hadmitted hread
      refine ⟨⟨[], ?_⟩, fun _ => ⟨hkept, hanswers⟩⟩
      rw [List.append_nil]
      refine hkeeps.recache ⟨hkept.store.trans hreadKept.store.symm, hkept.view.trans hreadKept.view.symm⟩ fun entry hentry _ => ?_
      rw [hcache] at hentry
      exact Or.inl hentry
  · refine ⟨?_, fun ho => absurd ho hop⟩
    rcases (dispatch_cases hq).1 with hkept | ⟨operations, -, hcommit, -⟩
    · refine ⟨[], ?_⟩
      rw [List.append_nil]
      refine h.recache hkept fun entry hentry hentryOp => Or.inl ?_
      rcases hretains entry hentry with hold | hown
      · exact hold
      · exact absurd (hown.symm.trans hentryOp) hop
    · exact ⟨_, h.commit hcommit⟩

end QueryOps

end Fram
