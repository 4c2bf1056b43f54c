import Fram.Lemmas.Scan

/-!
# Paging of scans

A scan that starts at some version and goes on from the cursors it is given yields what stood at that version, whatever is done to the
session between its pages.
-/

namespace Fram

variable {version ordinal : Int} {later : List TransactionFrame}

/-- The sessions that are reached: those of booted stores, and what moves them. -/
inductive Reached (Γ : Host) (R : Reads) (payloads : Term → Prop) : Session → Prop where
  | boot {path configured : String} {bytes image : Bytes} {result : StoreResult} {store : Store} (hsize : bytes.length < 2 ^ 62)
    (hi : Imaged Γ configured bytes image) (hb : bootStore Γ path configured bytes image = .ok result)
    (hs : result.store = .ok store) : Reached Γ R payloads store.session
  | step {session session' : Session} (h : Reached Γ R payloads session) (hs : SessionStep Γ R payloads session session') :
    Reached Γ R payloads session'

/-- The rows of a scan at a version: the propositions of what is live in the store rebuilt for it and is equal to the bound positions. -/
def RowsAt (Γ : Host) (root : TermStore) (version : Int) (pattern : Dispatch.Pattern) (rows : List Triple) : Prop :=
  ∃ past live, Dispatch.historicalRoot Γ root version = .ok past ∧ liveOccurrences Γ past = .ok live ∧
    rows = (live.filter (boundTo pattern.t1 pattern.t2 pattern.t3)).map (·.proposition)

/-- A request for a page of a scan. -/
structure PageRequest (request : RpcRequest) (space : String) (payload : Term) (limit : Nat) (cursor : Option Term) : Prop where
  space : request.space = space
  payload : request.payload = payload
  page : request.page = some ⟨limit, cursor⟩

/-- A scan page by page: the session after the newest page, the rows so far, and the cursor to go on from. Between the pages the
session may be moved. -/
inductive Paging (Γ : Host) (R : Reads) (payloads : Term → Prop) (space : String) (payload : Term) (start : Session) :
    Session → List Triple → Option Term → Prop where
  | first {session : Session} {request : RpcRequest} {limit : Nat} {version : Int} {page : RpcPageResponse} {rows : List Triple}
    (hr : PageRequest request space payload limit none)
    (h : Dispatch.scanResponse Γ R start request (currentSequence start.store) =
      .ok (session, pagedResponse request version page (rpcTriples rows).term)) :
    Paging Γ R payloads space payload start session rows page.nextCursor
  | next {session session' session'' : Session} {request : RpcRequest} {limit : Nat} {version : Int} {page : RpcPageResponse}
    {rows more : List Triple} {cursor : Term} (hp : Paging Γ R payloads space payload start session rows (some cursor))
    (hs : Relation.ReflTransGen (SessionStep Γ R payloads) session session')
    (hr : PageRequest request space payload limit (some cursor))
    (h : Dispatch.scanResponse Γ R session' request (currentSequence session'.store) =
      .ok (session'', pagedResponse request version page (rpcTriples more).term)) :
    Paging Γ R payloads space payload start session'' (rows ++ more) page.nextCursor

/-! ## Sessions -/

section Sessions

variable {Γ : Host} {R : Reads} {payloads : Term → Prop} {session : Session}

theorem newSession_orderedResults {s : TermStore} (h : newSession Γ s = .ok session) :
    session.orderedResults = emptyOrderedResultCache := by
  unfold newSession at h
  cases hp : project Γ s with
  | error e =>
    rw [hp] at h
    cases h
  | ok view =>
    rw [hp] at h
    cases h
    rfl

/-- A boot from the log begins with an empty cache. -/
theorem foldStore_orderedResults {path configured report : String} {bytes : Bytes} {result : StoreResult} {store : Store}
    (h : foldStore Γ path configured bytes report = .ok result) (hs : result.store = .ok store) :
    store.session.orderedResults = emptyOrderedResultCache := by
  unfold foldStore at h
  cases hc : consumeFramlogHeader Γ (startFramlogStream configured) bytes with
  | error e =>
    rw [hc] at h
    cases h
  | ok r =>
    simp only [hc, bind, Except.bind] at h
    split at h
    · cases h
      cases hs
    · split at h
      · cases h
        cases hs
      · rename_i root _
        cases hn : newSession Γ (closeFold root) with
        | error e =>
          rw [hn] at h
          cases h
        | ok session =>
          rw [hn] at h
          cases h
          cases hs
          exact newSession_orderedResults hn

/-- A boot begins with an empty cache. -/
theorem bootStore_orderedResults {path configured : String} {bytes image : Bytes} {result : StoreResult} {store : Store}
    (h : bootStore Γ path configured bytes image = .ok result) (hs : result.store = .ok store) :
    store.session.orderedResults = emptyOrderedResultCache := by
  unfold bootStore at h
  cases hplan : planSnapshotBoot true image bytes configured with
  | error e =>
    rw [hplan] at h
    cases h
  | ok plan =>
    simp only [hplan, bind, Except.bind] at h
    split at h
    · unfold snapshotStore at h
      split at h
      · exact foldStore_orderedResults h hs
      · rename_i image _
        split at h
        · exact foldStore_orderedResults h hs
        · cases hroot : newTermStore image.spaceId with
          | error e =>
            rw [hroot] at h
            cases h
          | ok root =>
            simp only [hroot, bind, Except.bind] at h
            split at h
            · exact foldStore_orderedResults h hs
            · split at h
              · exact foldStore_orderedResults h hs
              · split at h
                · exact foldStore_orderedResults h hs
                · rename_i root _
                  cases hn : newSession Γ (closeFold root) with
                  | error e =>
                    rw [hn] at h
                    cases h
                  | ok session =>
                    rw [hn] at h
                    cases h
                    cases hs
                    exact newSession_orderedResults hn
    · exact foldStore_orderedResults h hs

/-- A session that is reached serves the history of its store. -/
theorem Reached.serves (h : Reached Γ R payloads session) (hd : Distinguished R payloads) :
    ∃ spaceId frames, Serves Γ R payloads session spaceId frames := by
  induction h with
  | @boot path _ _ _ _ _ hsize hi hb hs =>
    have hboots := hi.bootsTo hsize [] path
    rw [List.append_nil, hb] at hboots
    obtain ⟨spaceId, frames, -, hfor⟩ := hboots.store hs
    refine ⟨spaceId, frames, hfor.toSessionFor, ?_⟩
    rw [bootStore_orderedResults hb hs]
    exact fun entry hentry => nomatch hentry
  | step _ hs ih =>
    obtain ⟨spaceId, frames, hserves⟩ := ih
    obtain ⟨later, hserves', -⟩ := hserves.step hd hs
    exact ⟨spaceId, _, hserves'⟩

end Sessions

/-! ## Rows -/

theorem forall₂_triple_trans {l m n : List Triple} (h : List.Forall₂ Triple.same l n) (h' : List.Forall₂ Triple.same m n) :
    List.Forall₂ Triple.same l m := by
  induction h generalizing m with
  | nil =>
    cases h'
    exact .nil
  | cons hp _ ih =>
    cases h' with
    | cons hp' h' => exact .cons (hp.trans hp'.symm) (ih h')

section Rows

variable {Γ : Host} {session : Session} {spaceId : String} {frames : List TransactionFrame}

/-- The rows at a version are those of the reference. -/
theorem SessionFor.rowsAt (h : SessionFor Γ session spaceId frames) (version : Int) (pattern : Dispatch.Pattern) :
    ∃ rows, RowsAt Γ session.store version pattern rows ∧
      List.Forall₂ Triple.same rows (Reference.scanRows spaceId frames version pattern) := by
  obtain ⟨rest, heq, hends⟩ := framesUpTo_ends h.represents.advances.sorted version
  have hrep := h.represents
  rw [heq] at hrep
  obtain ⟨past, hpast, hof⟩ := hrep.historicalRoot hends
  obtain ⟨live, hlive, hsame⟩ := hof.represents.liveOccurrences
  rw [hof.space, h.space] at hsame
  refine ⟨_, ⟨past, live, hpast, hlive, rfl⟩, ?_⟩
  unfold Reference.scanRows
  rw [List.forall₂_map_left_iff, List.forall₂_map_right_iff]
  refine (List.rel_filter (fun x y hxy => ?_) hsame).imp fun _ _ ho => ho.2.2
  exact iff_of_eq (congrArg (· = true) (boundTo_same hxy))

/-- There are one version's rows. -/
theorem RowsAt.unique {root : TermStore} {pattern : Dispatch.Pattern} {rows rows' : List Triple}
    (h : RowsAt Γ root version pattern rows) (h' : RowsAt Γ root version pattern rows') : rows = rows' := by
  obtain ⟨past, live, hpast, hlive, rfl⟩ := h
  obtain ⟨past', live', hpast', hlive', rfl⟩ := h'
  rw [hpast] at hpast'
  cases hpast'
  rw [hlive] at hlive'
  cases hlive'
  rfl

end Rows

/-! ## Cursors -/

/-- The payload of a scan is the record of its pattern. -/
theorem eq_of_parsePattern {payload : Term} {pattern : Dispatch.Pattern} (h : Dispatch.parsePattern payload = .ok pattern) :
    payload = (rpcRecord "rpc/triple-pattern" [rpcOption pattern.t1, rpcOption pattern.t2, rpcOption pattern.t3]).term := by
  unfold Dispatch.parsePattern at h
  split at h
  · cases h
  · rename_i v1 v2 v3 hr
    split at h
    · rename_i t1 t2 t3 h1 h2 h3
      cases h
      rw [(eq_rpcRecord_of_readRecord hr).1, eq_rpcOption_of_readOption h1, eq_rpcOption_of_readOption h2, eq_rpcOption_of_readOption h3]
    · cases h
  · cases h

theorem hasNaN_rpcOption (option : Option Term) : (rpcOption option).hasNaN = option.any Term.hasNaN := by
  cases option with
  | none => rfl
  | some t => simp [rpcOption, Term.hasNaN, Term.kw, Atom.isNaN]

/-- A pattern that has a row holds no NaN. -/
theorem hasNaN_of_scanRows {payload : Term} {pattern : Dispatch.Pattern} (h : Dispatch.parsePattern payload = .ok pattern)
    {spaceId : String} {frames : List TransactionFrame}
    (hne : Reference.scanRows spaceId frames version pattern ≠ []) : payload.hasNaN = false := by
  obtain ⟨row, hrow⟩ := List.exists_mem_of_ne_nil _ hne
  obtain ⟨e, he, -⟩ := List.mem_map.1 hrow
  have hbound := (List.mem_filter.1 he).2
  unfold boundTo at hbound
  have hslot : ∀ (t : Option Term) (u : Term), t.all (·.eqv u) = true → t.any Term.hasNaN = false := by
    intro t u ht
    cases t with
    | none => rfl
    | some t => exact ((Term.eqv_iff t u).1 ht).1
  simp only [Bool.and_eq_true] at hbound
  rw [eq_of_parsePattern h]
  simp [rpcRecord, Triple.term, Term.hasNaN, hasNaN_rpcOption, hslot _ _ hbound.1.1, hslot _ _ hbound.1.2, hslot _ _ hbound.2,
    Term.kw, Atom.isNaN]

/-- A cursor is read back. -/
theorem parseScanCursor_scanCursor (space : String) {offset : Int} {payload : Term} (hn : payload.hasNaN = false)
    (hv : 0 ≤ version) (ho : 0 ≤ ordinal) (hf : 0 ≤ offset) :
    Dispatch.parseScanCursor (Dispatch.scanCursor space version ordinal offset payload).term space payload =
      .ok ⟨version, ordinal, offset⟩ := by
  have hread := readRecord_rpcRecord "rpc/native-scan-cursor" [.str space, .int version, .int ordinal, .int offset, payload]
    (by simp [maxListValues])
  have heqv : payload.eqv payload = true := (Term.eqv_self_iff payload).2 hn
  have hpos : ¬(version < 0 ∨ ordinal < 0 ∨ offset < 0) := by omega
  simp only [List.length_cons, List.length_nil, Nat.zero_add, Nat.reduceAdd] at hread
  simp only [Dispatch.parseScanCursor, Dispatch.scanCursor, hread, Term.str, Term.int, Term.asString, Term.asInt, ne_eq, not_true_eq_false,
    if_false, heqv, if_neg hpos, Bool.true_eq_false]

/-! ## Pages -/

section Pages

variable {Γ : Host} {R : Reads} {payloads : Term → Prop} {session session' : Session} {spaceId space : String}
  {frames : List TransactionFrame} {request : RpcRequest} {payload : Term} {pattern : Dispatch.Pattern} {limit : Nat}

/-- A scan that answers a page was asked for one within the limits, from a cursor that it takes. -/
theorem scanResponse_paged {current : Int} {page : RpcPageRequest} {answered : RpcPageResponse} {found : Term}
    (hpage : request.page = some page) (h : Dispatch.scanResponse Γ R session request current =
      .ok (session', pagedResponse request version answered found)) :
    1 ≤ page.limit ∧ page.limit ≤ 200 ∧ (∃ digest, Dispatch.canonicalTermSha256Result R request.payload = .ok digest) ∧
      ∃ cursor, BeginsAt request page current cursor ∧ cursor.version ≤ current := by
  unfold Dispatch.scanResponse at h
  split at h
  · cases h
  · simp only [hpage] at h
    split at h
    · cases h
    · rename_i hvalid
      unfold Dispatch.effectivePageLimit at hvalid
      split at h
      · cases h
      · rename_i cursor hcursor
        split at h
        · cases h
        · rename_i hv
          split at h
          · cases h
          · rename_i digest hdigest
            refine ⟨by omega, by omega, ⟨digest, hdigest⟩, cursor, ?_, not_lt.1 hv⟩
            cases hc : Dispatch.pageCursor page with
            | none =>
              rw [hc] at hcursor
              cases hcursor
              exact .first hc
            | some value =>
              rw [hc] at hcursor
              exact .cursor hc hcursor

/-- What a page of rows holds. -/
theorem scanPage_eq (request : RpcRequest) (limit : Nat) (cursor : Dispatch.ScanCursor) {rows : List Triple}
    (h : cursor.offset ≤ rows.length) : Dispatch.scanPage request limit cursor rows =
      pagedResponse request cursor.version
        (if rows.length ≤ cursor.offset.toNat + limit then ⟨cursor.ordinal, none, true⟩
        else ⟨cursor.ordinal, some (Dispatch.scanCursor request.space cursor.version (cursor.ordinal + 1)
          (cursor.offset.toNat + limit : Nat) request.payload).term, false⟩)
        (rpcTriples ((rows.drop cursor.offset.toNat).take limit)).term := by
  have hselected : (rows.take (min rows.length (cursor.offset.toNat + limit))).drop cursor.offset.toNat =
      (rows.drop cursor.offset.toNat).take limit := by
    have htake : rows.take (min rows.length (cursor.offset.toNat + limit)) = rows.take (cursor.offset.toNat + limit) := by
      rw [List.take_eq_take_iff]
      omega
    rw [htake, List.drop_take, Nat.add_sub_cancel_left]
  unfold Dispatch.scanPage
  rw [if_neg (by omega)]
  dsimp only
  rw [hselected]
  congr 1
  split
  · rename_i he
    rw [if_pos (by omega)]
  · rename_i he
    rw [if_neg (by omega), min_eq_right (by omega)]

/-- The page that goes on after some rows: the next rows, and the cursor past them when there are more. -/
def pageAfter (request : RpcRequest) (version ordinal : Int) (n total : Nat) : RpcPageResponse :=
  if total ≤ n then ⟨ordinal, none, true⟩
  else ⟨ordinal, some (Dispatch.scanCursor request.space version (ordinal + 1) n request.payload).term, false⟩

theorem scanRows_later (h : ∀ f ∈ later, version < f.sequence) (pattern : Dispatch.Pattern) :
    Reference.scanRows spaceId (frames ++ later) version pattern = Reference.scanRows spaceId frames version pattern := by
  unfold Reference.scanRows
  rw [framesUpTo_append h]

/-- A page of a scan at an earlier version, from the rows of that version. -/
theorem Serves.page (h : Serves Γ R payloads session spaceId (frames ++ later))
    (hd : Distinguished R payloads) (hlater : ∀ f ∈ later, version < f.sequence)
    (hv : version ≤ currentSequence session.store) (hp : payloads payload) (hpattern : Dispatch.parsePattern payload = .ok pattern)
    {digest : String} (hdigest : Dispatch.canonicalTermSha256Result R payload = .ok digest) {value : Option Term}
    (hr : PageRequest request space payload limit value) (hlimit : 1 ≤ limit) (hlimit' : limit ≤ 200) {n : Nat}
    (hn : n ≤ (Reference.scanRows spaceId frames version pattern).length)
    (hbegins : BeginsAt request ⟨limit, value⟩ (currentSequence session.store) ⟨version, ordinal, n⟩) :
    ∃ session' more, Dispatch.scanResponse Γ R session request (currentSequence session.store) =
        .ok (session', pagedResponse request version
          (pageAfter request version ordinal (n + limit) (Reference.scanRows spaceId frames version pattern).length)
          (rpcTriples more).term) ∧
      Serves Γ R payloads session' spaceId (frames ++ later) ∧
      List.Forall₂ Triple.same more (((Reference.scanRows spaceId frames version pattern).drop n).take limit) := by
  obtain ⟨hspace, rfl, hpage⟩ := hr
  obtain ⟨session', rows, hok, -, hserves, hrows⟩ := h.scanPage hd hp hpattern hpage hlimit hlimit' hdigest hbegins hv
  rw [scanRows_later hlater] at hrows
  have hlen := hrows.length_eq
  refine ⟨session', (rows.drop n).take limit, ?_, hserves, ?_⟩
  · rw [hok, scanPage_eq request limit ⟨version, ordinal, n⟩ (by dsimp only; omega)]
    unfold pageAfter
    rw [← hlen]
    rfl
  · exact List.forall₂_take limit (List.forall₂_drop n hrows)

/-- One more page of a scan of which some rows are answered. -/
theorem Serves.more (h : Serves Γ R payloads session spaceId (frames ++ later))
    (hd : Distinguished R payloads) (hlater : ∀ f ∈ later, version < f.sequence)
    (hv : version ≤ currentSequence session.store) (hp : payloads payload) (hpattern : Dispatch.parsePattern payload = .ok pattern)
    {value : Option Term} (hr : PageRequest request space payload limit value) (hordinal : 0 ≤ ordinal) {n : Nat}
    (hn : n ≤ (Reference.scanRows spaceId frames version pattern).length)
    (hbegins : BeginsAt request ⟨limit, value⟩ (currentSequence session.store) ⟨version, ordinal, n⟩) {served : Int}
    {page : RpcPageResponse} {found more : List Triple}
    (hfound : List.Forall₂ Triple.same found ((Reference.scanRows spaceId frames version pattern).take n))
    (ha : Dispatch.scanResponse Γ R session request (currentSequence session.store) =
      .ok (session', pagedResponse request served page (rpcTriples more).term)) : Serves Γ R payloads session' spaceId (frames ++ later) ∧
      List.Forall₂ Triple.same (found ++ more) ((Reference.scanRows spaceId frames version pattern).take (n + limit)) ∧
      ((page.nextCursor = none ∧ (Reference.scanRows spaceId frames version pattern).length ≤ n + limit) ∨
        n + limit < (Reference.scanRows spaceId frames version pattern).length ∧ ∃ ordinal, 0 ≤ ordinal ∧
          page.nextCursor = some (Dispatch.scanCursor space version ordinal (n + limit : Nat) payload).term) := by
  obtain ⟨hlimit, hlimit', ⟨digest, hdigest⟩, -⟩ := scanResponse_paged hr.page ha
  rw [hr.payload] at hdigest
  obtain ⟨session'', more', hok, hserves, hmore⟩ := h.page hd hlater hv hp hpattern hdigest hr hlimit hlimit' hn hbegins
  rw [ha] at hok
  obtain ⟨rfl, hresponse⟩ := Prod.mk.inj (Except.ok.inj hok)
  have hpage := Option.some.inj (congrArg RpcResponse.page hresponse)
  obtain rfl : more = more' :=
    rpcTriples_injective (Triple.term_injective (Option.some.inj (congrArg RpcResponse.payload hresponse)))
  refine ⟨hserves, ?_, ?_⟩
  · rw [List.take_add]
    exact List.rel_append hfound hmore
  · rw [hpage]
    unfold pageAfter
    split
    · rename_i hle
      exact Or.inl ⟨rfl, hle⟩
    · rename_i hgt
      refine Or.inr ⟨not_le.1 hgt, ordinal + 1, by omega, ?_⟩
      rw [hr.space, hr.payload]

/-- A scan that is given a cursor can go on from it later: the session is that of a longer history, and the cursor is read back. -/
theorem Serves.resume {start : Session} (h : Serves Γ R payloads start spaceId frames) (hd : Distinguished R payloads)
    (hpattern : Dispatch.parsePattern payload = .ok pattern)
    (hserves : Serves Γ R payloads session spaceId (frames ++ later)) (hlater : ∀ f ∈ later, currentSequence start.store < f.sequence)
    (hs : Relation.ReflTransGen (SessionStep Γ R payloads) session session') {n : Nat}
    (hn : n < (Reference.scanRows spaceId frames (currentSequence start.store) pattern).length) (hordinal : 0 ≤ ordinal) :
    (∃ later', Serves Γ R payloads session' spaceId (frames ++ later') ∧
      (∀ f ∈ later', currentSequence start.store < f.sequence) ∧ currentSequence start.store ≤ currentSequence session'.store) ∧
      Dispatch.parseScanCursor (Dispatch.scanCursor space (currentSequence start.store) ordinal n payload).term space payload =
        .ok ⟨currentSequence start.store, ordinal, n⟩ := by
  obtain ⟨later', hserves', hlater'⟩ := hserves.steps hd hs
  rw [List.append_assoc] at hserves'
  refine ⟨⟨later ++ later', hserves', fun f hf => ?_, h.versions hserves'⟩, ?_⟩
  · rcases List.mem_append.1 hf with hf | hf
    · exact hlater f hf
    · exact (h.versions hserves).trans_lt (hlater' f hf)
  · have hne : Reference.scanRows spaceId frames (currentSequence start.store) pattern ≠ [] := by
      intro he
      rw [he] at hn
      exact absurd hn (Nat.not_lt_zero _)
    have hpos : 0 ≤ currentSequence start.store := by
      have := h.represents.advances.next_pos
      unfold currentSequence
      omega
    exact parseScanCursor_scanCursor space (hasNaN_of_scanRows hpattern hne) hpos hordinal (Int.natCast_nonneg n)

/-- A scan that has answered some pages: the session is that of a longer history, the rows are the first of those of the version, and
the cursor stands after them. -/
theorem Paging.invariant {start : Session} (h : Serves Γ R payloads start spaceId frames) (hd : Distinguished R payloads)
    (hp : payloads payload) (hpattern : Dispatch.parsePattern payload = .ok pattern) {found : List Triple} {cursor : Option Term}
    (hpaging : Paging Γ R payloads space payload start session found cursor) :
    ∃ later n, Serves Γ R payloads session spaceId (frames ++ later) ∧
      (∀ f ∈ later, currentSequence start.store < f.sequence) ∧
      List.Forall₂ Triple.same found ((Reference.scanRows spaceId frames (currentSequence start.store) pattern).take n) ∧
      ((cursor = none ∧ (Reference.scanRows spaceId frames (currentSequence start.store) pattern).length ≤ n) ∨
        n < (Reference.scanRows spaceId frames (currentSequence start.store) pattern).length ∧
          ∃ ordinal, 0 ≤ ordinal ∧
            cursor = some (Dispatch.scanCursor space (currentSequence start.store) ordinal n payload).term) := by
  induction hpaging with
  | @first session request limit version page rows hr ha =>
    have hstart : Serves Γ R payloads start spaceId (frames ++ []) := by rwa [List.append_nil]
    obtain ⟨hserves, hrows, hcursor⟩ := hstart.more hd (by simp) (le_refl _) hp hpattern hr (le_refl 0) (Nat.zero_le _) (.first rfl)
      (by rw [List.take_zero]; exact .nil) ha
    rw [Nat.zero_add] at hrows hcursor
    exact ⟨[], limit, hserves, by simp, hrows, hcursor⟩
  | @next session session' session'' request limit version page rows more cursor hpaging hs hr ha ih =>
    obtain ⟨later, n, hserves, hlater, hrows, hcursor⟩ := ih
    rcases hcursor with ⟨hnone, -⟩ | ⟨hlt, ordinal, hordinal, hsome⟩
    · cases hnone
    · obtain rfl := Option.some.inj hsome
      obtain ⟨⟨later', hserves', hlater', hv⟩, hparse⟩ := h.resume hd hpattern hserves hlater hs hlt hordinal
      obtain ⟨hserves'', hrows', hcursor'⟩ := hserves'.more hd hlater' hv hp hpattern hr hordinal hlt.le
        (.cursor rfl (by rw [hr.space, hr.payload]; exact hparse)) hrows ha
      exact ⟨later', n + limit, hserves'', hlater', hrows', hcursor'⟩

end Pages

end Fram
