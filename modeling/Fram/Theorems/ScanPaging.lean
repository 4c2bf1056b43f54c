import Fram.Lemmas.Committed
import Fram.Lemmas.Paging

/-!
# Paging of scans

A scan that starts at some version and goes on from the cursors it is given yields what stood at that version, whatever is done to the
session between its pages. A cursor is checked and not remembered: one that passes the checks is answered, whoever made it.
-/

namespace Fram

/-- The request is answered by a page: the rows past the first `n`, as many as the limit, as of a version. -/
def AnswersPage (Γ : Host) (R : Reads) (session : Session) (request : RpcRequest) (version : Int) (rows : List Triple)
    (n limit : Nat) : Prop :=
  ∃ session' page more, Dispatch.scanResponse Γ R session request (currentSequence session.store) =
      .ok (session', pagedResponse request version page (rpcTriples more).term) ∧
    List.Forall₂ Triple.same more ((rows.drop n).take limit)

/-- A cursor passes the checks of a scan: it is a cursor of the space and the pattern, names no future version, and is not past the
rows of its version. -/
structure Admits (Γ : Host) (session : Session) (space : String) (payload : Term) (pattern : Dispatch.Pattern) (value : Term)
    (cursor : Dispatch.ScanCursor) (rows : List Triple) : Prop where
  parses : Dispatch.parseScanCursor value space payload = .ok cursor
  version : cursor.version ≤ currentSequence session.store
  rowsAt : RowsAt Γ session.store cursor.version pattern rows
  offset : cursor.offset ≤ rows.length

section Answers

variable {Γ : Host} {R : Reads} {payloads : Term → Prop} {session : Session} {spaceId space : String} {frames : List TransactionFrame}
  {request : RpcRequest} {payload : Term} {pattern : Dispatch.Pattern} {digest : String} {limit : Nat} {version : Int}
  {rows : List Triple}

/-- A page of a scan at a version, of the rows of that version. -/
theorem Serves.answersPage {later : List TransactionFrame} (h : Serves Γ R payloads session spaceId (frames ++ later))
    (hd : Distinguished R payloads) (hlater : ∀ f ∈ later, version < f.sequence) (hv : version ≤ currentSequence session.store)
    (hp : payloads payload) (hpattern : Dispatch.parsePattern payload = .ok pattern)
    (hdigest : Dispatch.canonicalTermSha256Result R payload = .ok digest) {value : Option Term}
    (hr : PageRequest request space payload limit value) (hlimit : 1 ≤ limit) (hlimit' : limit ≤ 200) {ordinal : Int} {n : Nat}
    (hrows : List.Forall₂ Triple.same rows (Reference.scanRows spaceId frames version pattern)) (hn : n ≤ rows.length)
    (hbegins : BeginsAt request ⟨limit, value⟩ (currentSequence session.store) ⟨version, ordinal, n⟩) :
    AnswersPage Γ R session request version rows n limit := by
  obtain ⟨session', more, hok, -, hmore⟩ := h.page hd hlater hv hp hpattern hdigest hr hlimit hlimit'
    (hrows.length_eq ▸ hn) hbegins
  refine ⟨session', _, more, hok, forall₂_triple_trans hmore ?_⟩
  exact List.forall₂_take limit (List.forall₂_drop n hrows)

/-- The positions of a cursor that is read are not negative. -/
theorem parseScanCursor_nonneg {value : Term} {cursor : Dispatch.ScanCursor}
    (h : Dispatch.parseScanCursor value space payload = .ok cursor) : 0 ≤ cursor.offset := by
  unfold Dispatch.parseScanCursor at h
  split at h
  · cases h
  · split at h
    · split at h
      · cases h
      · split at h
        · cases h
        · split at h
          · cases h
          · cases h
            dsimp only
            omega
    · cases h
  · cases h

/-- A cursor that passes the checks is answered with the rows of its version from its offset on. -/
theorem Serves.admitted (h : Serves Γ R payloads session spaceId frames) (hd : Distinguished R payloads) (hp : payloads payload)
    (hpattern : Dispatch.parsePattern payload = .ok pattern) (hdigest : Dispatch.canonicalTermSha256Result R payload = .ok digest)
    {carried : Option Term} {value : Term} (hr : PageRequest request space payload limit carried)
    (hvalue : Dispatch.pageCursor ⟨limit, carried⟩ = some value) (hlimit : 1 ≤ limit) (hlimit' : limit ≤ 200)
    {cursor : Dispatch.ScanCursor} (ha : Admits Γ session space payload pattern value cursor rows) :
    AnswersPage Γ R session request cursor.version rows cursor.offset.toNat limit := by
  have hpos := parseScanCursor_nonneg ha.parses
  have hoffset := ha.offset
  obtain ⟨rows', hrowsAt, hsame⟩ := h.rowsAt cursor.version pattern
  obtain rfl := ha.rowsAt.unique hrowsAt
  have hbegins : BeginsAt request ⟨limit, carried⟩ (currentSequence session.store)
      ⟨cursor.version, cursor.ordinal, (cursor.offset.toNat : Nat)⟩ := by
    rw [Int.toNat_of_nonneg hpos]
    exact .cursor hvalue (by rw [hr.space, hr.payload]; exact ha.parses)
  have h' : Serves Γ R payloads session spaceId (frames ++ []) := by rwa [List.append_nil]
  exact h'.answersPage hd (by simp) ha.version hp hpattern hdigest hr hlimit hlimit' hsame (by omega) hbegins

/-- A cursor that fails a check is refused. -/
theorem Serves.refused (h : Serves Γ R payloads session spaceId frames) (hd : Distinguished R payloads) (hp : payloads payload)
    (hpattern : Dispatch.parsePattern payload = .ok pattern) (hdigest : Dispatch.canonicalTermSha256Result R payload = .ok digest)
    {carried : Option Term} {value : Term} (hr : PageRequest request space payload limit carried)
    (hvalue : Dispatch.pageCursor ⟨limit, carried⟩ = some value) (hlimit : 1 ≤ limit) (hlimit' : limit ≤ 200)
    (hnot : ∀ cursor rows, ¬Admits Γ session space payload pattern value cursor rows) :
    ∃ session' served message, Dispatch.scanResponse Γ R session request (currentSequence session.store) =
      .ok (session', errorResponse request served "query-cursor-mismatch" false message) := by
  obtain ⟨rfl, rfl, hpage⟩ := hr
  have hvalid : ¬(limit < 1 ∨ Dispatch.effectivePageLimit < limit) := by
    unfold Dispatch.effectivePageLimit
    omega
  cases hparse : Dispatch.parseScanCursor value request.space request.payload with
  | error message =>
    refine ⟨session, currentSequence session.store, message, ?_⟩
    simp only [Dispatch.scanResponse, hpattern, hpage, if_neg hvalid, hvalue, hparse]
  | ok cursor =>
    by_cases hv : currentSequence session.store < cursor.version
    · refine ⟨session, currentSequence session.store, "scan cursor names a future store version", ?_⟩
      simp only [Dispatch.scanResponse, hpattern, hpage, if_neg hvalid, hvalue, hparse, if_pos hv]
    · obtain ⟨rows', hrowsAt, hsame⟩ := h.rowsAt cursor.version pattern
      obtain ⟨session', rows, hok, -, -, hrows⟩ := h.scanPage hd hp hpattern hpage hlimit hlimit' hdigest (.cursor hvalue hparse)
        (not_lt.1 hv)
      have hlen := hrows.length_eq.trans hsame.length_eq.symm
      have hpast : (rows.length : Int) < cursor.offset := by
        by_contra hle
        exact hnot cursor rows' ⟨hparse, not_lt.1 hv, hrowsAt, by omega⟩
      refine ⟨session', cursor.version, "scan cursor offset is past the result", ?_⟩
      rw [hok]
      unfold Dispatch.scanPage
      rw [if_pos hpast]

end Answers

/-- A scan that starts at a session is answered; what it has answered after some pages are the first rows of the version it started at, and
all of them once there is no cursor to go on from; and while there is one, the next page has the rows that follow, whatever is done to the
session meanwhile. -/
def PagesExactly (Γ : Host) (R : Reads) (payloads : Term → Prop) (start : Session) (payload : Term) (pattern : Dispatch.Pattern)
    (space : String) : Prop :=
  ∃ rows, RowsAt Γ start.store (currentSequence start.store) pattern rows ∧
    (∀ request limit, PageRequest request space payload limit none → 1 ≤ limit → limit ≤ 200 →
      AnswersPage Γ R start request (currentSequence start.store) rows 0 limit) ∧
    ∀ session found cursor, Paging Γ R payloads space payload start session found cursor →
      ∃ n, List.Forall₂ Triple.same found (rows.take n) ∧ (cursor = none → List.Forall₂ Triple.same found rows) ∧
        ∀ value, cursor = some value → n < rows.length ∧
          ∀ session', Relation.ReflTransGen (SessionStep Γ R payloads) session session' →
            ∀ request limit, PageRequest request space payload limit (some value) → 1 ≤ limit → limit ≤ 200 →
              AnswersPage Γ R session' request (currentSequence start.store) rows n limit

/-- **Paging of scans is exact** from any session that is reached. And a page that carries a cursor is answered from it exactly when the
cursor passes the checks, whether or not the server ever returned it. -/
theorem scan_paging (Γ : Host) {R : Reads} {payloads : Term → Prop} (hd : Distinguished R payloads) {start : Session}
    (hs : Reached Γ R payloads start) {payload : Term} (hp : payloads payload) {pattern : Dispatch.Pattern}
    (hpattern : Dispatch.parsePattern payload = .ok pattern) {digest : String}
    (hdigest : Dispatch.canonicalTermSha256Result R payload = .ok digest) (space : String) :
    PagesExactly Γ R payloads start payload pattern space ∧
      ∀ request limit carried value, PageRequest request space payload limit carried → 1 ≤ limit → limit ≤ 200 →
        Dispatch.pageCursor ⟨limit, carried⟩ = some value →
        (∀ cursor rows, Admits Γ start space payload pattern value cursor rows →
          AnswersPage Γ R start request cursor.version rows cursor.offset.toNat limit) ∧
        ((∀ cursor rows, ¬Admits Γ start space payload pattern value cursor rows) →
          ∃ session' served message, Dispatch.scanResponse Γ R start request (currentSequence start.store) =
            .ok (session', errorResponse request served "query-cursor-mismatch" false message)) := by
  obtain ⟨spaceId, frames, hserves⟩ := hs.serves hd
  have hstart : Serves Γ R payloads start spaceId (frames ++ []) := by rwa [List.append_nil]
  obtain ⟨rows, hrowsAt, hsame⟩ := hserves.rowsAt (currentSequence start.store) pattern
  refine ⟨⟨rows, hrowsAt, ?_, ?_⟩, ?_⟩
  · intro request limit hr hlimit hlimit'
    exact hstart.answersPage hd (by simp) (le_refl _) hp hpattern hdigest hr hlimit hlimit' hsame (Nat.zero_le _) (.first rfl)
  · intro session found cursor hpaging
    obtain ⟨later, n, hserves', hlater, hfound, hcursor⟩ := hpaging.invariant hserves hd hp hpattern
    have hlen := hsame.length_eq
    refine ⟨n, forall₂_triple_trans hfound (List.forall₂_take n hsame), fun hnone => ?_, fun value hvalue => ?_⟩
    · rcases hcursor with ⟨-, hle⟩ | ⟨-, ordinal, -, hsome⟩
      · rw [List.take_of_length_le hle] at hfound
        exact forall₂_triple_trans hfound hsame
      · rw [hnone] at hsome
        cases hsome
    · rcases hcursor with ⟨hnone, -⟩ | ⟨hlt, ordinal, hordinal, hsome⟩
      · rw [hvalue] at hnone
        cases hnone
      · rw [hvalue] at hsome
        obtain rfl := Option.some.inj hsome
        refine ⟨by omega, fun session' hsteps request limit hr hlimit hlimit' => ?_⟩
        obtain ⟨⟨later', hserves'', hlater', hv⟩, hparse⟩ := hserves.resume hd hpattern hserves' hlater hsteps hlt hordinal
        exact hserves''.answersPage hd hlater' hv hp hpattern hdigest hr hlimit hlimit' hsame (by omega)
          (.cursor rfl (by rw [hr.space, hr.payload]; exact hparse))
  · intro request limit carried value hr hlimit hlimit' hvalue
    exact ⟨fun cursor rows ha => hserves.admitted hd hp hpattern hdigest hr hvalue hlimit hlimit' ha,
      fun hnot => hserves.refused hd hp hpattern hdigest hr hvalue hlimit hlimit' hnot⟩

/-! ## The session of one assertion -/

/-- The pattern that binds nothing. -/
def everyTriple : Term := (rpcRecord "rpc/triple-pattern" [rpcOption none, rpcOption none, rpcOption none]).term

/-- The digest of the pattern that binds nothing, and no read route. -/
def everyTripleReads : Reads where
  sha256 _ := "c25c1a97a74178706e7fb85d9cc6ee5a240c39dbbd2c8af9e9ba2f22c40a402f"
  query _ _ := .error invalidTermHandle
  occurrences _ _ := .error invalidTermHandle
  validate _ _ := .error invalidTermHandle

theorem everyTriple_digest : Dispatch.canonicalTermSha256Result everyTripleReads everyTriple =
    .ok "c25c1a97a74178706e7fb85d9cc6ee5a240c39dbbd2c8af9e9ba2f22c40a402f" := by
  have hfits : everyTriple.Fits rpcV2MaxStringBytes := by
    simp only [everyTriple, Term.Fits, Term.All, rpcRecord, rpcList_cons, rpcList_nil, Triple.term, rpcOption, Term.kw, Atom.Fits]
    decide
  have hw : written (appendTerm everyTriple 0) = .ok everyTriple.bytes := written_appendTerm_ok (by decide) (by decide) hfits
  simp only [Dispatch.canonicalTermSha256Result, hw, bind, Except.bind]
  rfl

theorem everyTriple_distinguished : Distinguished everyTripleReads (· = everyTriple) := by
  refine ⟨fun p hp => ?_, fun p q hp hq _ => by rw [hp, hq]⟩
  subst hp
  simp only [everyTriple, Term.Ranged, Term.All, rpcRecord, rpcList_cons, rpcList_nil, Triple.term, rpcOption, Term.kw, Atom.Ranged,
    and_self]

/-- The session of a log of one assertion. -/
theorem reached_one : ∃ start, Reached Host.zero everyTripleReads (· = everyTriple) start ∧
    Serves Host.zero everyTripleReads (· = everyTriple) start "s" [oneFrame] := by
  obtain ⟨result, store, hr, hs, -, -, hfor⟩ := bootStore_nil_boots (Γ := Host.zero) committedLog_one.boots ""
  refine ⟨store.session, .boot (by decide) (.none _) hr hs, hfor.toSessionFor, ?_⟩
  rw [bootStore_orderedResults hr hs]
  exact fun entry hentry => nomatch hentry

/-- A scan of everything, of a log of one assertion. -/
theorem scan_paging_one : ∃ start, Reached Host.zero everyTripleReads (· = everyTriple) start ∧
    PagesExactly Host.zero everyTripleReads (· = everyTriple) start everyTriple ⟨none, none, none⟩ "s" := by
  obtain ⟨start, hs, -⟩ := reached_one
  exact ⟨start, hs, (scan_paging Host.zero everyTriple_distinguished hs rfl rfl everyTriple_digest "s").1⟩

/-- A cursor past the only row: no scan that starts there is given one. -/
def forgedCursor : Term := (Dispatch.scanCursor "s" 1 0 1 everyTriple).term

/-- A cursor that the server never returned is answered, by a page without the row that the scan is for. -/
theorem scan_paging_forged : ∃ start, Reached Host.zero everyTripleReads (· = everyTriple) start ∧
    (∃ row, RowsAt Host.zero start.store (currentSequence start.store) ⟨none, none, none⟩ [row]) ∧
    (∀ session found, ¬Paging Host.zero everyTripleReads (· = everyTriple) "s" everyTriple start session found (some forgedCursor)) ∧
    ∀ request, PageRequest request "s" everyTriple 200 (some forgedCursor) → ∃ session' page,
      Dispatch.scanResponse Host.zero everyTripleReads start request (currentSequence start.store) =
        .ok (session', pagedResponse request 1 page (rpcTriples []).term) := by
  obtain ⟨start, hs, hserves⟩ := reached_one
  have hcurrent : currentSequence start.store = 1 := hserves.represents.currentSequence
  have hrows : Reference.scanRows "s" [oneFrame] 1 ⟨none, none, none⟩ = [⟨.int 1, .int 2, .int 3⟩] := by decide
  refine ⟨start, hs, ?_, ?_, ?_⟩
  · obtain ⟨rows, hrowsAt, hsame⟩ := hserves.rowsAt (currentSequence start.store) ⟨none, none, none⟩
    rw [hcurrent, hrows] at hsame
    obtain ⟨row, rfl⟩ := List.length_eq_one_iff.1 hsame.length_eq
    exact ⟨row, hrowsAt⟩
  · intro session found hpaging
    obtain ⟨later, n, -, -, -, hcursor⟩ := hpaging.invariant hserves everyTriple_distinguished rfl rfl
    rw [hcurrent, hrows] at hcursor
    rcases hcursor with ⟨hnone, -⟩ | ⟨hlt, ordinal, -, hsome⟩
    · cases hnone
    · obtain rfl : n = 0 := by simpa using hlt
      simp [forgedCursor, Dispatch.scanCursor, rpcRecord, Triple.term, Term.int] at hsome
  · intro request hr
    have hstart : Serves Host.zero everyTripleReads (· = everyTriple) start "s" ([oneFrame] ++ []) := hserves
    have hparse : Dispatch.parseScanCursor forgedCursor "s" everyTriple = .ok ⟨1, 0, (1 : Nat)⟩ :=
      parseScanCursor_scanCursor "s" (by decide) (by decide) (by decide) (by decide)
    have hlength : 1 ≤ (Reference.scanRows "s" [oneFrame] 1 ⟨none, none, none⟩).length := by decide
    obtain ⟨session', more, hok, -, hmore⟩ := hstart.page everyTriple_distinguished (by simp) hcurrent.ge rfl rfl everyTriple_digest hr
      (by decide) (by decide) hlength (.cursor rfl (by rw [hr.space, hr.payload]; exact hparse))
    have hempty : ((Reference.scanRows "s" [oneFrame] 1 ⟨none, none, none⟩).drop 1).take 200 = [] := by decide
    rw [hempty, List.forall₂_nil_right_iff] at hmore
    subst hmore
    exact ⟨session', _, hok⟩

end Fram
