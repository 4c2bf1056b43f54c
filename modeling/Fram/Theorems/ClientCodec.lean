import Fram.Lemmas.ClientCodec

/-!
# The client and the engine read each other

Every request that the client writes is read by the engine as the request that the caller made. What the engine answers, and what the
client wrote itself, the client reads as it was exactly where no text of it begins with a byte order mark (`client_reads_back`): a mark
is dropped (`client_drops_mark`).
-/

namespace Fram.Client

open Database (scalars utf16 scalars_utf16 utf16_injective)
open Reader LittleEndian
open Lines (Text)

variable {t : JsTerm} {bytes : Bytes} {operation label s : String} {α β : Type} {requestId : Int} {w : Write} {response : RpcResponse}

/-! ## Requests -/

theorem nanos_lt (millis : Int) : (millis % 1000).toNat * 1000000 < 1000000000 := by
  omega

/-- The term that a value stands for: a whole number an integer, another number a double, and a date an instant. -/
def JsValue.value : JsValue → Option Term
  | .term t => t.value
  | .string value => (scalars value).map fun cs => .str (String.ofList cs)
  | .bigint n => some (.int n)
  | .integer n => some (.int n)
  | .number x => some (.atom (.float x))
  | .boolean b => some (.bool b)
  | .date millis => some (.atom (.instant ⟨millis / 1000, (millis % 1000).toNat * 1000000, nanos_lt millis⟩))

/-- The page that a caller asks for. -/
structure PageStands (page : PageOptions) (request : RpcPageRequest) : Prop where
  limit : (request.limit : Int) = page.limit.toInt
  cursor : Option.Rel (fun v x => v.value = some x) page.cursor request.cursor

/-- The request that a caller makes. -/
structure Stands (space : List UInt16) (operation : String) (payload : JsValue) (options : RequestOptions) (request : RpcRequest) :
    Prop where
  space : scalars space = some request.space.toList
  op : request.op = ⟨operation⟩
  expectedVersion : Option.Rel (fun (v : JsInteger) (n : Int) => v.toInt = n) options.expectedVersion request.expectedVersion
  page : Option.Rel PageStands options.page request.page
  timeoutMs : Option.Rel (fun (v : JsInteger) (n : Nat) => v.toInt = n) options.timeoutMs request.timeoutMs
  payload : payload.value = some request.payload

theorem dateSeconds_eq (millis : Int) : dateSeconds millis = millis / 1000 := by
  rw [dateSeconds]
  split
  · rw [Int.tdiv_eq_ediv_of_nonneg (by omega)]
  · have hsign : Int.sign 1000 = 1 := rfl
    rw [Int.tdiv_eq_ediv, hsign]
    split <;> omega

theorem floatBits_value (x : F64) : F64.ofBits (i64OfNat (Hex.value (floatBits x))) = x := by
  rw [floatBits]
  split
  · rename_i h
    have hc := x.canonical h
    obtain ⟨bits, hx⟩ := x
    subst hc
    exact (by with_unfolding_all decide : F64.ofBits (i64OfNat (Hex.value canonicalNaNText)) = F64.nan)
  · have hvalue : Hex.value (Hex.digits 16 x.bits.toNat) = x.bits.toNat := by
      rw [Hex.value_digits]
      exact Nat.mod_eq_of_lt (by have := x.bits.isLt; norm_num at this ⊢; omega)
    rw [hvalue, ofBits_i64OfNat_toNat]

/-- The tagged array of a value stands for the same term. -/
theorem value_of_term {v : JsValue} (h : term v = .ok t) : t.value = v.value := by
  cases v with
  | term t' =>
    simp only [term, ExceptList.bind_eq_ok_iff, Except.ok.injEq] at h
    obtain ⟨_, -, rfl⟩ := h
    rfl
  | string value =>
    simp only [term, stringTerm, ExceptList.bind_eq_ok_iff, Except.ok.injEq] at h
    obtain ⟨_, -, rfl⟩ := h
    rfl
  | bigint n =>
    simp only [term, integerTerm, ExceptList.bind_eq_ok_iff, Except.ok.injEq] at h
    obtain ⟨text, ht, rfl⟩ := h
    rw [JsTerm.value, JsInteger.toInt, (decimal_eq_ok ht).1]
    rfl
  | integer n =>
    simp only [term, integerTerm, ExceptList.bind_eq_ok_iff, Except.ok.injEq] at h
    obtain ⟨text, ht, rfl⟩ := h
    rw [JsTerm.value, JsInteger.toInt, (decimal_eq_ok ht).1]
    rfl
  | number x =>
    cases h
    rw [JsTerm.value, floatBits_value]
    rfl
  | boolean b =>
    cases h
    rfl
  | date millis =>
    simp only [term, instantTerm, ExceptList.bind_eq_ok_iff, Except.ok.injEq] at h
    obtain ⟨text, ht, text', ht', rfl⟩ := h
    have hs := (decimal_eq_ok ht).1
    have hn := (decimal_eq_ok ht').1
    simp only [JsInteger.toInt, dateSeconds_eq] at hs hn
    simp only [JsTerm.value, JsInteger.toInt, JsValue.value, hs, hn]
    rw [dif_pos ⟨by omega, by omega⟩]
    congr 4
    omega

/-- The engine reads what the client writes of a term. -/
theorem termRead_of_writeTerm {before after : Budget} (h : writeTerm t before = .ok (bytes, after)) :
    ∃ x, t.value = some x ∧ TermRead before.nodes x bytes after.nodes := by
  simp only [writeTerm, ExceptList.bind_eq_ok_iff, Except.ok.injEq, Prod.mk.injEq] at h
  obtain ⟨budget, hv, used, hb, rfl, rfl⟩ := h
  obtain ⟨x, w⟩ := written_of_validateTerm hv
  rw [w.bytes] at hb
  cases hb
  have hh := w.depth_le
  rw [Nat.zero_add] at hh
  exact ⟨x, w.value, x.encoded_bytes, w.nodes, w.nodes_le, hh, w.fits, w.ranged⟩

theorem pageRequest_eq_ok {page : PageOptions} {controls : PageControls} (h : pageRequest page = .ok controls) :
    (controls.limit : Int) = page.limit.toInt ∧ controls.limit < 256 ^ 4 ∧
      Option.Rel (fun v t => term v = .ok t) page.cursor controls.cursor := by
  simp only [pageRequest, ExceptList.bind_eq_ok_iff, Except.ok.injEq, ExceptList.option_mapM_eq_ok_iff] at h
  obtain ⟨limit, hl, cursor, hc, rfl⟩ := h
  obtain ⟨rfl, h1, h2⟩ := integerBigInt_eq_ok hl
  simp only [MAX_PAGE_LIMIT] at h2
  exact ⟨by dsimp only; omega, by dsimp only; omega, hc⟩

/-- The engine reads the page that the client writes. -/
theorem pageRead_of_writePage {options : Option PageOptions} {page : Option PageControls}
    (hpage : Option.Rel (fun p c => pageRequest p = .ok c) options page) {before after : Budget}
    (h : writePage page before = .ok (bytes, after)) :
    ∃ request, Option.Rel PageStands options request ∧ OptionRead PageRead before.nodes request bytes after.nodes := by
  cases hpage with
  | none =>
    cases h
    exact ⟨none, .none, rfl, rfl⟩
  | @some p c hp =>
    obtain ⟨hlimit, hlt, hcursor⟩ := pageRequest_eq_ok hp
    simp only [writePage, ExceptList.bind_eq_ok_iff, Except.ok.injEq, Prod.mk.injEq, Prod.exists] at h
    obtain ⟨cursor, budget, hc, rfl, rfl⟩ := h
    have hread : ∃ x, Option.Rel (fun v x => v.value = some x) p.cursor x ∧ OptionRead TermRead before.nodes x cursor budget.nodes := by
      generalize p.cursor = v at hcursor
      generalize c.cursor = t at hcursor hc
      cases hcursor with
      | none =>
        cases hc
        exact ⟨none, .none, rfl, rfl⟩
      | some ht =>
        simp only [writeCursor, ExceptList.bind_eq_ok_iff, Except.ok.injEq, Prod.mk.injEq, Prod.exists] at hc
        obtain ⟨used, budget', hw, rfl, rfl⟩ := hc
        obtain ⟨x, hx, hr⟩ := termRead_of_writeTerm hw
        exact ⟨some x, .some (by rw [← value_of_term ht, hx]), used, rfl, hr⟩
    obtain ⟨x, hx, hr⟩ := hread
    exact ⟨some ⟨c.limit, x⟩, .some ⟨hlimit, hx⟩, _, rfl, cursor, rfl, hlt, hr⟩

theorem requestControls_eq_ok {options : RequestOptions} {controls : RequestControls}
    (h : requestControls operation options = .ok controls) :
    Option.Rel (fun (v : JsInteger) (n : Int) => n = v.toInt ∧ InI64 n) options.expectedVersion controls.expectedVersion ∧
      Option.Rel (fun p c => pageRequest p = .ok c) options.page controls.page ∧
        Option.Rel (fun (v : JsInteger) (n : Nat) => v.toInt = n ∧ n < 256 ^ 4) options.timeoutMs controls.timeoutMs := by
  simp only [requestControls, ExceptList.bind_eq_ok_iff, ExceptList.option_mapM_eq_ok_iff] at h
  obtain ⟨version, hv, page, hp, timeout, ht, h⟩ := h
  split at h
  · cases h
  split at h
  · cases h
  cases h
  refine ⟨ExceptList.option_rel_imp hv ?_, hp, ExceptList.option_rel_map (ExceptList.option_rel_imp ht ?_)⟩
  · intro v n hn
    obtain ⟨rfl, h1, h2⟩ := integerBigInt_eq_ok hn
    simp only [I64_MAX] at h2
    exact ⟨rfl, by omega, h2⟩
  · intro v n hn
    obtain ⟨rfl, h1, h2⟩ := integerBigInt_eq_ok hn
    simp only [U32_MAX] at h2
    exact ⟨by omega, by omega⟩

theorem finishRequest_eq (requestId : Int) (body : Bytes) : finishRequest requestId body = frameAround requestId body := by
  simp [finishRequest, frameAround, framed, rpcHeaderBytes, MAGIC, rpcV2Magic]

/-- The engine reads an optional value that the client writes. -/
theorem optionRead_writeOptional {R : Nat → β → Bytes → Nat → Prop} {S : α → β → Prop} {f : β → Bytes} {o : Option α} {o' : Option β}
    (ho : Option.Rel S o o') (n : Nat) (h : ∀ a b, S a b → R n b (f b) n) : OptionRead R n o' (writeOptional o' f) n := by
  cases ho with
  | none => exact ⟨rfl, rfl⟩
  | some hr => exact ⟨_, rfl, h _ _ hr⟩

/-- A request that the client writes is the frame of a body that the engine reads as the request of the caller. -/
theorem requestRead_of_encodeRequest {space : List UInt16} {payload : JsValue}
    {options : RequestOptions} {operations : List String} {encoded : EncodedRequest}
    (h : encodeRequest requestId space operation payload options operations = .ok encoded) :
    ∃ request body n, encoded.frame = frameAround requestId body ∧ body.length ≤ rpcV2MaxBodyBytes ∧ RequestRead 0 request body n ∧
      Stands space operation payload options request := by
  simp only [encodeRequest] at h
  split at h
  · cases h
  simp only [ExceptList.bind_eq_ok_iff] at h
  obtain ⟨bytes, hspace, h⟩ := h
  obtain ⟨s, hs, rfl, hsl⟩ := strictUtf8_eq_ok hspace
  split at h
  · cases h
  simp only [ExceptList.bind_eq_ok_iff, Prod.exists] at h
  obtain ⟨controls, hcontrols, spaceTerm, hst, b1, budget1, hw1, opTerm, hot, b2, budget2, hw2, b4, budget4, hw4, payloadTerm, hpt, b6,
    budget6, hw6, h⟩ := h
  split at h
  · cases h
  rename_i hlen
  cases h
  simp only [stringTerm, ExceptList.bind_eq_ok_iff, Except.ok.injEq] at hst
  obtain ⟨_, -, rfl⟩ := hst
  simp only [keywordTerm, ExceptList.bind_eq_ok_iff, Except.ok.injEq] at hot
  obtain ⟨_, -, rfl⟩ := hot
  obtain ⟨hversion, hpages, htimeout⟩ := requestControls_eq_ok hcontrols
  obtain ⟨x1, hx1, r1⟩ := termRead_of_writeTerm hw1
  obtain ⟨x2, hx2, r2⟩ := termRead_of_writeTerm hw2
  obtain ⟨page, hps, hpr⟩ := pageRead_of_writePage hpages hw4
  obtain ⟨x6, hx6, r6⟩ := termRead_of_writeTerm hw6
  rw [JsTerm.value, hs, Option.map_some, String.ofList_toList, Option.some.injEq] at hx1
  rw [JsTerm.value, scalars_utf16, Option.map_some, String.ofList_toList, Option.some.injEq] at hx2
  subst hx1 hx2
  obtain ⟨e1, n1, -, -, -, -⟩ := r1
  obtain ⟨e2, n2, hmax, -, f2, -⟩ := r2
  obtain rfl : b1 = 1 :: sizedText s := e1
  obtain rfl : b2 = 6 :: sizedText operation := e2
  have hn1 : budget1.nodes = 1 := n1
  have hn2 : budget2.nodes = 2 := by rw [n2, hn1]; rfl
  have r3 := optionRead_writeOptional (R := I64Read) (f := fun version => toBytes 8 (natOfI64 version)) hversion budget2.nodes
    fun v n hn => ⟨rfl, hn.2, rfl⟩
  have r5 := optionRead_writeOptional (R := U32Read) (f := toBytes 4) htimeout budget4.nodes fun v n hn => ⟨rfl, hn.2, rfl⟩
  rw [hn2] at r3 hpr
  refine ⟨⟨s, ⟨operation⟩, controls.expectedVersion, page, controls.timeoutMs, x6⟩, _, budget6.nodes, finishRequest_eq _ _,
    Nat.not_lt.1 hlen, ⟨⟨hsl, f2.1, f2.2⟩, by decide, _, b4, _, b6, _, _, _, ?_, r3, hpr, r5, r6⟩, hs, rfl,
    ExceptList.option_rel_imp hversion fun v n hn => hn.1.symm, hps, ExceptList.option_rel_imp htimeout fun v n hn => hn.1, ?_⟩
  · simp [envelope]
  · rw [← value_of_term hpt, hx6]

/-- The engine reads the request that the caller made, under the number that the client gave it. -/
def ReadsRequest (requestId : Int) (space : List UInt16) (operation : String) (payload : JsValue) (options : RequestOptions)
    (bytes : Bytes) : Prop :=
  ∃ request, decodeRequestBytes bytes = .ok ⟨⟨"request"⟩, 0, i64OfNat (natOfI64 requestId), some request, none⟩ ∧
    Stands space operation payload options request

/-- The engine reads the request that the client writes. -/
theorem readsRequest_of_encodeRequest {space : List UInt16} {payload : JsValue}
    {options : RequestOptions} {operations : List String} {encoded : EncodedRequest}
    (h : encodeRequest requestId space operation payload options operations = .ok encoded) :
    ReadsRequest requestId space operation payload options encoded.frame := by
  obtain ⟨request, body, n, hf, hl, hr, hs⟩ := requestRead_of_encodeRequest h
  have hid : frameAround requestId body = frameAround (i64OfNat (natOfI64 requestId)) body := by
    simp only [frameAround, framed, rpcHeaderBytes, natOfI64_i64OfNat (natOfI64_lt requestId)]
  exact ⟨request, decodeRequestBytes_eq_ok_iff.2 ⟨_, request, body, n, rfl, hf.trans hid, inI64_i64OfNat _, hl, hr⟩, hs⟩

/-! ## Responses -/

/-- The writer writes bytes of which, whatever follows them, the reader returns the value where the condition holds and fails where it does
not. Both count the same nodes. -/
def Echoes {α : Type} (w : Write) (p : ClientRead α) (good : Prop) (a : α) : Prop :=
  ∃ ok bytes nodes, Writes w ok bytes (· + nodes) ∧ ∀ n, ok n → Reads p bytes good a nodes ∧ (n ≤ MAX_TERM_NODES → n + nodes ≤ MAX_TERM_NODES)

theorem Echoes.bind {w' : Write} {p : ClientRead α} {f : α → ClientRead β} {good good' : Prop} {a : α} {b : β}
    (h : Echoes w p good a) (h' : Echoes w' (f a) good' b) : Echoes (do w; w') (p >>= f) (good ∧ good') b := by
  obtain ⟨ok, bytes, k, hw, hr⟩ := h
  obtain ⟨ok', bytes', k', hw', hr'⟩ := h'
  refine ⟨_, _, k + k', (hw.bind hw').congr (fun _ => Iff.rfl) rfl (fun n => Nat.add_assoc n k k'), ?_⟩
  intro n hn
  obtain ⟨h1, h2⟩ := hr n hn.1
  obtain ⟨h3, h4⟩ := hr' _ hn.2
  refine ⟨h1.bind h3, fun hle => ?_⟩
  have := h4 (h2 hle)
  omega

theorem Echoes.map {p : ClientRead α} {good : Prop} {a : α} (h : Echoes w p good a) (f : α → β) :
    Echoes w (p >>= fun x => pure (f x)) good (f a) := by
  obtain ⟨ok, bytes, k, hw, hr⟩ := h
  exact ⟨ok, bytes, k, hw, fun n hn => ⟨(hr n hn).1.map f, (hr n hn).2⟩⟩

theorem Echoes.congr {p : ClientRead α} {good good' : Prop} {a a' : α} (h : Echoes w p good a)
    (hg : good ↔ good') (ha : a = a') : Echoes w p good' a' := by
  rwa [← hg, ← ha]

/-- A writer of some bytes, whatever the count of nodes. -/
theorem echoes_of_reads {p : ClientRead α} {c good : Prop} {a : α}
    (hw : Writes w (fun _ => c) bytes fun n => n) (hr : c → Reads p bytes good a 0) : Echoes w p good a :=
  ⟨_, _, 0, hw, fun _ hn => ⟨hr hn, id⟩⟩

theorem echoes_term {x : Term} (hr : x.Ranged) : Echoes (appendTerm x 0) readTerm (x.All Named) (seen x) := by
  refine ⟨_, _, _, writes_appendTerm x 0, ?_⟩
  intro n hn
  obtain ⟨hh, hle, hf⟩ := hn
  rw [Nat.zero_add] at hh
  exact ⟨reads_readTermAt (Nat.lt_succ_of_le hh) hf hr, fun _ => hle⟩

/-- A keyword, and what follows it. -/
theorem echoes_keyword {k : Keyword} {f : List UInt16 → ClientRead β} {good : Prop} {b : β}
    (h : Echoes w (f (utf16 (withoutMark k.spelling))) good b) : Echoes (do
      appendTerm (.atom (.keyword k)) 0
      w) (do
      let t ← readTerm
      let name ← keywordName t label
      f name) (Named (.keyword k) ∧ good) b :=
  Echoes.bind (echoes_term (x := .atom (.keyword k)) trivial) h

/-- A text, and what follows it. -/
theorem echoes_string {f : List UInt16 → ClientRead β} {good : Prop} {b : β} (h : Echoes w (f (utf16 (withoutMark s))) good b) : Echoes (do
      appendTerm (.str s) 0
      w) (do
      let t ← readTerm
      let text ← stringValue t label
      f text) (Named (.string s) ∧ good) b :=
  Echoes.bind (echoes_term (x := .str s) trivial) h

theorem echoes_optional {append : α → Write} {read : ClientRead β} {good : α → Prop} {f : α → β} (context : String)
    {o : Option α} (h : ∀ a, o = some a → Echoes (append a) read (good a) (f a)) :
    Echoes (appendOptional o append) (readOptional context read) (∀ a, o = some a → good a) (o.map f) := by
  cases o with
  | none =>
    have hnone : Reads (readOptional context read) ([0] ++ []) True none 0 :=
      Reads.after (reads_readFlag context _ false) (reads_pure none)
    exact (echoes_of_reads (c := True) (writes_appendBytes [0]) fun _ => hnone).congr (by simp) rfl
  | some a =>
    have hsome : Echoes (append a) (read >>= fun x => pure (some x)) (good a) (some (f a)) := (h a rfl).map some
    have hflag : Echoes (appendPresence true) (presence context) True true :=
      echoes_of_reads (c := True) (writes_appendBytes [1]) fun _ => reads_readFlag context _ true
    have hbody : Echoes (append a) (if true = true then some <$> read else pure none) (good a) (some (f a)) := by
      rw [if_pos rfl, map_eq_pure_bind]
      exact hsome
    exact (hflag.bind (f := fun b => if b = true then some <$> read else pure none) hbody).congr (by simp) rfl

/-- The texts of a page satisfy a predicate. -/
def pageAll (P : Atom → Prop) (page : RpcPageResponse) : Prop := ∀ x, page.nextCursor = some x → x.All P

/-- The texts of an error satisfy a predicate. -/
structure ErrorAll (P : Atom → Prop) (error : RpcError) : Prop where
  code : P (.keyword error.code)
  message : P (.string error.message)
  detail : ∀ x, error.detail = some x → x.All P

/-- The texts of a response satisfy a predicate. -/
structure ResponseAll (P : Atom → Prop) (response : RpcResponse) : Prop where
  space : P (.string response.space)
  op : P (.keyword response.op)
  page : ∀ page, response.page = some page → pageAll P page
  error : ∀ error, response.error = some error → ErrorAll P error
  payload : ∀ x, response.payload = some x → x.All P

/-- What the client reads of a page. -/
def seenPage (page : RpcPageResponse) : JsPage := ⟨page.ordinal.toNat, page.nextCursor.map seen, page.done⟩

/-- What the client reads of an error. -/
def seenError (error : RpcError) : JsError :=
  ⟨utf16 (withoutMark error.code.spelling), error.retryable, utf16 (withoutMark error.message), error.detail.map seen⟩

/-- What the client reads of a response. -/
def seenResponse (response : RpcResponse) : JsResponse :=
  ⟨utf16 (withoutMark response.space), utf16 (withoutMark response.op.spelling), response.servedVersion, response.page.map seenPage,
    response.error.map seenError, response.payload.map seen⟩

theorem echoes_page {page : RpcPageResponse} (hr : pageAll Atom.Ranged page) :
    Echoes (appendPageResponse page) responsePage (pageAll Named page) (seenPage page) := by
  have hordinal : Echoes (appendU32Le page.ordinal) (readUnsigned 4 "page ordinal") True page.ordinal.toNat :=
    echoes_of_reads (writes_appendU32Le _) fun h => reads_readUnsigned _ (by omega)
  have hcursor := echoes_optional (f := seen) "next cursor presence" fun x hx => echoes_term (hr x hx)
  have hdone : Echoes (appendBytes [if page.done then 1 else 0]) (bool "page done") True page.done :=
    echoes_of_reads (c := True) (writes_appendBytes _) fun _ => reads_readFlag _ _ _
  exact (hordinal.bind (hcursor.bind (hdone.map _))).congr (by simp [pageAll]) rfl

theorem echoes_error {error : RpcError} (hr : ErrorAll Atom.Ranged error) :
    Echoes (appendError error) responseError (ErrorAll Named error) (seenError error) := by
  have hretryable : Echoes (appendBytes [if error.retryable then 1 else 0]) (bool "error retryable") True error.retryable :=
    echoes_of_reads (c := True) (writes_appendBytes _) fun _ => reads_readFlag _ _ _
  have hdetail := echoes_optional (f := seen) "error detail presence" fun x hx => echoes_term (hr.detail x hx)
  refine (echoes_keyword (hretryable.bind (echoes_string (hdetail.map _)))).congr ?_ rfl
  constructor
  · intro h
    exact ⟨h.1, h.2.2.1, h.2.2.2⟩
  · intro h
    exact ⟨h.code, trivial, h.message, h.detail⟩

theorem writes_appendSpace (s : String) :
    Writes (appendSpace s) (fun n => n + 1 ≤ rpcV2MaxTermNodes ∧ (utf8Encode s).length ≤ rpcV2MaxSpaceBytes) (1 :: sizedText s) (· + 1) := by
  have hbody : Writes (if rpcV2MaxSpaceBytes < (utf8Encode s).length then writeError "SpaceId exceeds the UTF-8 byte limit"
      else do
        appendBytes [1]
        appendU32Le (utf8Encode s).length
        appendBytes (utf8Encode s)) (fun _ => (utf8Encode s).length ≤ rpcV2MaxSpaceBytes) (1 :: sizedText s) fun n => n := by
    split
    · rename_i h
      exact (writes_error _ _ _).congr (fun _ => by simp; omega) rfl fun _ => rfl
    · rename_i h
      refine ((writes_appendBytes [1]).bind ((writes_appendU32Le _).bind (writes_appendBytes _))).congr (fun _ => ?_) (by simp [sizedText])
        fun _ => rfl
      simp only [rpcV2MaxSpaceBytes] at h ⊢
      constructor
      · intro
        omega
      · intro
        exact ⟨trivial, ⟨by omega, by omega⟩, trivial⟩
  refine ((writes_encoderNode 0 _ _).bind hbody).congr (fun n => ?_) rfl fun _ => rfl
  simp only [Nat.zero_le, true_and]

/-- The name of a space is a text of its own limit. -/
theorem echoes_space {f : List UInt16 → ClientRead β} {good : Prop} {b : β} (h : Echoes w (f (utf16 (withoutMark s))) good b) : Echoes (do
      appendSpace s
      w) (do
      let t ← readTerm
      let text ← stringValue t label
      f text) good b := by
  have hspace : Echoes (appendSpace s) readTerm True (seen (.str s)) := by
    refine ⟨_, _, 1, writes_appendSpace s, ?_⟩
    intro n hn
    have hfits : (utf8Encode s).length ≤ MAX_STRING_BYTES := hn.2.trans (by decide)
    exact ⟨@reads_readTermAt (.str s) (MAX_TERM_DEPTH + 1) (Nat.succ_pos _) hfits trivial, fun _ => hn.1⟩
  exact (Echoes.bind hspace h).congr (and_iff_right trivial) rfl

theorem echoes_response (hr : ResponseAll Atom.Ranged response) (hv : InI64 response.servedVersion) :
    Echoes (appendResponseBody response) readResponse (ResponseAll Named response) (seenResponse response) := by
  have hversion : Echoes (appendI64Le response.servedVersion) (readI64 "served version") True response.servedVersion :=
    echoes_of_reads (c := True) (writes_appendI64Le _) fun _ => reads_readI64 _ hv
  have hpage := echoes_optional (f := seenPage) "response page presence" fun page hp => echoes_page (hr.page page hp)
  have herror := echoes_optional (f := seenError) "response error presence" fun error he => echoes_error (hr.error error he)
  have hpayload := echoes_optional (f := seen) "response payload presence" fun x hx => echoes_term (hr.payload x hx)
  refine (echoes_space (echoes_keyword (hversion.bind (hpage.bind (herror.bind (hpayload.map _)))))).congr ?_ rfl
  constructor
  · intro h
    exact ⟨trivial, h.1, h.2.2.1, h.2.2.2.1, h.2.2.2.2⟩
  · intro h
    exact ⟨h.op, trivial, h.page, h.error, h.payload⟩

/-- What a writer that adds its bytes writes. -/
theorem of_written {ok : Nat → Prop} {used : Bytes} {nodes : Nat → Nat} (hw : Writes w ok bytes nodes)
    (h : written w = .ok used) : ok 0 ∧ used = bytes := by
  unfold written at h
  split at h
  · rename_i e he
    cases h
    obtain ⟨hok, rfl⟩ := (hw _ _).1 he
    exact ⟨hok, by simp⟩
  · cases h

/-- A response that is encoded is the frame of its body. -/
theorem framed_of_encodeResponseBytes {frame : RpcFrameV2} (hf : frame.response = some response)
    (h : encodeResponseBytes frame = .ok bytes) :
    ∃ body, written (appendResponseBody response) = .ok body ∧ body.length ≤ rpcV2MaxBodyBytes ∧ bytes = framed 2 frame.requestId body := by
  simp only [encodeResponseBytes, hf] at h
  split at h
  · cases h
  split at h
  · cases h
  split at h
  · cases h
  obtain ⟨body, hb, h⟩ := ExceptList.bind_eq_ok_iff.1 h
  split at h
  · cases h
  rename_i hmax
  refine ⟨body, hb, Nat.not_lt.1 hmax, ?_⟩
  have hw := (writes_appendBytes rpcV2Magic).bind ((writes_appendBytes (toBytes 2 2)).bind ((writes_appendBytes (toBytes 2 0)).bind
    ((writes_appendBytes [2]).bind ((writes_appendBytes [0]).bind ((writes_appendU32Le body.length).bind
      ((writes_appendI64Le frame.requestId).bind (writes_appendBytes body)))))))
  rw [(of_written hw h).2]
  simp [framed, rpcHeaderBytes]

/-- Behind the header of a response, the client reads its body. -/
theorem decodeResponseFrame_framed {body : Bytes} {expected : Expected} (hid : InI64 requestId)
    (hbody : body.length ≤ rpcV2MaxBodyBytes) (he : expected.requestId = requestId) :
    decodeResponseFrame (framed 2 requestId body) expected =
      readResponse ⟨body, 0⟩ >>= fun r => checkResponse expected r.1 r.2.rest := by
  obtain ⟨hmagic, hmajor, hminor, hkind, hflags, hlength, hnumber, hdrop⟩ := fields_framed (by decide : 2 < 256) hid hbody
  have hl := length_framed 2 requestId body
  simp only [rpcV2MaxBodyBytes] at hbody
  simp only [decodeResponseFrame, field, hmagic, hmajor, hminor, hkind, hflags, hlength, hnumber, hl]
  have hheader : ¬ 26 + body.length < HEADER_BYTES := by simp [HEADER_BYTES]
  have hframe : ¬ MAX_FRAME_BYTES < 26 + body.length := by
    simp only [MAX_FRAME_BYTES, HEADER_BYTES, MAX_BODY_BYTES]
    omega
  have hmax : ¬ MAX_BODY_BYTES < body.length := by
    simp only [MAX_BODY_BYTES]
    omega
  have hexact : ¬ 26 + body.length ≠ HEADER_BYTES + body.length := by simp [HEADER_BYTES]
  have hmagic' : ¬ rpcV2Magic ≠ MAGIC := by decide
  rw [if_neg hheader, if_neg hframe, if_neg hmagic', if_neg (by simp), if_neg (by simp), if_neg (by simp), if_neg hmax, if_neg hexact,
    if_neg (by rw [he]; simp), show HEADER_BYTES = 26 from rfl, hdrop]

/-! ## Reading back -/

/-- The page that is read is the page that was written. -/
structure PageShown (read : JsPage) (page : RpcPageResponse) : Prop where
  ordinal : (read.ordinal : Int) = page.ordinal
  nextCursor : Option.Rel (fun t x => t.value = some x) read.nextCursor page.nextCursor
  done : read.done = page.done

/-- The error that is read is the error that was written. -/
structure ErrorShown (read : JsError) (error : RpcError) : Prop where
  code : read.code = utf16 error.code.spelling
  retryable : read.retryable = error.retryable
  message : read.message = utf16 error.message
  detail : Option.Rel (fun t x => t.value = some x) read.detail error.detail

/-- The response that is read is the response that was written: the same texts, the same numbers, the same nesting. -/
structure ResponseShown (read : JsResponse) (response : RpcResponse) : Prop where
  space : read.space = utf16 response.space
  operation : read.operation = utf16 response.op.spelling
  servedVersion : read.servedVersion = response.servedVersion
  page : Option.Rel PageShown read.page response.page
  error : Option.Rel ErrorShown read.error response.error
  payload : Option.Rel (fun t x => t.value = some x) read.payload response.payload

theorem option_rel_map_self_iff {R : β → α → Prop} {f : α → β} {o : Option α} : Option.Rel R (o.map f) o ↔ ∀ a, o = some a → R (f a) a := by
  cases o with
  | none => exact iff_of_true .none (by simp)
  | some a =>
    rw [Option.map_some, Option.rel_some_some]
    exact ⟨fun h b hb => by cases hb; exact h, fun h => h a rfl⟩

theorem utf16_withoutMark_iff : utf16 (withoutMark s) = utf16 s ↔ marked s = false :=
  ⟨fun h => withoutMark_eq_iff.1 (utf16_injective h), fun h => by rw [withoutMark_eq_iff.2 h]⟩

theorem pageShown_seen_iff {page : RpcPageResponse} (h : 0 ≤ page.ordinal) : PageShown (seenPage page) page ↔ pageAll Unmarked page := by
  constructor
  · intro hs x hx
    exact value_seen_iff.1 (option_rel_map_self_iff.1 hs.nextCursor x hx)
  · intro hu
    exact ⟨Int.toNat_of_nonneg h, option_rel_map_self_iff.2 fun x hx => value_seen_iff.2 (hu x hx), rfl⟩

theorem errorShown_seen_iff {error : RpcError} : ErrorShown (seenError error) error ↔ ErrorAll Unmarked error := by
  constructor
  · intro hs
    exact ⟨utf16_withoutMark_iff.1 hs.code, utf16_withoutMark_iff.1 hs.message,
      fun x hx => value_seen_iff.1 (option_rel_map_self_iff.1 hs.detail x hx)⟩
  · intro hu
    exact ⟨utf16_withoutMark_iff.2 hu.code, rfl, utf16_withoutMark_iff.2 hu.message,
      option_rel_map_self_iff.2 fun x hx => value_seen_iff.2 (hu.detail x hx)⟩

theorem responseShown_seen_iff (h : ∀ page, response.page = some page → 0 ≤ page.ordinal) :
    ResponseShown (seenResponse response) response ↔ ResponseAll Unmarked response := by
  constructor
  · intro hs
    exact ⟨utf16_withoutMark_iff.1 hs.space, utf16_withoutMark_iff.1 hs.operation,
      fun page hp => (pageShown_seen_iff (h page hp)).1 (option_rel_map_self_iff.1 hs.page page hp),
      fun error he => errorShown_seen_iff.1 (option_rel_map_self_iff.1 hs.error error he),
      fun x hx => value_seen_iff.1 (option_rel_map_self_iff.1 hs.payload x hx)⟩
  · intro hu
    exact ⟨utf16_withoutMark_iff.2 hu.space, utf16_withoutMark_iff.2 hu.op, rfl,
      option_rel_map_self_iff.2 fun page hp => (pageShown_seen_iff (h page hp)).2 (hu.page page hp),
      option_rel_map_self_iff.2 fun error he => errorShown_seen_iff.2 (hu.error error he),
      option_rel_map_self_iff.2 fun x hx => value_seen_iff.2 (hu.payload x hx)⟩

theorem ordinal_nonneg_of_written {body : Bytes} (h : written (appendResponseBody response) = .ok body)
    {page : RpcPageResponse} (hp : response.page = some page) : 0 ≤ page.ordinal := by
  unfold written at h
  split at h
  · rename_i e he
    have hrun : appendResponseBody response ⟨[], 0⟩ = .ok ((), e) := he
    simp only [appendResponseBody, write_bind_eq_ok_iff, hp, appendOptional, appendPageResponse] at hrun
    obtain ⟨_, -, _, -, _, -, _, ⟨_, -, _, hu, -⟩, -⟩ := hrun
    exact ((writes_appendU32Le _ _ _).1 hu).1.1
  · cases h

theorem ResponseAll.imp {P Q : Atom → Prop} (h : ∀ a, P a → Q a) (hr : ResponseAll P response) : ResponseAll Q response :=
  ⟨h _ hr.space, h _ hr.op, fun page hp x hx => Term.All.imp h (hr.page page hp x hx),
    fun error he => ⟨h _ (hr.error error he).code, h _ (hr.error error he).message, fun x hx => Term.All.imp h ((hr.error error he).detail x hx)⟩,
    fun x hx => Term.All.imp h (hr.payload x hx)⟩

/-- The numbers of a response and of its frame are of 64 bits. -/
structure RangedFrame (frame : RpcFrameV2) (response : RpcResponse) : Prop where
  requestId : InI64 frame.requestId
  servedVersion : InI64 response.servedVersion
  terms : ResponseAll Atom.Ranged response

/-- The client, which expects what the response answers, reads it back. -/
def ReadsResponse (frame : RpcFrameV2) (response : RpcResponse) (bytes : Bytes) : Prop :=
  ∃ read, decodeResponseFrame bytes ⟨frame.requestId, utf16 response.space, utf16 response.op.spelling⟩ = .ok read ∧
    ResponseShown read response

/-- The client reads a response back exactly where no text of it begins with a mark. -/
theorem readsResponse_iff {frame : RpcFrameV2} (hf : frame.response = some response)
    (hr : RangedFrame frame response) (h : encodeResponseBytes frame = .ok bytes) :
    ReadsResponse frame response bytes ↔ ResponseAll Unmarked response := by
  obtain ⟨body, hb, hmax, rfl⟩ := framed_of_encodeResponseBytes hf h
  obtain ⟨ok, used, nodes, hw, hreads⟩ := echoes_response hr.terms hr.servedVersion
  obtain ⟨hok, rfl⟩ := of_written hw hb
  obtain ⟨hread, hnodes⟩ := hreads 0 hok
  obtain ⟨hgood, hbad⟩ := hread [] 0 (hnodes (Nat.zero_le _))
  rw [List.append_nil] at hgood hbad
  have hshown := responseShown_seen_iff fun page hp => ordinal_nonneg_of_written hb hp
  rw [ReadsResponse, decodeResponseFrame_framed hr.requestId hmax rfl]
  constructor
  · intro hex
    obtain ⟨read, hd, hs⟩ := hex
    by_cases hn : ResponseAll Named response
    · rw [hgood hn] at hd
      obtain ⟨-, hcheck⟩ : True ∧ checkResponse _ (seenResponse response) [] = .ok read := ⟨trivial, hd⟩
      rw [checkResponse, if_neg (by simp)] at hcheck
      split at hcheck
      · cases hcheck
      · cases hcheck
        exact hshown.1 hs
    · obtain ⟨e, he⟩ := hbad hn
      rw [he] at hd
      cases hd
  · intro hu
    have hs := hshown.2 hu
    refine ⟨seenResponse response, ?_, hs⟩
    rw [hgood (hu.imp fun _ => named_of_unmarked)]
    show checkResponse _ (seenResponse response) [] = _
    rw [checkResponse, if_neg (by simp), if_neg (by simp [hs.space, hs.operation])]

/-! ## Terms -/

/-- The client reads back a term that it wrote. -/
def ReadsTerm (t : JsTerm) (bytes : Bytes) : Prop :=
  ∃ read nodes, readTerm ⟨bytes, 0⟩ = .ok (read, ⟨[], nodes⟩) ∧ read.value = t.value

/-- The client reads a term back exactly where no text of it begins with a mark. -/
theorem readsTerm_iff {budget : Budget} (h : writeTerm t ⟨0, 0⟩ = .ok (bytes, budget)) :
    ReadsTerm t bytes ↔ ∀ x, t.value = some x → x.All Unmarked := by
  simp only [writeTerm, ExceptList.bind_eq_ok_iff, Except.ok.injEq, Prod.mk.injEq] at h
  obtain ⟨after, hv, used, hb, rfl, rfl⟩ := h
  obtain ⟨x, w⟩ := written_of_validateTerm hv
  rw [w.bytes] at hb
  cases hb
  have hheight := w.depth_le
  have hnodes := w.nodes_le
  rw [w.nodes] at hnodes
  rw [Nat.zero_add] at hheight
  obtain ⟨hgood, hbad⟩ := reads_readTermAt (Nat.lt_succ_of_le hheight) w.fits w.ranged [] 0 hnodes
  rw [List.append_nil] at hgood hbad
  constructor
  · intro hex
    obtain ⟨read, nodes, hr, hvalue⟩ := hex
    by_cases hn : x.All Named
    · rw [readTerm, hgood hn] at hr
      cases hr
      intro y hy
      obtain rfl : x = y := Option.some.inj (w.value.symm.trans hy)
      exact value_seen_iff.1 (hvalue.trans w.value)
    · obtain ⟨e, he⟩ := hbad hn
      rw [readTerm, he] at hr
      cases hr
  · intro h
    have hu := h x w.value
    exact ⟨_, _, hgood (Term.All.imp (fun _ => named_of_unmarked) hu), (value_seen_iff.2 hu).trans w.value.symm⟩

/-! ## Both directions -/

/-- Whatever the client writes as a request, the engine reads. A response of the engine, and a term that the client wrote, the client
reads back exactly where no text of it begins with a byte order mark. -/
theorem client_reads_back {requestId : Int} {space : List UInt16} {operation : String} {payload : JsValue} {options : RequestOptions}
    {operations : List String} {encoded : EncodedRequest} {frame : RpcFrameV2} {response : RpcResponse} {bytes : Bytes} {t : JsTerm}
    {used : Bytes} {budget : Budget} (hrequest : encodeRequest requestId space operation payload options operations = .ok encoded)
    (hframe : frame.response = some response) (hranged : RangedFrame frame response) (hresponse : encodeResponseBytes frame = .ok bytes)
    (hterm : writeTerm t ⟨0, 0⟩ = .ok (used, budget)) : ReadsRequest requestId space operation payload options encoded.frame ∧
      (ReadsResponse frame response bytes ↔ ResponseAll Unmarked response) ∧
        (ReadsTerm t used ↔ ∀ x, t.value = some x → x.All Unmarked) :=
  ⟨readsRequest_of_encodeRequest hrequest, readsResponse_iff hframe hranged hresponse, readsTerm_iff hterm⟩

/-- The answer of a space at a version. -/
def versionResponse (space : String) : RpcResponse := ⟨space, ⟨"rpc/version"⟩, 7, none, none, some (.int (-9223372036854775808))⟩

/-- The frame of the answer. -/
def versionFrame (space : String) : RpcFrameV2 := ⟨⟨"response"⟩, 0, 1, none, some (versionResponse space)⟩

theorem rangedFrame_versionFrame (space : String) : RangedFrame (versionFrame space) (versionResponse space) := by
  have h1 : InI64 1 := ⟨by decide, by decide⟩
  have h7 : InI64 7 := ⟨by decide, by decide⟩
  refine ⟨h1, h7, trivial, trivial, nofun, nofun, ?_⟩
  intro x hx
  cases hx
  exact ⟨by decide, by decide⟩

/-- The bytes of the answer, of a body of some length that begins with the name of the space. -/
def versionBytes (length : UInt8) (name : Bytes) : Bytes :=
  [70, 82, 65, 77, 82, 80, 67, 0, 2, 0, 0, 0, 2, 0, length, 0, 0, 0, 1, 0, 0, 0, 0, 0, 0, 0] ++ name ++
    [6, 11, 0, 0, 0, 114, 112, 99, 47, 118, 101, 114, 115, 105, 111, 110, 7, 0, 0, 0, 0, 0, 0, 0, 0, 0, 1, 2, 0, 0, 0, 0, 0, 0, 0, 128]

/-- A question for the version of a space, its answer and a text without marks are read back. -/
theorem client_reads_back_version : ∃ encoded, ReadsRequest 1 [0x73] "rpc/version" (.bigint 5) ⟨none, none, none⟩ encoded ∧
    ReadsResponse (versionFrame "s") (versionResponse "s") (versionBytes 42 [1, 1, 0, 0, 0, 115]) ∧
      ReadsTerm (.string [0x73]) [1, 1, 0, 0, 0, 115] := by
  have hrequest : encodeRequest 1 [0x73] "rpc/version" (.bigint 5) ⟨none, none, none⟩ ["rpc/version"] =
      .ok ⟨[70, 82, 65, 77, 82, 80, 67, 0, 2, 0, 0, 0, 1, 0, 34, 0, 0, 0, 1, 0, 0, 0, 0, 0, 0, 0, 1, 1, 0, 0, 0, 115, 6, 11, 0, 0, 0, 114,
        112, 99, 47, 118, 101, 114, 115, 105, 111, 110, 0, 0, 0, 2, 5, 0, 0, 0, 0, 0, 0, 0], 34, 3, 0⟩ := by decide +kernel
  have hresponse : encodeResponseBytes (versionFrame "s") = .ok (versionBytes 42 [1, 1, 0, 0, 0, 115]) := by decide +kernel
  have hterm : writeTerm (.string [0x73]) ⟨0, 0⟩ = .ok ([1, 1, 0, 0, 0, 115], ⟨1, 0⟩) := by decide +kernel
  obtain ⟨h1, h2, h3⟩ := client_reads_back hrequest rfl (rangedFrame_versionFrame "s") hresponse hterm
  refine ⟨_, h1, h2.2 ⟨by decide +kernel, by decide +kernel, nofun, nofun, ?_⟩, h3.2 ?_⟩
  · intro x hx
    cases hx
    trivial
  · intro x hx
    cases hx
    exact (by decide +kernel : Unmarked (.string "s"))

/-- The answer of a space whose name begins with a byte order mark is not read back, and neither is a text that begins with one. -/
theorem client_drops_mark : (encodeResponseBytes (versionFrame "\uFEFFs") = .ok (versionBytes 45 [1, 4, 0, 0, 0, 239, 187, 191, 115]) ∧
      ¬ ReadsResponse (versionFrame "\uFEFFs") (versionResponse "\uFEFFs") (versionBytes 45 [1, 4, 0, 0, 0, 239, 187, 191, 115])) ∧
    (writeTerm (.string [0xFEFF, 0x73]) ⟨0, 0⟩ = .ok ([1, 4, 0, 0, 0, 239, 187, 191, 115], ⟨1, 0⟩) ∧
      ¬ ReadsTerm (.string [0xFEFF, 0x73]) [1, 4, 0, 0, 0, 239, 187, 191, 115]) := by
  have hresponse : encodeResponseBytes (versionFrame "\uFEFFs") = .ok (versionBytes 45 [1, 4, 0, 0, 0, 239, 187, 191, 115]) := by
    decide +kernel
  have hterm : writeTerm (.string [0xFEFF, 0x73]) ⟨0, 0⟩ = .ok ([1, 4, 0, 0, 0, 239, 187, 191, 115], ⟨1, 0⟩) := by decide +kernel
  refine ⟨⟨hresponse, ?_⟩, hterm, ?_⟩
  · intro h
    have hu := ((readsResponse_iff rfl (rangedFrame_versionFrame _) hresponse).1 h).space
    exact absurd hu (by decide +kernel)
  · intro h
    have hu : Unmarked (.string "\uFEFFs") := (readsTerm_iff hterm).1 h (.str "\uFEFFs") (by decide +kernel)
    exact absurd hu (by decide +kernel)

end Fram.Client
