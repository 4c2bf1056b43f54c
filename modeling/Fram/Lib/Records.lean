import Fram.Lib.LittleEndian

/-!
# Records with a length and a check

A record is the length of its payload, the payload, and a check of it, the two words of four bytes. A reader of a file of records takes
one after another while their lengths are within a limit, and stops where the file ends inside a record (`Cut`). Bytes are records and a
cut rest in one way at most (`Pieces.unique`), and a reader that folds the payloads folds those of the pieces (`loop_ok_iff`).
-/

namespace Records

open LittleEndian

/-- The word of four bytes at a position. -/
def wordAt (bytes : List UInt8) (position : Nat) : Nat := ofBytes ((bytes.drop position).take 4)

/-- The bytes end inside a record, for a reader of payloads within a limit. -/
def Cut (limit : Nat) (bytes : List UInt8) : Prop :=
  bytes.length < 4 ∨ (wordAt bytes 0 ≤ limit ∧ bytes.length < wordAt bytes 0 + 8)

variable (check : List UInt8 → Nat)

/-- A payload between its length and its check. -/
def record (payload : List UInt8) : List UInt8 := toBytes 4 payload.length ++ (payload ++ toBytes 4 (check payload))

/-- The records of payloads, one after another. -/
def records (payloads : List (List UInt8)) : List UInt8 := payloads.flatMap (record check)

/-- The bytes are the records of the payloads, which are within the limit, and a cut rest. -/
structure Pieces (limit : Nat) (bytes : List UInt8) (payloads : List (List UInt8)) (rest : List UInt8) : Prop where
  bytes : bytes = records check payloads ++ rest
  sizes : ∀ payload ∈ payloads, payload.length ≤ limit
  cut : Cut limit rest

/-- A reader of records: it folds the payloads, and gives back the rest at which it stops. Each round takes a record, so as many rounds
as bytes are enough. -/
def loop {σ ε : Type*} (limit : Nat) (tooLong mismatch : ε) (step : σ → List UInt8 → Except ε σ) :
    Nat → σ → List UInt8 → Except ε (σ × List UInt8)
  | 0, s, bytes => .ok (s, bytes)
  | fuel + 1, s, bytes =>
    if bytes.length < 4 then .ok (s, bytes)
    else if limit < wordAt bytes 0 then .error tooLong
    else if bytes.length < wordAt bytes 0 + 8 then .ok (s, bytes)
    else if wordAt bytes (4 + wordAt bytes 0) ≠ check ((bytes.drop 4).take (wordAt bytes 0)) then .error mismatch
    else
      match step s ((bytes.drop 4).take (wordAt bytes 0)) with
      | .error e => .error e
      | .ok s' => loop limit tooLong mismatch step fuel s' (bytes.drop (wordAt bytes 0 + 8))

variable {check} {limit : Nat} {payload rest bytes : List UInt8} {payloads : List (List UInt8)}

@[simp] theorem records_nil : records check [] = [] := rfl

@[simp] theorem records_cons (payload : List UInt8) (payloads : List (List UInt8)) :
    records check (payload :: payloads) = record check payload ++ records check payloads := rfl

@[simp] theorem records_append (payloads payloads' : List (List UInt8)) :
    records check (payloads ++ payloads') = records check payloads ++ records check payloads' := by
  simp [records]

@[simp] theorem length_record (payload : List UInt8) : (record check payload).length = payload.length + 8 := by
  simp only [record, List.length_append, length_toBytes]
  omega

/-! ## A record and what follows it -/

theorem wordAt_record (hs : payload.length < 256 ^ 4) (rest : List UInt8) : wordAt (record check payload ++ rest) 0 = payload.length := by
  unfold wordAt record
  rw [List.drop_zero, List.append_assoc, List.take_left' (length_toBytes 4 _), ofBytes_toBytes_of_lt hs]

/-- A record is not cut. -/
theorem not_cut_record (hl : limit < 256 ^ 4) (hs : payload.length ≤ limit) (rest : List UInt8) :
    ¬Cut limit (record check payload ++ rest) := by
  unfold Cut
  rw [wordAt_record (hs.trans_lt hl)]
  simp only [List.length_append, length_record]
  omega

/-- The payload of a record, its check, and what follows it. -/
theorem record_parts (hc : check payload < 256 ^ 4) (rest : List UInt8) :
    ((record check payload ++ rest).drop 4).take payload.length = payload ∧
      wordAt (record check payload ++ rest) (4 + payload.length) = check payload ∧
      (record check payload ++ rest).drop (payload.length + 8) = rest := by
  unfold wordAt record
  have h4 := length_toBytes 4 payload.length
  refine ⟨?_, ?_, ?_⟩
  · rw [List.append_assoc, List.drop_left' h4, List.append_assoc, List.take_left]
  · rw [List.append_assoc, ← List.drop_drop, List.drop_left' h4, List.append_assoc, List.drop_left,
      List.take_left' (length_toBytes 4 _), ofBytes_toBytes_of_lt hc]
  · rw [List.drop_left']
    simp only [List.length_append, length_toBytes]
    omega

/-- Bytes that are not cut and whose check matches are a record and a rest. -/
theorem exists_record (ht : ¬Cut limit bytes) (hs : wordAt bytes 0 ≤ limit)
    (hc : wordAt bytes (4 + wordAt bytes 0) = check ((bytes.drop 4).take (wordAt bytes 0))) :
    ((bytes.drop 4).take (wordAt bytes 0)).length = wordAt bytes 0 ∧
      bytes = record check ((bytes.drop 4).take (wordAt bytes 0)) ++ bytes.drop (wordAt bytes 0 + 8) := by
  unfold Cut at ht
  simp only [not_or, not_lt, not_and] at ht
  obtain ⟨h4, h8⟩ := ht
  have h8 := h8 hs
  have hlen : ((bytes.drop 4).take (wordAt bytes 0)).length = wordAt bytes 0 := by
    rw [List.length_take, List.length_drop]
    omega
  refine ⟨hlen, ?_⟩
  have hword : ∀ position, position + 4 ≤ bytes.length →
      toBytes 4 (wordAt bytes position) = (bytes.drop position).take 4 := fun position hp => toBytes_ofBytes_take hp
  unfold record
  have e1 : bytes.drop (4 + wordAt bytes 0) = (bytes.drop 4).drop (wordAt bytes 0) := by
    rw [List.drop_drop]
  have e2 : bytes.drop (wordAt bytes 0 + 8) = ((bytes.drop 4).drop (wordAt bytes 0)).drop 4 := by
    rw [List.drop_drop, List.drop_drop]
    congr 1
    omega
  rw [hlen, ← hc, hword 0 (by omega), hword _ (by omega), List.drop_zero, e1, e2, List.append_assoc, List.append_assoc,
    List.take_append_drop, List.take_append_drop, List.take_append_drop]

/-! ## Pieces -/

theorem pieces_nil_iff : Pieces check limit bytes [] rest ↔ rest = bytes ∧ Cut limit bytes := by
  constructor
  · rintro ⟨rfl, -, hc⟩
    exact ⟨rfl, hc⟩
  · rintro ⟨rfl, hc⟩
    exact ⟨rfl, by simp, hc⟩

theorem pieces_cons_iff : Pieces check limit bytes (payload :: payloads) rest ↔ ∃ more, bytes = record check payload ++ more ∧
    payload.length ≤ limit ∧ Pieces check limit more payloads rest := by
  constructor
  · rintro ⟨rfl, hs, hc⟩
    exact ⟨_, by simp, hs _ (by simp), rfl, fun p hp => hs p (by simp [hp]), hc⟩
  · rintro ⟨more, rfl, hs, rfl, hss, hc⟩
    refine ⟨by simp, fun p hp => ?_, hc⟩
    rcases List.mem_cons.1 hp with rfl | hp
    · exact hs
    · exact hss p hp

/-- Bytes that are cut are no record. -/
theorem Pieces.of_cut (hl : limit < 256 ^ 4) (h : Pieces check limit bytes payloads rest) (hc : Cut limit bytes) :
    payloads = [] ∧ rest = bytes := by
  cases payloads with
  | nil => exact ⟨rfl, (pieces_nil_iff.1 h).1⟩
  | cons payload payloads =>
    obtain ⟨more, rfl, hs, -⟩ := pieces_cons_iff.1 h
    exact absurd hc (not_cut_record hl hs more)

/-- The pieces of a record and a rest are the record and those of the rest. -/
theorem pieces_record_iff (hl : limit < 256 ^ 4) (hcheck : ∀ p, check p < 256 ^ 4) (hs : payload.length ≤ limit)
    {more : List UInt8} : Pieces check limit (record check payload ++ more) payloads rest ↔
      ∃ ps, payloads = payload :: ps ∧ Pieces check limit more ps rest := by
  constructor
  · intro h
    cases payloads with
    | nil => exact absurd (pieces_nil_iff.1 h).2 (not_cut_record hl hs more)
    | cons p ps =>
      obtain ⟨more', he, hs', hp⟩ := pieces_cons_iff.1 h
      have hlen : payload.length = p.length := by
        rw [← @wordAt_record check _ (hs.trans_lt hl) more, he, wordAt_record (hs'.trans_lt hl)]
      obtain ⟨h1, -, h3⟩ := record_parts (hcheck payload) more
      obtain ⟨g1, -, g3⟩ := record_parts (hcheck p) more'
      rw [he, hlen] at h1 h3
      obtain rfl : p = payload := g1.symm.trans h1
      obtain rfl : more' = more := g3.symm.trans h3
      exact ⟨ps, rfl, hp⟩
  · rintro ⟨ps, rfl, hp⟩
    exact pieces_cons_iff.2 ⟨more, rfl, hs, hp⟩

/-- The pieces of records and a rest are the records and the pieces of the rest. -/
theorem pieces_records_iff (hl : limit < 256 ^ 4) (hcheck : ∀ p, check p < 256 ^ 4) {before : List (List UInt8)}
    (hs : ∀ p ∈ before, p.length ≤ limit) {more : List UInt8} : Pieces check limit (records check before ++ more) payloads rest ↔
      ∃ ps, payloads = before ++ ps ∧ Pieces check limit more ps rest := by
  induction before generalizing payloads with
  | nil => simp
  | cons p before ih =>
    rw [List.forall_mem_cons] at hs
    rw [records_cons, List.append_assoc, pieces_record_iff hl hcheck hs.1]
    constructor
    · rintro ⟨ps, rfl, hp⟩
      obtain ⟨ps', rfl, hp'⟩ := (ih hs.2).1 hp
      exact ⟨ps', rfl, hp'⟩
    · rintro ⟨ps, rfl, hp⟩
      exact ⟨before ++ ps, rfl, (ih hs.2).2 ⟨ps, rfl, hp⟩⟩

/-- Behind records within the limit comes a word within the limit. -/
theorem Pieces.word_le (hl : limit < 256 ^ 4) (hcheck : ∀ p, check p < 256 ^ 4) (h : Pieces check limit bytes payloads rest)
    {before : List (List UInt8)} {rest' : List UInt8} (hb : bytes = records check before ++ rest')
    (hs : ∀ p ∈ before, p.length ≤ limit) (h4 : 4 ≤ rest'.length) : wordAt rest' 0 ≤ limit := by
  induction before generalizing bytes payloads with
  | nil =>
    obtain rfl : bytes = rest' := hb
    cases payloads with
    | nil =>
      rcases (pieces_nil_iff.1 h).2 with hc | hc
      · omega
      · exact hc.1
    | cons payload payloads =>
      obtain ⟨more, rfl, hp, -⟩ := pieces_cons_iff.1 h
      rwa [wordAt_record (hp.trans_lt hl)]
  | cons p before ih =>
    rw [List.forall_mem_cons] at hs
    rw [records_cons, List.append_assoc] at hb
    subst hb
    obtain ⟨ps, -, hp⟩ := (pieces_record_iff hl hcheck hs.1).1 h
    exact ih hp rfl hs.2

/-- Bytes have one list of pieces. -/
theorem Pieces.unique (hl : limit < 256 ^ 4) (hcheck : ∀ p, check p < 256 ^ 4) {payloads' : List (List UInt8)}
    {rest' : List UInt8} (h : Pieces check limit bytes payloads rest) (h' : Pieces check limit bytes payloads' rest') :
    payloads = payloads' ∧ rest = rest' := by
  induction payloads generalizing bytes payloads' with
  | nil =>
    obtain ⟨rfl, hc⟩ := pieces_nil_iff.1 h
    obtain ⟨rfl, rfl⟩ := h'.of_cut hl hc
    exact ⟨rfl, rfl⟩
  | cons payload payloads ih =>
    obtain ⟨more, rfl, hs, hp⟩ := pieces_cons_iff.1 h
    obtain ⟨ps, rfl, hp'⟩ := (pieces_record_iff hl hcheck hs).1 h'
    obtain ⟨rfl, rfl⟩ := ih hp hp'
    exact ⟨rfl, rfl⟩

/-! ## Reading -/

section Loop

variable {σ ε : Type*} {tooLong mismatch : ε} {step : σ → List UInt8 → Except ε σ} {s s' : σ}

/-- A reader answers exactly on bytes that are pieces, with the fold of the payloads and the rest. -/
theorem loop_ok_iff (hl : limit < 256 ^ 4) (hcheck : ∀ p, check p < 256 ^ 4) {fuel : Nat} (hf : bytes.length ≤ fuel) :
    loop check limit tooLong mismatch step fuel s bytes = .ok (s', rest) ↔
      ∃ payloads, Pieces check limit bytes payloads rest ∧ payloads.foldlM step s = .ok s' := by
  induction fuel generalizing s bytes with
  | zero =>
    have hnil : bytes = [] := by simpa using hf
    subst hnil
    simp only [loop, Except.ok.injEq, Prod.mk.injEq]
    constructor
    · rintro ⟨rfl, rfl⟩
      exact ⟨[], pieces_nil_iff.2 ⟨rfl, Or.inl (by simp)⟩, rfl⟩
    · rintro ⟨payloads, hp, hfold⟩
      obtain ⟨rfl, rfl⟩ := hp.of_cut hl (Or.inl (by simp))
      cases hfold
      exact ⟨rfl, rfl⟩
  | succ fuel ih =>
    have hstop : Cut limit bytes → ((Except.ok (s, bytes) : Except ε _) = .ok (s', rest) ↔
        ∃ payloads, Pieces check limit bytes payloads rest ∧ payloads.foldlM step s = .ok s') := by
      intro hc
      simp only [Except.ok.injEq, Prod.mk.injEq]
      constructor
      · rintro ⟨rfl, rfl⟩
        exact ⟨[], pieces_nil_iff.2 ⟨rfl, hc⟩, rfl⟩
      · rintro ⟨payloads, hp, hfold⟩
        obtain ⟨rfl, rfl⟩ := hp.of_cut hl hc
        cases hfold
        exact ⟨rfl, rfl⟩
    -- What a record at the front says of the bytes.
    have hfront : ∀ {payloads : List (List UInt8)}, Pieces check limit bytes payloads rest → ¬Cut limit bytes →
        ∃ p ps more, payloads = p :: ps ∧ bytes = record check p ++ more ∧ p.length ≤ limit ∧
          Pieces check limit more ps rest := by
      intro payloads hp hc
      cases payloads with
      | nil => exact absurd (pieces_nil_iff.1 hp).2 hc
      | cons p ps =>
        obtain ⟨more, he, hs, hm⟩ := pieces_cons_iff.1 hp
        exact ⟨p, ps, more, rfl, he, hs, hm⟩
    unfold loop
    split
    · rename_i h4
      exact hstop (Or.inl h4)
    rename_i h4
    split
    · rename_i hlong
      have hc : ¬Cut limit bytes := by
        unfold Cut
        omega
      simp only [reduceCtorEq, false_iff, not_exists, not_and]
      intro payloads hp
      obtain ⟨p, ps, more, rfl, rfl, hs, -⟩ := hfront hp hc
      rw [wordAt_record (hs.trans_lt hl)] at hlong
      omega
    rename_i hlong
    split
    · rename_i h8
      exact hstop (Or.inr ⟨by omega, h8⟩)
    rename_i h8
    have hc : ¬Cut limit bytes := by
      unfold Cut
      omega
    split
    · rename_i hmis
      simp only [reduceCtorEq, false_iff, not_exists, not_and]
      intro payloads hp
      obtain ⟨p, ps, more, rfl, rfl, hs, -⟩ := hfront hp hc
      obtain ⟨g1, g2, -⟩ := record_parts (hcheck p) more
      rw [wordAt_record (hs.trans_lt hl), g1, g2] at hmis
      exact absurd rfl hmis
    rename_i hmatch
    rw [not_not] at hmatch
    obtain ⟨hlen, he⟩ := exists_record hc (by omega) hmatch
    generalize hp : (bytes.drop 4).take (wordAt bytes 0) = p at *
    have hps : p.length ≤ limit := by omega
    have hpieces : ∀ payloads, Pieces check limit bytes payloads rest ↔
        ∃ ps, payloads = p :: ps ∧ Pieces check limit (bytes.drop (wordAt bytes 0 + 8)) ps rest := by
      intro payloads
      conv_lhs => rw [he]
      exact pieces_record_iff hl hcheck hps
    simp only [hpieces]
    cases hstep : step s p with
    | error e =>
      simp only [reduceCtorEq, false_iff, not_exists, not_and]
      rintro payloads ⟨ps, rfl, -⟩
      simp [List.foldlM, hstep, bind, Except.bind]
    | ok s1 =>
      dsimp only
      rw [ih (by rw [List.length_drop]; omega)]
      constructor
      · rintro ⟨ps, hps', hfold⟩
        exact ⟨p :: ps, ⟨ps, rfl, hps'⟩, by simpa [List.foldlM, hstep, bind, Except.bind] using hfold⟩
      · rintro ⟨payloads, ⟨ps, rfl, hps'⟩, hfold⟩
        exact ⟨ps, hps', by simpa [List.foldlM, hstep, bind, Except.bind] using hfold⟩

/-- One round of the reader. -/
theorem loop_succ (fuel : Nat) (s : σ) (bytes : List UInt8) : loop check limit tooLong mismatch step (fuel + 1) s bytes =
    if bytes.length < 4 then .ok (s, bytes) else if limit < wordAt bytes 0 then .error tooLong
    else if bytes.length < wordAt bytes 0 + 8 then .ok (s, bytes)
    else if wordAt bytes (4 + wordAt bytes 0) ≠ check ((bytes.drop 4).take (wordAt bytes 0)) then .error mismatch else
      match step s ((bytes.drop 4).take (wordAt bytes 0)) with
      | .error e => .error e
      | .ok s' => loop check limit tooLong mismatch step fuel s' (bytes.drop (wordAt bytes 0 + 8)) := rfl

/-- A reader stops at once where the bytes are cut. -/
theorem loop_of_cut (hc : Cut limit bytes) (fuel : Nat) : loop check limit tooLong mismatch step fuel s bytes = .ok (s, bytes) := by
  cases fuel with
  | zero => rfl
  | succ fuel =>
    rw [loop_succ]
    rcases hc with hc | ⟨hl, hc⟩
    · rw [if_pos hc]
    · rw [if_neg (not_lt.2 hl), if_pos hc, ite_self]

/-- More rounds than bytes change nothing. -/
theorem loop_fuel {fuel fuel' : Nat} (hf : bytes.length ≤ fuel) (hf' : bytes.length ≤ fuel') :
    loop check limit tooLong mismatch step fuel s bytes = loop check limit tooLong mismatch step fuel' s bytes := by
  induction fuel generalizing s bytes fuel' with
  | zero =>
    cases fuel' with
    | zero => rfl
    | succ fuel' => simp [loop, List.length_eq_zero_iff.1 (Nat.le_zero.1 hf)]
  | succ fuel ih =>
    cases fuel' with
    | zero => simp [loop, List.length_eq_zero_iff.1 (Nat.le_zero.1 hf')]
    | succ fuel' =>
      unfold loop
      have hdrop : ∀ s', loop check limit tooLong mismatch step fuel s' (bytes.drop (wordAt bytes 0 + 8)) =
          loop check limit tooLong mismatch step fuel' s' (bytes.drop (wordAt bytes 0 + 8)) := fun s' =>
        ih (by rw [List.length_drop]; omega) (by rw [List.length_drop]; omega)
      simp only [hdrop]

theorem wordAt_append {position : Nat} (h : position + 4 ≤ bytes.length) (more : List UInt8) :
    wordAt (bytes ++ more) position = wordAt bytes position := by
  unfold wordAt
  rw [List.drop_append_of_le_length (by omega), List.take_append_of_le_length (by rw [List.length_drop]; omega)]

/-- A reader that stops and goes on with more bytes reads what one reader of all the bytes does. -/
theorem loop_append {fuel fuel₁ fuel₂ : Nat} (more : List UInt8) (hf : (bytes ++ more).length ≤ fuel)
    (hf₁ : bytes.length ≤ fuel₁) (hf₂ : (bytes ++ more).length ≤ fuel₂) : loop check limit tooLong mismatch step fuel s (bytes ++ more) =
      loop check limit tooLong mismatch step fuel₁ s bytes >>= fun r =>
        loop check limit tooLong mismatch step fuel₂ r.1 (r.2 ++ more) := by
  induction fuel₁ generalizing s bytes fuel with
  | zero => exact loop_fuel hf hf₂
  | succ fuel₁ ih =>
    have hstop : loop check limit tooLong mismatch step fuel s (bytes ++ more) =
        (Except.ok (s, bytes) : Except ε _) >>= fun r => loop check limit tooLong mismatch step fuel₂ r.1 (r.2 ++ more) :=
      loop_fuel hf hf₂
    rw [loop_succ fuel₁ s bytes]
    split
    · exact hstop
    rename_i h4
    have hpos : 0 < fuel := by
      rw [List.length_append] at hf
      omega
    obtain ⟨fuel, rfl⟩ : ∃ k, fuel = k + 1 := ⟨fuel - 1, by omega⟩
    have hword : wordAt (bytes ++ more) 0 = wordAt bytes 0 := wordAt_append (by omega) more
    split
    · rename_i hlong
      rw [loop_succ, if_neg (by rw [List.length_append]; omega), hword, if_pos hlong]
      rfl
    rename_i hlong
    split
    · exact hstop
    rename_i h8
    have hcheck : wordAt (bytes ++ more) (4 + wordAt bytes 0) = wordAt bytes (4 + wordAt bytes 0) := wordAt_append (by omega) more
    have htake : ((bytes ++ more).drop 4).take (wordAt bytes 0) = (bytes.drop 4).take (wordAt bytes 0) := by
      rw [List.drop_append_of_le_length (by omega), List.take_append_of_le_length (by rw [List.length_drop]; omega)]
    have hdrop : (bytes ++ more).drop (wordAt bytes 0 + 8) = bytes.drop (wordAt bytes 0 + 8) ++ more :=
      List.drop_append_of_le_length (by omega)
    rw [loop_succ fuel s, if_neg (by rw [List.length_append]; omega), hword, if_neg hlong, if_neg (by rw [List.length_append]; omega), hcheck, htake,
      hdrop]
    split
    · rfl
    cases step s ((bytes.drop 4).take (wordAt bytes 0)) with
    | error e => rfl
    | ok s' =>
      refine ih ?_ ?_ ?_
      · rw [List.length_append] at hf ⊢
        rw [List.length_drop]
        omega
      · rw [List.length_drop]
        omega
      · rw [List.length_append] at hf₂ ⊢
        rw [List.length_drop]
        omega

end Loop

/-! ## Cutting a file -/

/-- Part of a record is cut. -/
theorem cut_take_record (hl : limit < 256 ^ 4) (hs : payload.length ≤ limit) {k : Nat} (hk : k < payload.length + 8) :
    Cut limit ((record check payload).take k) := by
  have hlen : ((record check payload).take k).length = k := by
    rw [List.length_take, length_record]
    omega
  unfold Cut
  rw [hlen]
  by_cases h4 : k < 4
  · exact Or.inl h4
  · right
    have hword : wordAt ((record check payload).take k) 0 = payload.length := by
      rw [← @wordAt_record check _ (hs.trans_lt hl) [], List.append_nil]
      unfold wordAt
      rw [List.drop_zero, List.drop_zero, List.take_take, min_eq_left (by omega)]
    rw [hword]
    exact ⟨hs, hk⟩

end Records
