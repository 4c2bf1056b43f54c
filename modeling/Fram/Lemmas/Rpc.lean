import Fram.Lemmas.Wire
import Fram.Rpc

/-!
# Records as terms

Lists, records and options are read back as what they were written of, and a term that reads as one was written as one. The bytes of
a term decide it.
-/

namespace Fram

/-! ## Lists -/

@[simp] theorem rpcList_nil : rpcList [] = rpcListEnd := rfl

@[simp] theorem rpcList_cons (value : Term) (values : List Term) :
    rpcList (value :: values) = .triple (.kw "rpc/list") value (rpcList values) := rfl

theorem rpcList_injective : Function.Injective rpcList := by
  intro values
  induction values with
  | nil =>
    intro values' h
    cases values' with
    | nil => rfl
    | cons v vs => cases h
  | cons v vs ih =>
    intro values' h
    cases values' with
    | nil => cases h
    | cons v' vs' =>
      simp only [rpcList_cons, Term.triple.injEq, true_and] at h
      rw [h.1, ih h.2]

/-- A list is read back, within the bound. -/
theorem readListFrom_rpcList (values : List Term) {count : Nat} (h : count + values.length ≤ maxListValues) :
    readListFrom count (rpcList values) = .ok values := by
  induction values generalizing count with
  | nil => simp [readListFrom]
  | cons v vs ih =>
    rw [List.length_cons] at h
    simp only [rpcList_cons, readListFrom, if_neg (by omega : ¬maxListValues ≤ count), if_true,
      ih (by omega : count + 1 + vs.length ≤ maxListValues), bind, Except.bind]

/-- What reads as a list is one. -/
theorem eq_rpcList_of_readListFrom {value : Term} {values : List Term} {count : Nat} (h : readListFrom count value = .ok values) :
    value = rpcList values := by
  induction value generalizing count values with
  | atom a =>
    rw [readListFrom] at h
    split at h
    · rename_i he
      cases h
      exact he
    · split at h
      · cases h
      · cases h
  | triple t1 t2 t3 _ _ ih =>
    rw [readListFrom] at h
    split at h
    · cases h
    · split at h
      · rename_i hk
        cases hr : readListFrom (count + 1) t3 with
        | error message =>
          rw [hr] at h
          cases h
        | ok rest =>
          rw [hr] at h
          cases h
          rw [rpcList_cons, hk, ih hr]
      · cases h

/-! ## Records and options -/

theorem readRecord_rpcRecord (tag : String) (fields : List Term) (h : fields.length ≤ maxListValues) :
    readRecord (rpcRecord tag fields).term tag fields.length = .ok fields := by
  have hread := readListFrom_rpcList fields (by omega : 0 + fields.length ≤ maxListValues)
  simp only [rpcRecord, Triple.term, readRecord, readList, hread, and_self, if_true, bind, Except.bind]

/-- What reads as a record is one. -/
theorem eq_rpcRecord_of_readRecord {value : Term} {tag : String} {count : Nat} {fields : List Term}
    (h : readRecord value tag count = .ok fields) : value = (rpcRecord tag fields).term ∧ fields.length = count := by
  unfold readRecord at h
  split at h
  · rename_i t1 t2 t3
    split at h
    · rename_i hk
      cases hr : readList t2 with
      | error message =>
        rw [hr] at h
        cases h
      | ok fields' =>
        simp only [hr, bind, Except.bind] at h
        split at h
        · rename_i hc
          cases h
          rw [hk.1, hk.2, eq_rpcList_of_readListFrom hr]
          exact ⟨rfl, hc⟩
        · cases h
    · cases h
  · cases h

/-- What reads as an option is one. -/
theorem eq_rpcOption_of_readOption {value : Term} {option : Option Term} (h : readOption value = .ok option) :
    value = rpcOption option := by
  unfold readOption at h
  split at h
  · split at h
    · rename_i hk
      cases h
      rw [hk.1, hk.2]
      rfl
    · cases h
  · split at h
    · rename_i hk
      cases h
      exact hk
    · cases h

theorem rpcTriples_injective : Function.Injective rpcTriples := by
  intro values values' h
  simp only [rpcTriples, rpcRecord, rpcTripleList, Triple.mk.injEq, rpcList_cons, Term.triple.injEq, true_and, and_true] at h
  exact List.map_injective_iff.2 (fun _ _ => Triple.term_injective) (rpcList_injective h)

/-! ## Digests -/

/-- Terms of 64-bit numbers with the same bytes are one term. -/
theorem Term.eq_of_bytes {t t' : Term} (h : t.bytes = t'.bytes) (hf : t.Fits rpcV2MaxStringBytes) (hf' : t'.Fits rpcV2MaxStringBytes)
    (hr : t.Ranged) (hr' : t'.Ranged) : t = t' := by
  have hexact := exact_readTermAt (by decide : rpcV2MaxStringBytes < 256 ^ 4) (max t.nodes t'.nodes) (max t.height t'.height + 1)
  have hread : ∀ u : Term, u.bytes = t.bytes → u.Fits rpcV2MaxStringBytes → u.Ranged → u.nodes ≤ max t.nodes t'.nodes →
      u.height ≤ max t.height t'.height → readTermAt rpcV2MaxStringBytes (max t.nodes t'.nodes) (max t.height t'.height + 1)
        ⟨t.bytes, 0⟩ = .ok (u, ⟨[], u.nodes⟩) := by
    intro u hb hfits hranged hnodes hheight
    refine (hexact ⟨t.bytes, 0⟩ ⟨[], u.nodes⟩ u).2 ⟨t.bytes, by simp, ?_⟩
    exact ⟨hb ▸ u.encoded_bytes, by simp, hnodes, by omega, hfits, hranged⟩
  have h1 := hread t rfl hf hr (le_max_left _ _) (le_max_left _ _)
  have h2 := hread t' h.symm hf' hr' (le_max_right _ _) (le_max_right _ _)
  rw [h1] at h2
  cases h2
  rfl

/-- A term is written as its bytes, when it is written. -/
theorem written_appendTerm {t : Term} {bytes : Bytes} (h : written (appendTerm t 0) = .ok bytes) :
    bytes = t.bytes ∧ t.Fits rpcV2MaxStringBytes := by
  unfold written at h
  split at h
  · rename_i e he
    cases h
    obtain ⟨hok, rfl⟩ := (writes_appendTerm t 0 _ _).1 he
    exact ⟨by simp, hok.2.2⟩
  · cases h

/-- A term within the limits is written. -/
theorem written_appendTerm_ok {t : Term} (hh : t.height ≤ termCodecV1MaxDepth) (hn : t.nodes ≤ rpcV2MaxTermNodes)
    (hf : t.Fits rpcV2MaxStringBytes) : written (appendTerm t 0) = .ok t.bytes := by
  have hw := (writes_appendTerm t 0 ⟨[], 0⟩ ⟨t.bytes, t.nodes⟩).2 ⟨⟨by omega, by dsimp only; omega, hf⟩, by simp⟩
  simp only [written, hw]

end Fram
