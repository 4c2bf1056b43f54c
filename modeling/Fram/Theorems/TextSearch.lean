import Fram.Lemmas.TextSearch

/-!
# Text relations

Each text relation has a row for every proposition of the corpus whose text says what the needle asks (`Says`), in the order of the corpus,
and it has the same rows from the indexes as from a scan. A search fails alike in both ways, but for a ranked search of an empty corpus,
which only the indexes refuse a blank needle.
-/

namespace Fram

open Datalog TextIndex

namespace TextSearch

section Handles

variable {host : TextHost} {corpus : List Triple} {maximum : Int} {source : TextSearchSource} {analyzers : SearchAnalyzers}
  {relation needle : String}

theorem Built.exact_agree (h : Built host corpus source) (needle : Option Term) :
    indexedHandlesResult host source.exact needle = scanHandlesResult host source.exact needle := by
  rcases @needleTokensResult_eq host needle with ⟨error, -, herror⟩ | ⟨text, rfl, hne⟩
  · simp only [indexedHandlesResult, scanHandlesResult, herror, bind, Except.bind]
  · rw [h.indexedHandles hne, h.scanHandles hne]

theorem Built.phrase_agree (h : Built host corpus source) (needle : Option Term) :
    phraseHandlesResult host source needle = phraseScanHandlesResult host source needle := by
  rcases wordNeedle_cases host "text-phrase" needle with ⟨text, rfl, hne⟩ | ⟨error, herror⟩
  · cases ha : analyzersOfResult host source with
    | ok analyzers => rw [h.phrase hne ha, h.phraseScan hne ha]
    | error error =>
      simp only [phraseHandlesResult, phraseScanHandlesResult, wordNeedleResult_ok hne, h.indexedHandles hne, ha, bind, Except.bind]
  · simp only [phraseHandlesResult, phraseScanHandlesResult, herror, bind, Except.bind]

theorem Built.substring_agree (h : Built host corpus source) (needle : Option Term) :
    substringHandlesResult host source needle = substringScanHandlesResult host source needle := by
  rcases substringNeedle_cases host "text-substring" needle with ⟨text, rfl, hne⟩ | ⟨error, herror⟩
  · cases ha : analyzersOfResult host source with
    | ok analyzers => rw [h.substring hne ha, h.substringScan hne ha]
    | error error => simp only [substringHandlesResult, substringScanHandlesResult, substringNeedleResult_ok hne, ha, bind, Except.bind]
  · simp only [substringHandlesResult, substringScanHandlesResult, herror, bind, Except.bind]

theorem Built.stem_agree (h : Built host corpus source) (needle : Option Term) :
    stemHandlesResult host source needle = stemScanHandlesResult host source needle := by
  rcases wordNeedle_cases host "text-stem" needle with ⟨text, rfl, hne⟩ | ⟨error, herror⟩
  · cases ha : analyzersOfResult host source with
    | ok analyzers => rw [h.stem hne ha, h.stemScan hne ha]
    | error error => simp only [stemHandlesResult, stemScanHandlesResult, wordNeedleResult_ok hne, ha, bind, Except.bind]
  · simp only [stemHandlesResult, stemScanHandlesResult, herror, bind, Except.bind]

/-- The analyzers of an empty corpus take nothing, so a source of it that is built has them. -/
theorem analyzers_of_empty (h : buildSourceResult host [] maximum = .ok source) : ∃ analyzers, analyzersOfResult host source = .ok analyzers := by
  have hfits : source.bytes ≤ source.maximum := by
    unfold buildSourceResult TextIndex.buildSourceResult at h
    dsimp only at h
    split at h
    · cases h
    · simp only [bind, Except.bind] at h
      split at h
      · cases h
      · rename_i hlimit
        cases h
        unfold indexLimitError at hlimit
        split at hlimit
        · cases hlimit
        · rename_i hle
          exact not_lt.1 hle
  refine ⟨⟨[], [], ∅, ∅, 0⟩, ?_⟩
  unfold analyzersOfResult
  rw [(built_of_buildSourceResult h).rows]
  have hlimit : indexLimitError (source.bytes + 0) source.maximum = none := by
    rw [indexLimitError, if_neg (by omega)]
  dsimp only
  split
  · rename_i error herror
    cases hlimit.symm.trans herror
  · rfl

/-- A ranked scan reads its needle row by row, so it refuses none where there is no row. -/
theorem ranked_agree (h : buildSourceResult host corpus maximum = .ok source) {needle : Option Term}
    (hneedle : corpus ≠ [] ∨ ∃ text, needle = some (.str text) ∧ (host.lowerCase text).toList.all host.whitespace = false) :
    rankedHandlesResult host source needle = rankedScanHandlesResult host source needle := by
  have hb := built_of_buildSourceResult h
  have hfailed : ∀ error, corpus ≠ [] → (∀ handle, scoreAtResult host source handle needle = .error error) →
      rankedScanHandlesResult host source needle = .error error := by
    intro error hne hscore
    obtain ⟨row, rest, rfl⟩ := List.exists_cons_of_ne_nil hne
    simp only [rankedScanHandlesResult, matchingScoreHandlesResult, allHandles, hb.rows, List.length_cons, List.range_succ_eq_map,
      List.filterM, List.filterAuxM, hscore, bind, Except.bind]
    rfl
  rcases substringNeedle_cases host "text-search" needle with ⟨text, rfl, hne⟩ | ⟨error, herror⟩
  · cases ha : analyzersOfResult host source with
    | ok analyzers => rw [hb.ranked hne ha, hb.rankedScan hne ha]
    | error error =>
      have hcorpus : corpus ≠ [] := by
        rintro rfl
        obtain ⟨analyzers, hok⟩ := analyzers_of_empty h
        rw [hok] at ha
        cases ha
      rw [hfailed error hcorpus fun handle => by simp only [scoreAtResult, substringNeedleResult_ok hne, ha, bind, Except.bind]]
      simp only [rankedHandlesResult, substringNeedleResult_ok hne, ha, bind, Except.bind]
  · have hcorpus : corpus ≠ [] := by
      refine hneedle.resolve_right ?_
      rintro ⟨text, rfl, hne⟩
      rw [substringNeedleResult_ok hne] at herror
      cases herror
    rw [hfailed error hcorpus fun handle => by simp only [scoreAtResult, herror, bind, Except.bind]]
    simp only [rankedHandlesResult, herror, bind, Except.bind]

/-- **What a text relation answers.** For a needle that it takes, and within the budget of the analyzers, a text relation has the rows of
the propositions whose text says what the needle asks, in the order of the corpus, with the score of each where it ranks; any other needle
it refuses, and says why. -/
theorem search_answers (h : buildSourceResult host corpus maximum = .ok source) (hrel : relation ∈ textRelations)
    (hfits : ∃ analyzers, analyzersOfResult host source = .ok analyzers) (needle : Option Term) :
    (∀ text, needle = some (.str text) → Accepts host relation text →
      (searches host source).rowsResult true relation needle = ⟨true, corpus.filterMap (foundRow host relation text), noTextError⟩) ∧
    ((∀ text, needle = some (.str text) → ¬Accepts host relation text) →
      (searches host source).rowsResult true relation needle = ⟨false, [], refusal relation needle⟩) := by
  refine ⟨fun text hn haccepts => ?_, rowsResult_refused host source hrel⟩
  rw [hn]
  exact (built_of_buildSourceResult h).rowsResult hrel haccepts (Or.inr hfits) true

/-- A ranked scan of an empty corpus takes any needle. -/
theorem rankedScan_of_empty (h : Built host [] source) (needle : Option Term) :
    rankedScanRowsResult host source needle = ⟨true, [], noTextError⟩ := by
  simp only [rankedScanRowsResult, rankedScanHandlesResult, matchingScoreHandlesResult, allHandles, h.rows]
  rfl

/-- **The indexes answer what a scan answers,** rows and refusals, on any needle, but where a ranked search of an empty corpus has a needle
to refuse: only the indexes refuse it there. -/
theorem indexed_eq_scan (h : buildSourceResult host corpus maximum = .ok source) (hrel : relation ∈ textRelations) (needle : Option Term) :
    (searches host source).rowsResult true relation needle = (searches host source).rowsResult false relation needle ↔
      (relation = textSearchRelation → corpus ≠ [] ∨ ∃ text, needle = some (.str text) ∧ Accepts host relation text) := by
  have hb := built_of_buildSourceResult h
  constructor
  · rintro hsame rfl
    by_contra hno
    obtain ⟨hempty, hrefused⟩ := not_or.1 hno
    obtain rfl := not_ne_iff.1 hempty
    rw [rowsResult_refused host source hrel fun text ht haccepts => hrefused ⟨text, ht, haccepts⟩] at hsame
    cases hsame.trans (rankedScan_of_empty hb needle)
  · intro hranked
    simp only [textRelations, List.mem_cons, List.not_mem_nil, or_false] at hrel
    rcases hrel with rfl | rfl | rfl | rfl | rfl
    · exact congrArg (fun handles => rowsResult (rowsForHandles source.exact.rows needle <$> handles)) (hb.exact_agree needle)
    · exact congrArg (rowsForHandlesResult source needle) (hb.phrase_agree needle)
    · exact congrArg (rowsForHandlesResult source needle) (hb.substring_agree needle)
    · exact congrArg (rowsForHandlesResult source needle) (hb.stem_agree needle)
    · refine congrArg (fun handles => rowsResult (handles >>= rankedRowsForHandlesResult host source needle)) (ranked_agree h ?_)
      refine (hranked rfl).imp_right fun hx => ?_
      obtain ⟨text, rfl, haccepts⟩ := hx
      unfold Accepts at haccepts
      rw [if_pos (by decide)] at haccepts
      exact ⟨text, rfl, haccepts⟩

end Handles

/-! ## At a corpus of three propositions -/

/-- A host whose words are what stands between blanks, and whose letters have one case. -/
def plainHost : TextHost where
  letterOrDigit c := c != ' '
  whitespace c := c == ' '
  maxResultsSetting := none
  lowerCase := id

/-- Three propositions, two of one text. -/
def threeTexts : List Triple := [⟨.str "s", .str "p", .str "x"⟩, ⟨.str "s", .str "q", .str "z"⟩, ⟨.str "t", .str "p", .str "x"⟩]

theorem tokenize_word {word : String} (h : tokenSet plainHost word = [word]) : tokenize plainHost word = [word] := by
  rw [tokenize, h, List.mergeSort_singleton]

theorem postings_threeTexts : buildPostings plainHost threeTexts =
    (((∅ : InvertedIndex String).add ["x"] 0).add ["z"] 1).add ["x"] 2 := by
  rw [← tokenize_word (show tokenSet plainHost "x" = ["x"] by decide), ← tokenize_word (show tokenSet plainHost "z" = ["z"] by decide)]
  rfl

theorem build_threeTexts : ∃ source, buildSourceResult plainHost threeTexts textIndexMaxBytes = .ok source ∧
    ∃ analyzers, analyzersOfResult plainHost source = .ok analyzers := by
  simp only [buildSourceResult, TextIndex.buildSourceResult, postings_threeTexts]
  exact ⟨_, rfl, _, rfl⟩

/-- The two propositions with a word, and the refusal of a needle without one. -/
theorem search_answers_texts : ∃ source, buildSourceResult plainHost threeTexts textIndexMaxBytes = .ok source ∧
    (searches plainHost source).rowsResult true textMatchRelation (some (.str "x")) =
      ⟨true, [[.str "s", .str "p", .str "x"], [.str "t", .str "p", .str "x"]], noTextError⟩ ∧
    (searches plainHost source).rowsResult true textMatchRelation (some (.str " ")) =
      ⟨false, [], refusal textMatchRelation (some (.str " "))⟩ := by
  obtain ⟨source, h, hfits⟩ := build_threeTexts
  have haccepts : Accepts plainHost textMatchRelation "x" := by decide
  have hx : wordTokens plainHost "x" ⊆ wordTokens plainHost "x" := List.Subset.refl _
  have hz : ¬wordTokens plainHost "x" ⊆ wordTokens plainHost "z" := by decide
  have hrows : threeTexts.filterMap (foundRow plainHost textMatchRelation "x") =
      [[.str "s", .str "p", .str "x"], [.str "t", .str "p", .str "x"]] := by
    have hno : textMatchRelation ≠ textSearchRelation := by decide
    have hfirst : Found plainHost textMatchRelation "x" ⟨.str "s", .str "p", .str "x"⟩ := ⟨"x", rfl, hx⟩
    have hlast : Found plainHost textMatchRelation "x" ⟨.str "t", .str "p", .str "x"⟩ := ⟨"x", rfl, hx⟩
    have hother : ¬Found plainHost textMatchRelation "x" ⟨.str "s", .str "q", .str "z"⟩ := by
      rintro ⟨value, hvalue, hsays⟩
      cases hvalue
      exact hz hsays
    simp [threeTexts, foundRow, hfirst, hlast, hother, hno]
  refine ⟨source, h, ?_, (search_answers h (by decide) hfits _).2 fun text ht ha => ?_⟩
  · rw [(search_answers h (by decide) hfits _).1 "x" rfl haccepts, hrows]
  · cases ht
    exact absurd ha (by decide)

/-- A word by both paths. -/
theorem indexed_eq_scan_texts : ∃ source, buildSourceResult plainHost threeTexts textIndexMaxBytes = .ok source ∧
    Accepts plainHost textSearchRelation "x" ∧
    (searches plainHost source).rowsResult true textSearchRelation (some (.str "x")) =
      (searches plainHost source).rowsResult false textSearchRelation (some (.str "x")) := by
  obtain ⟨source, h, -⟩ := build_threeTexts
  have haccepts : Accepts plainHost textSearchRelation "x" := by decide
  exact ⟨source, h, haccepts, (indexed_eq_scan h (by decide) _).2 fun _ => .inr ⟨"x", rfl, haccepts⟩⟩

end TextSearch

end Fram
