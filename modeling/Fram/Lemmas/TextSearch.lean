import Fram.Lemmas.Sources
import Fram.TextSearch

/-!
# What the text indexes hold

The posting lists of a corpus have each row under the keys that it has (`posts_buildPostings`, `analyzes_buildState`), so a search of them is a
filter of the corpus (`indexedHandles_eq`, `postingsHandles_eq`). The keys of a needle that a row matches are among those of the row.
-/

namespace Fram

open Datalog TextIndex

namespace TextSearch

variable {host : TextHost} {rows : List Triple}
variable {word : String} {row : Triple} {tokens : List String}

/-! ## Documents -/

/-- The words of a row, in order. -/
def docTokens (host : TextHost) (row : Triple) : List String := (rowText row).elim [] (wordTokens host)

/-- The text of a row in lower case. -/
def docText (host : TextHost) (row : Triple) : String := (rowText row).elim "" host.lowerCase

/-- The different words of a row. -/
def docWords (host : TextHost) (row : Triple) : List String := (rowText row).elim [] (tokenSet host)

theorem mem_tokenSet {value : String} : word ∈ tokenSet host value ↔ word ∈ wordTokens host value := Grouping.mem_firsts

theorem mem_tokenize {value : String} : word ∈ tokenize host value ↔ word ∈ wordTokens host value := by
  rw [tokenize, (List.mergeSort_perm _ _).mem_iff, mem_tokenSet]

theorem nodup_tokenize (value : String) : (tokenize host value).Nodup :=
  (List.mergeSort_perm _ _).nodup_iff.2 (Grouping.nodup_firsts _)

theorem isEmpty_tokenize (value : String) : (tokenize host value).isEmpty = (wordTokens host value).isEmpty := by
  rw [Bool.eq_iff_iff, List.isEmpty_iff, List.isEmpty_iff, List.eq_nil_iff_forall_not_mem, List.eq_nil_iff_forall_not_mem]
  simp only [mem_tokenize]

theorem mem_docWords : word ∈ docWords host row ↔ word ∈ docTokens host row := by
  unfold docWords docTokens
  cases rowText row with
  | none => simp
  | some value => exact mem_tokenSet

theorem mem_stems {key : Units} : key ∈ stems host tokens ↔ ∃ token ∈ tokens, englishStem host token = key := by
  rw [stems, Grouping.mem_firsts, List.mem_map]

/-! ## The word index -/

/-- A word is posted at the rows that have it. -/
theorem posts_buildPostings (host : TextHost) (rows : List Triple) : (buildPostings host rows).Posts (rows.map (docWords host)) := by
  induction rows using List.reverseRecOn with
  | nil => exact InvertedIndex.posts_empty
  | append_singleton rows row ih =>
    have hstep : buildPostings host (rows ++ [row]) =
        (rowText row).elim (buildPostings host rows) fun value => (buildPostings host rows).add (tokenize host value) rows.length := by
      unfold buildPostings
      rw [List.zipIdx_append, List.foldl_append]
      cases hrow : rowText row <;> simp [hrow]
    have hlen : rows.length = (rows.map (docWords host)).length := (List.length_map _).symm
    rw [hstep, List.map_append, List.map_singleton, docWords]
    cases rowText row with
    | none => exact ih.add List.nodup_nil fun _ => Iff.rfl
    | some value =>
      rw [hlen]
      exact ih.add (nodup_tokenize value) fun k => by rw [mem_tokenize, Option.elim, mem_tokenSet]

/-- The handles that the word index finds are those of the rows that have every word. -/
theorem indexedHandles_eq (h : tokens ≠ []) : InvertedIndex.intersect (tokens.map (buildPostings host rows).get) =
      (List.range rows.length).filter fun handle => tokens.all fun token => decide (token ∈ (rows[handle]?.map (docWords host)).getD []) := by
  rw [(posts_buildPostings host rows).intersect h, List.length_map]
  simp only [List.getElem?_map]

/-! ## The analyzers -/

theorem mem_trigrams {value gram : Units} : gram ∈ trigrams value ↔ gram.length = 3 ∧ gram <:+: value := by
  rw [trigrams, Grouping.mem_firsts, List.mem_map]
  constructor
  · intro h
    obtain ⟨index, hindex, rfl⟩ := h
    have := List.mem_range.1 hindex
    refine ⟨by simp; omega, ((List.take_prefix _ _).isInfix).trans (List.drop_suffix _ _).isInfix⟩
  · intro h
    obtain ⟨hlen, before, after, rfl⟩ := h
    refine ⟨before.length, List.mem_range.2 (by simp; omega), ?_⟩
    rw [List.append_assoc, List.drop_left, ← hlen, List.take_left]

/-- The parts of a substring are parts of the text. -/
theorem trigrams_subset {value text : Units} (h : value <:+: text) : trigrams value ⊆ trigrams text := fun gram hg => by
  rw [mem_trigrams] at hg ⊢
  exact ⟨hg.1, hg.2.trans h⟩

/-- What the analyzers hold of a corpus. -/
structure Analyzes (host : TextHost) (rows : List Triple) (state : SearchBuildState) : Prop where
  tokens : state.tokenRows = rows.map (docTokens host)
  normalized : state.normalizedRows = rows.map (docText host)
  stems : state.stemPostings.Posts (rows.map fun row => stems host (docTokens host row))
  trigrams : state.trigramPostings.Posts (rows.map fun row => trigrams (unitsOfText (docText host row)))

/-- What is built holds the tokens and the text of each row, and posts it. -/
theorem analyzes_buildState (host : TextHost) (rows : List Triple) : Analyzes host rows (buildState host rows) := by
  induction rows using List.reverseRecOn with
  | nil => exact ⟨rfl, rfl, InvertedIndex.posts_empty, InvertedIndex.posts_empty⟩
  | append_singleton rows row ih =>
    have hstep : buildState host (rows ++ [row]) = buildRow host (buildState host rows) row rows.length := by
      simp [buildState, List.zipIdx_append, List.foldl_append]
    rw [hstep]
    have hlen : ∀ {κ : Type} (f : Triple → κ), rows.length = (rows.map f).length := fun f => (List.length_map f).symm
    unfold buildRow
    cases hrow : rowText row with
    | none =>
      have htokens : docTokens host row = [] := by rw [docTokens, hrow, Option.elim]
      have htext : docText host row = "" := by rw [docText, hrow, Option.elim]
      refine ⟨by simp [ih.tokens, htokens], by simp [ih.normalized, htext], ?_, ?_⟩
      · rw [List.map_append, List.map_singleton, htokens]
        exact ih.stems.add List.nodup_nil fun _ => Iff.rfl
      · rw [List.map_append, List.map_singleton, htext]
        exact ih.trigrams.add List.nodup_nil fun _ => Iff.rfl
    | some value =>
      have htokens : docTokens host row = wordTokens host value := by rw [docTokens, hrow, Option.elim]
      have htext : docText host row = host.lowerCase value := by rw [docText, hrow, Option.elim]
      refine ⟨by simp [ih.tokens, htokens], by simp [ih.normalized, htext], ?_, ?_⟩
      · rw [List.map_append, List.map_singleton, htokens]
        dsimp only
        rw [hlen fun row => TextSearch.stems host (docTokens host row)]
        exact ih.stems.add (Grouping.nodup_firsts _) fun _ => Iff.rfl
      · rw [List.map_append, List.map_singleton, htext]
        dsimp only
        rw [hlen fun row => TextSearch.trigrams (unitsOfText (docText host row))]
        exact ih.trigrams.add (Grouping.nodup_firsts _) fun _ => Iff.rfl

/-- The handles that an index finds are those of the rows that have every key. -/
theorem postingsHandles_eq {index : InvertedIndex Units} {keyRows : List (List Units)} (h : index.Posts keyRows) {keys : List Units}
    (hk : keys ≠ []) : postingsHandles index keys =
      (List.range keyRows.length).filter fun handle => keys.all fun key => decide (key ∈ keyRows[handle]?.getD []) := by
  have hmem : ∀ key, key ∈ (Grouping.firsts keys).mergeSort (fun left right => decide (left ≤ right)) ↔ key ∈ keys := fun key => by
    rw [(List.mergeSort_perm _ _).mem_iff, Grouping.mem_firsts]
  have hne : (Grouping.firsts keys).mergeSort (fun left right => decide (left ≤ right)) ≠ [] := by
    obtain ⟨key, hkey⟩ := List.exists_mem_of_ne_nil _ hk
    exact List.ne_nil_of_mem ((hmem key).2 hkey)
  have hall : ∀ p : Units → Bool, ((Grouping.firsts keys).mergeSort fun left right => decide (left ≤ right)).all p = keys.all p := by
    intro p
    rw [Bool.eq_iff_iff, List.all_eq_true, List.all_eq_true]
    simp only [hmem]
  unfold postingsHandles
  rw [if_neg (by simpa using hne), h.intersect hne]
  refine List.filter_congr fun handle _ => ?_
  rw [hall, Bool.eq_iff_iff, List.all_eq_true, List.all_eq_true]
  simp only [decide_eq_true_eq]

/-! ## Matches -/

/-- The test is for a part without gaps. -/
theorem sequenceContains_iff {haystack needle : List String} : sequenceContains haystack needle = true ↔ needle ≠ [] ∧ needle <:+: haystack := by
  unfold sequenceContains
  split
  · rename_i h
    simp only [Bool.false_eq_true, false_iff, not_and]
    intro hne hin
    rcases h with h | h
    · exact hne (List.isEmpty_iff.1 h)
    · exact absurd hin.length_le (not_le.2 h)
  · rename_i h
    rw [not_or, List.isEmpty_iff, not_lt] at h
    rw [and_iff_right h.1, List.any_eq_true]
    simp only [sequenceAt, decide_eq_true_eq, List.mem_range]
    constructor
    · intro hx
      obtain ⟨start, -, heq⟩ := hx
      rw [← heq]
      exact (List.take_prefix _ _).isInfix.trans (List.drop_suffix _ _).isInfix
    · intro hx
      obtain ⟨before, after, rfl⟩ := hx
      refine ⟨before.length, ?_, ?_⟩
      · simp only [List.length_append]
        omega
      · rw [List.append_assoc, List.drop_left, List.take_left]

theorem includesText_iff {text value : String} : includesText text value = true ↔ unitsOfText value <:+: unitsOfText text :=
  decide_eq_true_iff

/-- A row that scores has the text of the needle, or all its stems; and one that has scores. -/
theorem scoreOf_pos {documentTokens : List String} {normalized value : String} : 0 < scoreOf host documentTokens normalized value ↔
      includesText normalized value = true ∨ stemCovered host documentTokens (wordTokens host value) = true := by
  unfold scoreOf
  dsimp only
  split
  · rename_i h
    simp only [lt_irrefl, false_iff, not_or, Bool.not_eq_true]
    simpa using h
  · rename_i h
    simp only [Bool.not_eq_true, Bool.not_eq_false', Bool.or_eq_true] at h
    simp only [h, iff_true]
    omega

/-! ## What is found -/

/-- A text has every stem of the words. -/
def HasStems (host : TextHost) (words : List String) (value : String) : Prop :=
  ∀ word ∈ words, ∃ word' ∈ wordTokens host value, englishStem host word' = englishStem host word

/-- A text has another as a part, whatever the cases of their letters. -/
def HasText (host : TextHost) (needle value : String) : Prop :=
  unitsOfText (host.lowerCase needle) <:+: unitsOfText (host.lowerCase value)

/-- What a text says to a needle, by the relation that asks. -/
def Says (host : TextHost) (relation needle value : String) : Prop :=
  if relation = textMatchRelation then wordTokens host needle ⊆ wordTokens host value
  else if relation = textPhraseRelation then wordTokens host needle <:+: wordTokens host value
  else if relation = textSubstringRelation then HasText host needle value
  else if relation = textStemRelation then HasStems host (wordTokens host needle) value
  else HasText host needle value ∨
    wordTokens host (host.lowerCase needle) ≠ [] ∧ HasStems host (wordTokens host (host.lowerCase needle)) value

/-- A needle that a relation takes: it has a word, or a character that is not blank. -/
def Accepts (host : TextHost) (relation needle : String) : Prop :=
  if relation = textSubstringRelation ∨ relation = textSearchRelation then (host.lowerCase needle).toList.all host.whitespace = false
  else wordTokens host needle ≠ []

instance (host : TextHost) (relation needle : String) : Decidable (Accepts host relation needle) :=
  inferInstanceAs (Decidable (if relation = textSubstringRelation ∨ relation = textSearchRelation then
    (host.lowerCase needle).toList.all host.whitespace = false else wordTokens host needle ≠ []))

/-- The proposition has a text that says what the needle asks. -/
def Found (host : TextHost) (relation needle : String) (row : Triple) : Prop :=
  ∃ value, rowText row = some value ∧ Says host relation needle value

open Classical in
/-- The row that a relation has for a proposition: with its score where the relation ranks. -/
noncomputable def foundRow (host : TextHost) (relation needle : String) (row : Triple) : Option Tuple :=
  if Found host relation needle row then
    some ([row.t1, row.t2, .str needle] ++ if relation = textSearchRelation then
      [.int (scoreOf host (docTokens host row) (docText host row) (host.lowerCase needle))] else [])
  else none

section Handles

variable {host : TextHost} {corpus : List Triple} {maximum : Int} {source : TextSearchSource} {analyzers : SearchAnalyzers}
  {relation needle : String}

open Classical in
/-- The handles of the propositions that are found. -/
noncomputable def foundHandles (host : TextHost) (corpus : List Triple) (relation needle : String) : List Nat :=
  (List.range corpus.length).filter fun handle => corpus[handle]?.any fun row => decide (Found host relation needle row)

/-- Handles that are those found, when they are a filter of the corpus by what it is to be found. -/
theorem filter_eq_found {p : Nat → Bool}
    (h : ∀ handle row, corpus[handle]? = some row → (p handle = true ↔ Found host relation needle row)) :
    (List.range corpus.length).filter p = foundHandles host corpus relation needle := by
  refine List.filter_congr fun handle hm => ?_
  obtain ⟨row, hrow⟩ : ∃ row, corpus[handle]? = some row := ⟨_, List.getElem?_eq_getElem (List.mem_range.1 hm)⟩
  rw [Bool.eq_iff_iff, hrow, h handle row hrow]
  simp

/-- A row without a text has no words, and no text but the empty one. -/
theorem found_iff {P : String → Prop} {q : Triple → Prop} (hvalue : ∀ value, Says host relation needle value ↔ P value)
    (hsome : ∀ row value, rowText row = some value → (q row ↔ P value)) (hnone : ∀ row, rowText row = none → ¬q row) (row : Triple) :
    q row ↔ Found host relation needle row := by
  unfold Found
  cases hrow : rowText row with
  | none =>
    simp only [reduceCtorEq, false_and, exists_false, iff_false]
    exact hnone row hrow
  | some value =>
    simp only [Option.some.injEq, hvalue, exists_eq_left']
    exact hsome row value hrow

theorem docTokens_some {value : String} (h : rowText row = some value) : docTokens host row = wordTokens host value := by
  rw [docTokens, h, Option.elim]

theorem docTokens_none (h : rowText row = none) : docTokens host row = [] := by rw [docTokens, h, Option.elim]

theorem docText_some {value : String} (h : rowText row = some value) : docText host row = host.lowerCase value := by
  rw [docText, h, Option.elim]

theorem docText_none (h : rowText row = none) : docText host row = "" := by rw [docText, h, Option.elim]

/-- The parts of a source that is built. -/
structure Built (host : TextHost) (corpus : List Triple) (source : TextSearchSource) : Prop where
  rows : source.rows = corpus
  exactRows : source.exact.rows = corpus
  postings : source.exact.postings = buildPostings host corpus

theorem built_of_buildSourceResult (h : buildSourceResult host corpus maximum = .ok source) : Built host corpus source := by
  unfold buildSourceResult TextIndex.buildSourceResult at h
  dsimp only at h
  split at h
  · cases h
  · simp only [bind, Except.bind] at h
    split at h
    · cases h
    · cases h
      exact ⟨rfl, rfl, rfl⟩

/-- The analyzers of a source hold what the rows have. -/
structure Analyzed (host : TextHost) (corpus : List Triple) (analyzers : SearchAnalyzers) : Prop where
  tokens : ∀ handle row, corpus[handle]? = some row → analyzers.tokensAt handle = docTokens host row
  normalized : ∀ handle row, corpus[handle]? = some row → analyzers.normalizedAt handle = docText host row
  stems : analyzers.stemPostings.Posts (corpus.map fun row => stems host (docTokens host row))
  trigrams : analyzers.trigramPostings.Posts (corpus.map fun row => trigrams (unitsOfText (docText host row)))

theorem Built.analyzed (h : Built host corpus source) (ha : analyzersOfResult host source = .ok analyzers) :
    Analyzed host corpus analyzers := by
  have hstate := analyzes_buildState host corpus
  unfold analyzersOfResult at ha
  dsimp only at ha
  rw [h.rows] at ha
  split at ha
  · cases ha
  · cases ha
    refine ⟨fun handle row hrow => ?_, fun handle row hrow => ?_, hstate.stems, hstate.trigrams⟩
    · rw [SearchAnalyzers.tokensAt, hstate.tokens, List.getElem?_map, hrow, Option.map_some, Option.getD_some]
    · rw [SearchAnalyzers.normalizedAt, hstate.normalized, List.getElem?_map, hrow, Option.map_some, Option.getD_some]

/-! ## Words -/

theorem found_match (hne : wordTokens host needle ≠ []) (row : Triple) :
    (∀ word ∈ wordTokens host needle, word ∈ docTokens host row) ↔ Found host textMatchRelation needle row := by
  refine found_iff (P := fun value => wordTokens host needle ⊆ wordTokens host value)
    (q := fun row => ∀ word ∈ wordTokens host needle, word ∈ docTokens host row) (fun value => by rw [Says, if_pos rfl])
    (fun row value hrow => by rw [docTokens_some hrow]; exact Iff.rfl) (fun row hrow hall => ?_) row
  obtain ⟨word, hword⟩ := List.exists_mem_of_ne_nil _ hne
  have := hall word hword
  rw [docTokens_none hrow] at this
  cases this

theorem needleTokensResult_ok (hne : wordTokens host needle ≠ []) :
    needleTokensResult host (some (.str needle)) = .ok (tokenize host needle) := by
  have : (tokenize host needle).isEmpty = false := by
    rw [isEmpty_tokenize]
    simpa using hne
  simp [needleTokensResult, this]

theorem Built.indexedHandles (h : Built host corpus source) (hne : wordTokens host needle ≠ []) :
    indexedHandlesResult host source.exact (some (.str needle)) = .ok (foundHandles host corpus textMatchRelation needle) := by
  have htokens : tokenize host needle ≠ [] := by
    obtain ⟨word, hword⟩ := List.exists_mem_of_ne_nil _ hne
    exact List.ne_nil_of_mem (mem_tokenize.2 hword)
  simp only [indexedHandlesResult, needleTokensResult_ok hne, h.postings, bind, Except.bind, indexedHandles_eq htokens]
  refine congrArg Except.ok (filter_eq_found fun handle row hrow => ?_)
  rw [← found_match hne, hrow, List.all_eq_true]
  simp only [decide_eq_true_eq, Option.map_some, Option.getD_some, mem_tokenize, mem_docWords]

theorem Built.scanHandles (h : Built host corpus source) (hne : wordTokens host needle ≠ []) :
    scanHandlesResult host source.exact (some (.str needle)) = .ok (foundHandles host corpus textMatchRelation needle) := by
  simp only [scanHandlesResult, needleTokensResult_ok hne, h.exactRows, bind, Except.bind]
  refine congrArg Except.ok (filter_eq_found fun handle row hrow => ?_)
  rw [← found_match hne, hrow, Option.bind_some]
  cases ht : rowText row with
  | none =>
    obtain ⟨word, hword⟩ := List.exists_mem_of_ne_nil _ hne
    simp only [docTokens_none ht, Bool.false_eq_true, List.not_mem_nil, false_iff, not_forall]
    exact ⟨word, hword, id⟩
  | some value =>
    simp only [docTokens_some ht, List.all_eq_true, decide_eq_true_eq, mem_tokenize, mem_tokenSet]

/-! ## Phrases -/

theorem found_phrase (hne : wordTokens host needle ≠ []) (row : Triple) :
    sequenceContains (docTokens host row) (wordTokens host needle) = true ↔ Found host textPhraseRelation needle row := by
  refine found_iff (P := fun value => wordTokens host needle <:+: wordTokens host value)
    (q := fun row => sequenceContains (docTokens host row) (wordTokens host needle) = true)
    (fun value => by rw [Says, if_neg (by decide), if_pos rfl])
    (fun row value hrow => ?_) (fun row hrow hin => ?_) row
  · rw [docTokens_some hrow, sequenceContains_iff, and_iff_right hne]
  · rw [docTokens_none hrow, sequenceContains_iff] at hin
    exact hin.1 (List.infix_nil.1 hin.2)

theorem wordNeedleResult_ok (hne : wordTokens host needle ≠ []) (relation : String) :
    wordNeedleResult host relation (some (.str needle)) = .ok (wordTokens host needle) := by
  simp [wordNeedleResult, stringNeedleResult, bind, Except.bind, hne]

theorem Built.phraseScan (h : Built host corpus source) (hne : wordTokens host needle ≠ [])
    (ha : analyzersOfResult host source = .ok analyzers) :
    phraseScanHandlesResult host source (some (.str needle)) = .ok (foundHandles host corpus textPhraseRelation needle) := by
  simp only [phraseScanHandlesResult, wordNeedleResult_ok hne, ha, allHandles, h.rows, bind, Except.bind]
  refine congrArg Except.ok (filter_eq_found fun handle row hrow => ?_)
  rw [(h.analyzed ha).tokens handle row hrow, found_phrase hne]

/-- A row that has a phrase has its words. -/
theorem Built.phrase (h : Built host corpus source) (hne : wordTokens host needle ≠ [])
    (ha : analyzersOfResult host source = .ok analyzers) :
    phraseHandlesResult host source (some (.str needle)) = .ok (foundHandles host corpus textPhraseRelation needle) := by
  simp only [phraseHandlesResult, wordNeedleResult_ok hne, h.indexedHandles hne, ha, bind, Except.bind]
  rw [foundHandles, List.filter_filter]
  refine congrArg Except.ok (filter_eq_found fun handle row hrow => ?_)
  simp only [(h.analyzed ha).tokens handle row hrow, hrow, Option.any_some, Bool.and_eq_true, decide_eq_true_eq]
  rw [← found_match hne, ← found_phrase hne, and_iff_left_iff_imp, sequenceContains_iff]
  exact fun hin word hword => hin.2.subset hword

/-! ## Substrings -/

theorem units_ne_nil_of_not_blank {value : String} (h : value.toList.all host.whitespace = false) : unitsOfText value ≠ [] := by
  intro hnil
  obtain ⟨c, hc, -⟩ := List.all_eq_false.1 h
  have := List.flatMap_eq_nil_iff.1 hnil c hc
  unfold utf16Units at this
  split at this <;> cases this

theorem substringNeedleResult_ok (hne : (host.lowerCase needle).toList.all host.whitespace = false) (relation : String) :
    substringNeedleResult host relation (some (.str needle)) = .ok (host.lowerCase needle) := by
  simp only [substringNeedleResult, stringNeedleResult, bind, Except.bind, hne, Bool.false_eq_true, if_false]

/-- A text has a needle that is not blank only where there is a text. -/
theorem includes_docText (hne : (host.lowerCase needle).toList.all host.whitespace = false) (row : Triple) :
    includesText (docText host row) (host.lowerCase needle) = true ↔ ∃ value, rowText row = some value ∧ HasText host needle value := by
  rw [includesText_iff]
  cases hrow : rowText row with
  | none =>
    simp only [reduceCtorEq, false_and, exists_false, iff_false, docText_none hrow]
    exact fun hin => units_ne_nil_of_not_blank hne (List.infix_nil.1 hin)
  | some value => simp only [docText_some hrow, Option.some.injEq, exists_eq_left', HasText]

theorem found_substring (hne : (host.lowerCase needle).toList.all host.whitespace = false) (row : Triple) :
    includesText (docText host row) (host.lowerCase needle) = true ↔ Found host textSubstringRelation needle row := by
  rw [includes_docText hne]
  refine exists_congr fun value => and_congr_right fun _ => ?_
  rw [Says, if_neg (by decide), if_neg (by decide), if_pos rfl]

theorem Built.substringScan (h : Built host corpus source) (hne : (host.lowerCase needle).toList.all host.whitespace = false)
    (ha : analyzersOfResult host source = .ok analyzers) :
    substringScanHandlesResult host source (some (.str needle)) = .ok (foundHandles host corpus textSubstringRelation needle) := by
  simp only [substringScanHandlesResult, substringNeedleResult_ok hne, ha, allHandles, h.rows, bind, Except.bind]
  refine congrArg Except.ok (filter_eq_found fun handle row hrow => ?_)
  rw [(h.analyzed ha).normalized handle row hrow, found_substring hne]

/-- The handles that have the parts of a text are a filter of the corpus which keeps every row that has the text. -/
theorem Built.trigramHandles (h : Built host corpus source) (ha : analyzersOfResult host source = .ok analyzers) (value : String) :
    ∃ p : Nat → Bool, trigramHandles source analyzers value = (List.range corpus.length).filter p ∧
      ∀ handle row, corpus[handle]? = some row → includesText (docText host row) value = true → p handle = true := by
  unfold TextSearch.trigramHandles
  dsimp only
  split
  · exact ⟨fun _ => true, by rw [List.filter_true, allHandles, h.rows], fun _ _ _ _ => rfl⟩
  · rename_i hgrams
    rw [postingsHandles_eq (h.analyzed ha).trigrams (by simpa using hgrams), List.length_map]
    refine ⟨_, rfl, fun handle row hrow hin => ?_⟩
    rw [List.all_eq_true]
    intro gram hgram
    simp only [List.getElem?_map, hrow, Option.map_some, Option.getD_some, decide_eq_true_eq]
    exact trigrams_subset (includesText_iff.1 hin) hgram

theorem Built.substring (h : Built host corpus source) (hne : (host.lowerCase needle).toList.all host.whitespace = false)
    (ha : analyzersOfResult host source = .ok analyzers) :
    substringHandlesResult host source (some (.str needle)) = .ok (foundHandles host corpus textSubstringRelation needle) := by
  obtain ⟨p, hp, hkeeps⟩ := h.trigramHandles ha (host.lowerCase needle)
  simp only [substringHandlesResult, substringNeedleResult_ok hne, ha, bind, Except.bind, hp, List.filter_filter]
  refine congrArg Except.ok (filter_eq_found fun handle row hrow => ?_)
  rw [Bool.and_eq_true, (h.analyzed ha).normalized handle row hrow, ← found_substring hne, and_iff_left_iff_imp]
  exact hkeeps handle row hrow

/-! ## Stems -/

theorem stems_ne_nil (h : tokens ≠ []) : stems host tokens ≠ [] := by
  obtain ⟨token, htoken⟩ := List.exists_mem_of_ne_nil _ h
  exact List.ne_nil_of_mem (mem_stems.2 ⟨token, htoken, rfl⟩)

theorem all_stems_iff {words : List String} : ((stems host words).all fun key => decide (key ∈ stems host tokens)) = true ↔
      ∀ word ∈ words, ∃ token ∈ tokens, englishStem host token = englishStem host word := by
  simp only [List.all_eq_true, decide_eq_true_eq, mem_stems]
  exact ⟨fun hall word hword => hall _ ⟨word, hword, rfl⟩, fun hall key ⟨word, hword, hkey⟩ => hkey ▸ hall word hword⟩

/-- A row has stems of words only where there is a text. -/
theorem stems_docTokens {words : List String} (hne : words ≠ []) (row : Triple) :
    ((stems host words).all fun key => decide (key ∈ stems host (docTokens host row))) = true ↔
      ∃ value, rowText row = some value ∧ HasStems host words value := by
  rw [all_stems_iff]
  cases hrow : rowText row with
  | none =>
    obtain ⟨word, hword⟩ := List.exists_mem_of_ne_nil _ hne
    simp only [reduceCtorEq, false_and, exists_false, iff_false, docTokens_none hrow]
    intro hall
    obtain ⟨token, htoken, -⟩ := hall word hword
    cases htoken
  | some value => simp only [docTokens_some hrow, Option.some.injEq, exists_eq_left', HasStems]

theorem found_stem (hne : wordTokens host needle ≠ []) (row : Triple) :
    ((stems host (wordTokens host needle)).all fun key => decide (key ∈ stems host (docTokens host row))) = true ↔
      Found host textStemRelation needle row := by
  rw [stems_docTokens hne]
  refine exists_congr fun value => and_congr_right fun _ => ?_
  rw [Says, if_neg (by decide), if_neg (by decide), if_neg (by decide), if_pos rfl]

theorem Built.stemScan (h : Built host corpus source) (hne : wordTokens host needle ≠ [])
    (ha : analyzersOfResult host source = .ok analyzers) :
    stemScanHandlesResult host source (some (.str needle)) = .ok (foundHandles host corpus textStemRelation needle) := by
  simp only [stemScanHandlesResult, wordNeedleResult_ok hne, ha, allHandles, h.rows, bind, Except.bind]
  refine congrArg Except.ok (filter_eq_found fun handle row hrow => ?_)
  rw [(h.analyzed ha).tokens handle row hrow, found_stem hne]

theorem Built.stem (h : Built host corpus source) (hne : wordTokens host needle ≠ []) (ha : analyzersOfResult host source = .ok analyzers) :
    stemHandlesResult host source (some (.str needle)) = .ok (foundHandles host corpus textStemRelation needle) := by
  simp only [stemHandlesResult, wordNeedleResult_ok hne, ha, bind, Except.bind,
    postingsHandles_eq (h.analyzed ha).stems (stems_ne_nil hne), List.length_map]
  refine congrArg Except.ok (filter_eq_found fun handle row hrow => ?_)
  rw [← found_stem hne, List.getElem?_map, hrow, Option.map_some, Option.getD_some]

/-! ## Ranks -/

theorem scoreAt_ok (h : Built host corpus source) (hne : (host.lowerCase needle).toList.all host.whitespace = false)
    (ha : analyzersOfResult host source = .ok analyzers) {handle : Nat} (hrow : corpus[handle]? = some row) :
    scoreAtResult host source handle (some (.str needle)) =
      .ok (scoreOf host (docTokens host row) (docText host row) (host.lowerCase needle)) := by
  simp only [scoreAtResult, substringNeedleResult_ok hne, ha, bind, Except.bind, (h.analyzed ha).tokens handle row hrow,
    (h.analyzed ha).normalized handle row hrow]

/-- A row scores when it has the needle as a substring, or all its stems. -/
theorem found_search (hne : (host.lowerCase needle).toList.all host.whitespace = false) (row : Triple) :
    0 < scoreOf host (docTokens host row) (docText host row) (host.lowerCase needle) ↔ Found host textSearchRelation needle row := by
  have hcovered : stemCovered host (docTokens host row) (wordTokens host (host.lowerCase needle)) = true ↔
      wordTokens host (host.lowerCase needle) ≠ [] ∧
        ∃ value, rowText row = some value ∧ HasStems host (wordTokens host (host.lowerCase needle)) value := by
    unfold stemCovered
    rw [Bool.and_eq_true, Bool.not_eq_true', List.isEmpty_eq_false_iff]
    by_cases hwords : wordTokens host (host.lowerCase needle) = []
    · simp [hwords, stems, Grouping.firsts]
    · rw [stems_docTokens hwords, and_iff_right (stems_ne_nil hwords), and_iff_right hwords]
  rw [scoreOf_pos, includes_docText hne, hcovered, Found]
  simp only [Says, if_neg (by decide : ¬textSearchRelation = textMatchRelation), if_neg (by decide : ¬textSearchRelation = textPhraseRelation),
    if_neg (by decide : ¬textSearchRelation = textSubstringRelation), if_neg (by decide : ¬textSearchRelation = textStemRelation)]
  constructor
  · rintro (⟨value, hrow, hs⟩ | ⟨hwords, value, hrow, hs⟩)
    · exact ⟨value, hrow, Or.inl hs⟩
    · exact ⟨value, hrow, Or.inr ⟨hwords, hs⟩⟩
  · rintro ⟨value, hrow, hs | ⟨hwords, hs⟩⟩
    · exact Or.inl ⟨value, hrow, hs⟩
    · exact Or.inr ⟨hwords, value, hrow, hs⟩

theorem Built.matchingScore (h : Built host corpus source) (hne : (host.lowerCase needle).toList.all host.whitespace = false)
    (ha : analyzersOfResult host source = .ok analyzers) {candidates : List Nat} (hc : ∀ handle ∈ candidates, handle < corpus.length) :
    matchingScoreHandlesResult host source (some (.str needle)) candidates =
      .ok (candidates.filter fun handle => corpus[handle]?.any fun row =>
        decide (0 < scoreOf host (docTokens host row) (docText host row) (host.lowerCase needle))) := by
  refine ExceptList.filterM_eq_ok fun handle hm => ?_
  obtain ⟨row, hrow⟩ : ∃ row, corpus[handle]? = some row := ⟨_, List.getElem?_eq_getElem (hc handle hm)⟩
  rw [scoreAt_ok h hne ha hrow, hrow]
  rfl

theorem Built.rankedScan (h : Built host corpus source) (hne : (host.lowerCase needle).toList.all host.whitespace = false)
    (ha : analyzersOfResult host source = .ok analyzers) :
    rankedScanHandlesResult host source (some (.str needle)) = .ok (foundHandles host corpus textSearchRelation needle) := by
  rw [rankedScanHandlesResult, allHandles, h.rows, h.matchingScore hne ha fun handle hm => List.mem_range.1 hm]
  refine congrArg Except.ok (filter_eq_found fun handle row hrow => ?_)
  rw [hrow, Option.any_some, decide_eq_true_iff, found_search hne]

theorem mem_unionHandles {left right : List Nat} {handle : Nat} : handle ∈ unionHandles left right ↔ handle ∈ left ∨ handle ∈ right := by
  rw [unionHandles, (List.mergeSort_perm _ _).mem_iff, Grouping.mem_firsts, List.mem_append]

theorem pairwise_unionHandles (left right : List Nat) : (unionHandles left right).Pairwise (· ≤ ·) := by
  have htrans : ∀ a b c : Nat, decide (a ≤ b) = true → decide (b ≤ c) = true → decide (a ≤ c) = true := fun a b c hab hbc => by
    rw [decide_eq_true_eq] at *
    exact hab.trans hbc
  have htotal : ∀ a b : Nat, (decide (a ≤ b) || decide (b ≤ a)) = true := fun a b => by simpa using Nat.le_total a b
  exact (List.pairwise_mergeSort htrans htotal _).imp of_decide_eq_true

/-- Handles in order, of which a test passes the same ones, pass it alike. -/
theorem filter_unionHandles {left right : List Nat} {n : Nat} {p : Nat → Bool} (hlt : ∀ handle ∈ unionHandles left right, handle < n)
    (hall : ∀ handle < n, p handle = true → handle ∈ unionHandles left right) :
    (unionHandles left right).filter p = (List.range n).filter p := by
  have hnodup : (unionHandles left right).Nodup := (List.mergeSort_perm _ _).nodup_iff.2 (Grouping.nodup_firsts _)
  refine List.Perm.eq_of_pairwise (fun _ _ _ _ => Nat.le_antisymm) ((pairwise_unionHandles left right).filter _)
    (List.pairwise_le_range.filter _) ?_
  refine (List.perm_ext_iff_of_nodup (hnodup.filter _) (List.nodup_range.filter _)).2 fun handle => ?_
  rw [List.mem_filter, List.mem_filter, List.mem_range]
  exact ⟨fun hm => ⟨hlt handle hm.1, hm.2⟩, fun hm => ⟨hall handle hm.1 hm.2, hm.2⟩⟩

/-- What scores is among the candidates of the indexes. -/
theorem Built.ranked (h : Built host corpus source) (hne : (host.lowerCase needle).toList.all host.whitespace = false)
    (ha : analyzersOfResult host source = .ok analyzers) :
    rankedHandlesResult host source (some (.str needle)) = .ok (foundHandles host corpus textSearchRelation needle) := by
  obtain ⟨p, hp, hkeeps⟩ := h.trigramHandles ha (host.lowerCase needle)
  have hstems : wordTokens host (host.lowerCase needle) ≠ [] →
      postingsHandles analyzers.stemPostings (stems host (wordTokens host (host.lowerCase needle))) =
        (List.range corpus.length).filter fun handle => (stems host (wordTokens host (host.lowerCase needle))).all fun key =>
          decide (key ∈ (corpus[handle]?.map fun row => stems host (docTokens host row)).getD []) := fun hwords => by
    rw [postingsHandles_eq (h.analyzed ha).stems (stems_ne_nil hwords), List.length_map]
    simp only [List.getElem?_map]
  simp only [rankedHandlesResult, substringNeedleResult_ok hne, ha, bind, Except.bind, hp]
  have hlt : ∀ handle ∈ unionHandles (if (wordTokens host (host.lowerCase needle)).isEmpty then [] else
      postingsHandles analyzers.stemPostings (stems host (wordTokens host (host.lowerCase needle))))
      ((List.range corpus.length).filter p), handle < corpus.length := by
    intro handle hm
    rcases mem_unionHandles.1 hm with hm | hm
    · split at hm
      · cases hm
      · rename_i hwords
        rw [hstems (by simpa using hwords)] at hm
        exact List.mem_range.1 (List.mem_of_mem_filter hm)
    · exact List.mem_range.1 (List.mem_of_mem_filter hm)
  rw [h.matchingScore hne ha hlt, filter_unionHandles hlt]
  · refine congrArg Except.ok (filter_eq_found fun handle row hrow => ?_)
    rw [hrow, Option.any_some, decide_eq_true_iff, found_search hne]
  · intro handle hm hscore
    obtain ⟨row, hrow⟩ : ∃ row, corpus[handle]? = some row := ⟨_, List.getElem?_eq_getElem hm⟩
    rw [hrow, Option.any_some, decide_eq_true_iff, scoreOf_pos] at hscore
    rw [mem_unionHandles]
    rcases hscore with hin | hcovered
    · exact Or.inr (List.mem_filter.2 ⟨List.mem_range.2 hm, hkeeps handle row hrow hin⟩)
    · simp only [stemCovered, Bool.and_eq_true, Bool.not_eq_true', List.isEmpty_eq_false_iff] at hcovered
      have hwords : wordTokens host (host.lowerCase needle) ≠ [] := fun hnil => hcovered.1 (by rw [hnil]; rfl)
      rw [if_neg (by simpa using hwords), hstems hwords]
      refine Or.inl (List.mem_filter.2 ⟨List.mem_range.2 hm, ?_⟩)
      rw [hrow, Option.map_some, Option.getD_some]
      exact hcovered.2

/-! ## Rows -/

/-- What is made of the elements that a test passes, by their positions. -/
theorem filterMap_positions {α β : Type} (l : List α) (q : α → Bool) (f : α → Option β) :
    ((List.range l.length).filter fun i => l[i]?.any q).filterMap (fun i => l[i]?.bind f) = (l.filter q).filterMap f := by
  induction l using List.reverseRecOn with
  | nil => rfl
  | append_singleton l a ih =>
    have hold : (List.range l.length).filter (fun i => (l ++ [a])[i]?.any q) = (List.range l.length).filter fun i => l[i]?.any q :=
      List.filter_congr fun i hi => by rw [List.getElem?_append_left (List.mem_range.1 hi)]
    have hfound : ((List.range l.length).filter fun i => l[i]?.any q).filterMap (fun i => (l ++ [a])[i]?.bind f) =
        ((List.range l.length).filter fun i => l[i]?.any q).filterMap fun i => l[i]?.bind f :=
      List.filterMap_congr fun i hi => by rw [List.getElem?_append_left (List.mem_range.1 (List.mem_of_mem_filter hi))]
    rw [List.length_append, List.length_singleton, List.range_succ, List.filter_append, List.filterMap_append, hold, hfound, ih,
      List.filter_append, List.filterMap_append]
    refine congrArg _ ?_
    cases hq : q a with
    | false => simp [hq]
    | true => simp [hq, List.filterMap_cons]

open Classical in
/-- The rows of what is found, as they are made of its handles. -/
theorem rows_of_found {f : Triple → Option Tuple} (hf : ∀ row, Found host relation needle row → f row = foundRow host relation needle row) :
    (foundHandles host corpus relation needle).filterMap (fun handle => corpus[handle]?.bind f) =
      corpus.filterMap (foundRow host relation needle) := by
  rw [foundHandles, filterMap_positions, List.filterMap_filter]
  refine List.filterMap_congr fun row _ => ?_
  by_cases hfound : Found host relation needle row
  · rw [if_pos (decide_eq_true hfound), hf row hfound]
  · rw [if_neg (by simpa using hfound), foundRow, if_neg hfound]

/-- What a map finds, in one list. -/
theorem reduceOption_map {α β : Type} (f : α → Option β) (l : List α) : (l.map f).reduceOption = l.filterMap f :=
  List.filterMap_map

theorem rowsForHandles_found (hne : relation ≠ textSearchRelation) :
    rowsForHandles corpus (some (.str needle)) (foundHandles host corpus relation needle) =
      corpus.filterMap (foundRow host relation needle) :=
  rows_of_found (f := fun row => some [row.t1, row.t2, .str needle]) fun row hfound => by
    rw [foundRow, if_pos hfound, if_neg hne, List.append_nil]

theorem Built.rankedRows (h : Built host corpus source) (hne : (host.lowerCase needle).toList.all host.whitespace = false)
    (ha : analyzersOfResult host source = .ok analyzers) :
    rankedRowsForHandlesResult host source (some (.str needle)) (foundHandles host corpus textSearchRelation needle) =
      .ok (corpus.filterMap (foundRow host textSearchRelation needle)) := by
  have hmap := @ExceptList.mapM_eq_ok TextError Nat (Option Tuple) (fun handle => do
      let score ← scoreAtResult host source handle (some (.str needle))
      .ok (do
        let proposition ← source.rows[handle]?
        let needle ← some (Term.str needle)
        some [proposition.t1, proposition.t2, needle, .int score]))
    (fun handle => corpus[handle]?.bind fun row =>
      some [row.t1, row.t2, .str needle, .int (scoreOf host (docTokens host row) (docText host row) (host.lowerCase needle))])
    (foundHandles host corpus textSearchRelation needle) fun handle hm => by
      obtain ⟨row, hrow⟩ : ∃ row, corpus[handle]? = some row :=
        ⟨_, List.getElem?_eq_getElem (List.mem_range.1 (List.mem_of_mem_filter hm))⟩
      rw [scoreAt_ok h hne ha hrow, h.rows, hrow]
      rfl
  refine (congrArg (List.reduceOption <$> ·) hmap).trans (congrArg Except.ok ?_)
  rw [reduceOption_map]
  refine Eq.trans ?_ (rows_of_found (f := fun row =>
    some [row.t1, row.t2, .str needle, .int (scoreOf host (docTokens host row) (docText host row) (host.lowerCase needle))])
    fun row hfound => by rw [foundRow, if_pos hfound, if_pos rfl]; rfl)
  rfl

/-- The rows of the handles that a search finds. -/
theorem Built.rowsForHandlesResult (h : Built host corpus source) (hne : relation ≠ textSearchRelation) {handles : Except TextError (List Nat)}
    (hh : handles = .ok (foundHandles host corpus relation needle)) : TextSearch.rowsForHandlesResult source (some (.str needle)) handles =
      ⟨true, corpus.filterMap (foundRow host relation needle), noTextError⟩ := by
  subst hh
  rw [TextSearch.rowsForHandlesResult, h.rows]
  exact congrArg (fun rows => TextSearchRowsResult.mk true rows noTextError) (rowsForHandles_found hne)

/-- For a needle that it takes, and within the budget of the analyzers, a text relation has the rows of the propositions whose text says
what the needle asks, in the order of the corpus, from the indexes and from a scan. -/
theorem Built.rowsResult (hb : Built host corpus source) (hrel : relation ∈ textRelations) (haccepts : Accepts host relation needle)
    (hfits : relation = textMatchRelation ∨ ∃ analyzers, analyzersOfResult host source = .ok analyzers) (indexed : Bool) :
    (searches host source).rowsResult indexed relation (some (.str needle)) =
      ⟨true, corpus.filterMap (foundRow host relation needle), noTextError⟩ := by
  simp only [textRelations, List.mem_cons, List.not_mem_nil, or_false] at hrel
  rcases hrel with rfl | hrel
  · have hne : wordTokens host needle ≠ [] := by
      unfold Accepts at haccepts
      rwa [if_neg (by decide)] at haccepts
    have hrows := @rowsForHandles_found host corpus textMatchRelation needle (by decide)
    rw [TextSearchSource.rowsResult, if_pos rfl]
    cases indexed with
    | true =>
      simp only [searches, exactIndexedRowsResult, indexedRowsResult, hb.indexedHandles hne, hb.exactRows, if_true]
      exact congrArg (fun rows => TextSearchRowsResult.mk true rows noTextError) hrows
    | false =>
      simp only [searches, exactScanRowsResult, scanRowsResult, hb.scanHandles hne, hb.exactRows, Bool.false_eq_true, if_false]
      exact congrArg (fun rows => TextSearchRowsResult.mk true rows noTextError) hrows
  · obtain ⟨analyzers, ha⟩ : ∃ analyzers, analyzersOfResult host source = .ok analyzers := by
      refine hfits.resolve_left ?_
      rintro rfl
      revert hrel
      decide
    rcases hrel with rfl | rfl | rfl | rfl
    · have hne : wordTokens host needle ≠ [] := by
        unfold Accepts at haccepts
        rwa [if_neg (by decide)] at haccepts
      rw [TextSearchSource.rowsResult, if_neg (by decide), if_pos rfl]
      cases indexed with
      | true => exact hb.rowsForHandlesResult (by decide) (hb.phrase hne ha)
      | false => exact hb.rowsForHandlesResult (by decide) (hb.phraseScan hne ha)
    · have hne : (host.lowerCase needle).toList.all host.whitespace = false := by
        unfold Accepts at haccepts
        rwa [if_pos (by decide)] at haccepts
      rw [TextSearchSource.rowsResult, if_neg (by decide), if_neg (by decide), if_pos rfl]
      cases indexed with
      | true => exact hb.rowsForHandlesResult (by decide) (hb.substring hne ha)
      | false => exact hb.rowsForHandlesResult (by decide) (hb.substringScan hne ha)
    · have hne : wordTokens host needle ≠ [] := by
        unfold Accepts at haccepts
        rwa [if_neg (by decide)] at haccepts
      rw [TextSearchSource.rowsResult, if_neg (by decide), if_neg (by decide), if_neg (by decide), if_pos rfl]
      cases indexed with
      | true => exact hb.rowsForHandlesResult (by decide) (hb.stem hne ha)
      | false => exact hb.rowsForHandlesResult (by decide) (hb.stemScan hne ha)
    · have hne : (host.lowerCase needle).toList.all host.whitespace = false := by
        unfold Accepts at haccepts
        rwa [if_pos (by decide)] at haccepts
      rw [TextSearchSource.rowsResult, if_neg (by decide), if_neg (by decide), if_neg (by decide), if_neg (by decide), if_pos rfl]
      cases indexed with
      | true =>
        simp only [searches, rankedIndexedRowsResult, hb.ranked hne ha, bind, Except.bind, hb.rankedRows hne ha, if_true]
        rfl
      | false =>
        simp only [searches, rankedScanRowsResult, hb.rankedScan hne ha, bind, Except.bind, hb.rankedRows hne ha, Bool.false_eq_true,
          if_false]
        rfl

/-! ## Needles -/

theorem wordNeedle_cases (host : TextHost) (relation : String) (needle : Option Term) :
    (∃ text, needle = some (.str text) ∧ wordTokens host text ≠ []) ∨ ∃ error, wordNeedleResult host relation needle = .error error := by
  unfold wordNeedleResult stringNeedleResult
  split
  · rename_i text
    by_cases hne : wordTokens host text = []
    · exact Or.inr ⟨_, by simp [bind, Except.bind, hne]; rfl⟩
    · exact Or.inl ⟨text, rfl, hne⟩
  · exact Or.inr ⟨_, rfl⟩

theorem substringNeedle_cases (host : TextHost) (relation : String) (needle : Option Term) :
    (∃ text, needle = some (.str text) ∧ (host.lowerCase text).toList.all host.whitespace = false) ∨
      ∃ error, substringNeedleResult host relation needle = .error error := by
  unfold substringNeedleResult stringNeedleResult
  split
  · rename_i text
    cases hne : (host.lowerCase text).toList.all host.whitespace with
    | false => exact Or.inl ⟨text, rfl, hne⟩
    | true => exact Or.inr ⟨_, by simp only [bind, Except.bind, hne, if_true]; rfl⟩
  · exact Or.inr ⟨_, rfl⟩

/-- Why a relation refuses a needle. -/
def refusal (relation : String) (needle : Option Term) : TextError :=
  queryTextError "query-text-invalid-needle" (relation ++
    match needle with
    | some (.atom (.string _)) =>
      if relation = textSubstringRelation ∨ relation = textSearchRelation then " needle must contain non-whitespace text"
      else " needle must contain at least one word token"
    | _ => " needle must be a string")

theorem wordNeedleResult_refused {needle : Option Term} (hrel : ¬(relation = textSubstringRelation ∨ relation = textSearchRelation))
    (h : ∀ text, needle = some (.str text) → wordTokens host text = []) :
    wordNeedleResult host relation needle = .error (refusal relation needle) := by
  unfold wordNeedleResult stringNeedleResult
  split
  · rename_i text
    simp [bind, Except.bind, h text rfl, refusal, hrel]
  · rename_i hother
    unfold refusal
    split
    · rename_i text
      exact absurd rfl (hother text)
    · rfl

theorem substringNeedleResult_refused {needle : Option Term} (hrel : relation = textSubstringRelation ∨ relation = textSearchRelation)
    (h : ∀ text, needle = some (.str text) → (host.lowerCase text).toList.all host.whitespace = true) :
    substringNeedleResult host relation needle = .error (refusal relation needle) := by
  unfold substringNeedleResult stringNeedleResult
  split
  · rename_i text
    have hall := h text rfl
    simp only [bind, Except.bind, hall, if_true, refusal, if_pos hrel]
  · rename_i hother
    unfold refusal
    split
    · rename_i text
      exact absurd rfl (hother text)
    · rfl

theorem needleTokensResult_eq (needle : Option Term) :
    (∃ error, wordNeedleResult host textMatchRelation needle = .error error ∧ needleTokensResult host needle = .error error) ∨
      ∃ text, needle = some (.str text) ∧ wordTokens host text ≠ [] := by
  unfold wordNeedleResult stringNeedleResult needleTokensResult
  split
  · rename_i text
    by_cases hne : wordTokens host text = []
    · refine Or.inl ⟨queryTextError "query-text-invalid-needle" "text-match needle must contain at least one word token", ?_, ?_⟩
      · simp only [bind, Except.bind, hne, List.isEmpty_nil, if_true]
        rfl
      · rw [if_pos (by rw [isEmpty_tokenize, hne]; rfl)]
    · exact Or.inr ⟨text, rfl, hne⟩
  · exact Or.inl ⟨_, rfl, rfl⟩

/-- A needle that a relation does not take is refused by the indexes. -/
theorem rowsResult_refused (host : TextHost) (source : TextSearchSource) (hrel : relation ∈ textRelations) {needle : Option Term}
    (h : ∀ text, needle = some (.str text) → ¬Accepts host relation text) :
    (searches host source).rowsResult true relation needle = ⟨false, [], refusal relation needle⟩ := by
  have hword : ¬(relation = textSubstringRelation ∨ relation = textSearchRelation) →
      wordNeedleResult host relation needle = .error (refusal relation needle) := fun hno =>
    wordNeedleResult_refused hno fun text ht => by
      have := h text ht
      rwa [Accepts, if_neg hno, not_not] at this
  have hsubstring : relation = textSubstringRelation ∨ relation = textSearchRelation →
      substringNeedleResult host relation needle = .error (refusal relation needle) := fun hyes =>
    substringNeedleResult_refused hyes fun text ht => by
      have := h text ht
      rwa [Accepts, if_pos hyes, Bool.not_eq_false] at this
  simp only [textRelations, List.mem_cons, List.not_mem_nil, or_false] at hrel
  rcases hrel with rfl | rfl | rfl | rfl | rfl
  · have hw := hword (by decide)
    have hn : needleTokensResult host needle = .error (refusal textMatchRelation needle) := by
      rcases @needleTokensResult_eq host needle with ⟨error, hw', hn⟩ | ⟨text, rfl, hne⟩
      · rw [hn, ← hw', hw]
      · rw [wordNeedleResult_ok hne] at hw
        cases hw
    simp only [TextSearchSource.rowsResult, if_pos, searches, exactIndexedRowsResult, indexedRowsResult, indexedHandlesResult, hn, bind,
      Except.bind]
    rfl
  · have hw : wordNeedleResult host "text-phrase" needle = _ := hword (by decide)
    have hh : phraseHandlesResult host source needle = .error (refusal textPhraseRelation needle) := by
      simp only [phraseHandlesResult, hw, bind, Except.bind]
    exact congrArg (TextSearch.rowsForHandlesResult source needle) hh
  · have hw : substringNeedleResult host "text-substring" needle = _ := hsubstring (by decide)
    have hh : substringHandlesResult host source needle = .error (refusal textSubstringRelation needle) := by
      simp only [substringHandlesResult, hw, bind, Except.bind]
    exact congrArg (TextSearch.rowsForHandlesResult source needle) hh
  · have hw : wordNeedleResult host "text-stem" needle = _ := hword (by decide)
    have hh : stemHandlesResult host source needle = .error (refusal textStemRelation needle) := by
      simp only [stemHandlesResult, hw, bind, Except.bind]
    exact congrArg (TextSearch.rowsForHandlesResult source needle) hh
  · have hw : substringNeedleResult host "text-search" needle = _ := hsubstring (by decide)
    have hh : rankedHandlesResult host source needle = .error (refusal textSearchRelation needle) := by
      simp only [rankedHandlesResult, hw, bind, Except.bind]
    exact congrArg (fun handles => TextSearch.rowsResult (handles >>= rankedRowsForHandlesResult host source needle)) hh

end Handles

end TextSearch

end Fram
