import Fram.Lib.Grouping
import Fram.Lib.InvertedIndex
import Fram.Query

/-!
# Text search

`src/fram/text_index.bgl` and `src/fram/text_search.bgl`: the five text relations over the propositions of a corpus whose third position is
a string. Each is answered in two ways, from indexes and by a scan of the corpus. A handle is the position of a proposition in the corpus.

The host says which characters make words and what the lower case of a text is. A text is cut by UTF-16 units where the source takes
substrings. A set is the list of its elements in the order in which they came. The analyzers are made on their first use and kept in a
cell of the source; here each use makes them.
-/

namespace Fram

/-- What the host gives to a text search: the classes of characters, and the lower case of a text. -/
structure TextHost extends Query.QueryHost where
  lowerCase : String → String

open Datalog (TextError TextSearchRowsResult textCount textLe utf16Units Tuple)

/-- The UTF-16 units of a text. -/
abbrev Units := List Nat

/-- The units of a text. -/
def unitsOfText (text : String) : Units := text.toList.flatMap utf16Units

/-! ## The word index -/

namespace TextIndex

/-- (`text-index-max-bytes`) -/
def textIndexMaxBytes : Int := 64 * 1024 * 1024

/-- (`no-text-error`) -/
def noTextError : TextError := ⟨⟨"query-text-none"⟩, ⟨"query-text-none"⟩, "", 0, 0, false⟩

/-- (`query-text-error`) -/
def queryTextError (code message : String) : TextError := ⟨⟨"fram-query-abort"⟩, ⟨code⟩, message, 0, 0, false⟩

/-- (`text-index-limit-error`) -/
def textIndexLimitError (message : String) (bytes maximum : Int) : TextError :=
  ⟨⟨"query-text-index-limit"⟩, ⟨"query-text-index-limit"⟩, message, bytes, maximum, true⟩

/-- The runs of letters and digits of a text. -/
def wordRuns (host : TextHost) (value : String) : List String :=
  ((value.toList.splitOnP fun c => !host.letterOrDigit c).filter fun run => !run.isEmpty).map String.ofList

/-- (`token-set!`) -/
def tokenSet (host : TextHost) (value : String) : List String := Grouping.firsts ((wordRuns host value).map host.lowerCase)

/-- (`tokenize!`) -/
def tokenize (host : TextHost) (value : String) : List String := (tokenSet host value).mergeSort textLe

/-- (`postings-weight`) What the posting lists take, by the size of their keys. -/
def postingsWeight {κ : Type} [DecidableEq κ] (size : κ → Nat) (postings : InvertedIndex κ) : Int :=
  (postings.entries.map fun entry => (84 + 4 * size entry.1 + 42 * entry.2.length : Int)).sum

/-- (`TextCandidateSource`) -/
structure TextCandidateSource where
  rows : List Triple
  postings : InvertedIndex String
  bytes : Int

/-- The text of a proposition, if its third position is one. -/
def rowText (row : Triple) : Option String :=
  match row.t3 with
  | .atom (.string value) => some value
  | _ => none

/-- (`build-source-result!`, its posting lists) -/
def buildPostings (host : TextHost) (rows : List Triple) : InvertedIndex String :=
  rows.zipIdx.foldl (fun postings (row, handle) =>
    match rowText row with
    | some value => postings.add (tokenize host value) handle
    | none => postings) ∅

/-- (`build-source-result!`) -/
def buildSourceResult (host : TextHost) (rows : List Triple) (maximum : Int) : Except TextError TextCandidateSource :=
  let postings := buildPostings host rows
  let weight : Int := 112 + 14 * rows.length + postingsWeight textCount postings
  if maximum < weight then .error (textIndexLimitError "text index exceeds the snapshot cache budget" weight maximum)
  else .ok ⟨rows, postings, weight⟩

/-- (`needle-tokens-result!`) -/
def needleTokensResult (host : TextHost) (needle : Option Term) : Except TextError (List String) :=
  match needle with
  | some (.atom (.string text)) =>
    let tokens := tokenize host text
    if tokens.isEmpty then
      .error (queryTextError "query-text-invalid-needle" "text-match needle must contain at least one word token")
    else .ok tokens
  | _ => .error (queryTextError "query-text-invalid-needle" "text-match needle must be a string")

/-- (`indexed-handles-result!`) -/
def indexedHandlesResult (host : TextHost) (source : TextCandidateSource) (needle : Option Term) : Except TextError (List Nat) := do
  let tokens ← needleTokensResult host needle
  .ok (InvertedIndex.intersect (tokens.map source.postings.get))

/-- (`scan-handles-result!`) -/
def scanHandlesResult (host : TextHost) (source : TextCandidateSource) (needle : Option Term) : Except TextError (List Nat) := do
  let tokens ← needleTokensResult host needle
  .ok ((List.range source.rows.length).filter fun handle =>
    match source.rows[handle]?.bind rowText with
    | some value => tokens.all fun token => decide (token ∈ tokenSet host value)
    | none => false)

/-- (`rows-for-handles`) -/
def rowsForHandles (rows : List Triple) (needle : Option Term) (handles : List Nat) : List Tuple :=
  handles.filterMap fun handle => do
    let proposition ← rows[handle]?
    let needle ← needle
    some [proposition.t1, proposition.t2, needle]

/-- (`indexed-rows-result!`) -/
def indexedRowsResult (host : TextHost) (source : TextCandidateSource) (needle : Option Term) : Except TextError (List Tuple) :=
  rowsForHandles source.rows needle <$> indexedHandlesResult host source needle

/-- (`scan-rows-result!`) -/
def scanRowsResult (host : TextHost) (source : TextCandidateSource) (needle : Option Term) : Except TextError (List Tuple) :=
  rowsForHandles source.rows needle <$> scanHandlesResult host source needle

end TextIndex

/-! ## The analyzers -/

namespace TextSearch

open TextIndex

/-- (`SearchAnalyzers`) -/
structure SearchAnalyzers where
  tokenRows : List (List String)
  normalizedRows : List String
  stemPostings : InvertedIndex Units
  trigramPostings : InvertedIndex Units
  bytes : Int

/-- (`TextSearchSource`) -/
structure TextSearchSource where
  exact : TextCandidateSource
  rows : List Triple
  maximum : Int
  bytes : Int

/-- (`word-tokens`) The words of a text in order, in lower case. -/
def wordTokens (host : TextHost) (value : String) : List String := (wordRuns host value).map host.lowerCase

/-- (`drop-last`) -/
def dropLast (value : Units) (amount : Nat) : Units := value.take (value.length - amount)

/-- (`vowel?`) -/
def isVowel (unit : Nat) : Bool := decide (unit ∈ unitsOfText "aeiou")

/-- (`has-vowel?`) -/
def hasVowel (value : Units) : Bool := value.any isVowel

/-- (`ends-with?`) -/
def endsWith (value : Units) (suffix : String) : Bool := decide (unitsOfText suffix <:+ value)

/-- (`double-consonant?`) -/
def doubleConsonant (value : Units) : Bool :=
  match value.reverse with
  | last :: prior :: _ => decide (last = prior) && !isVowel last && !decide (last ∈ unitsOfText "lsz")
  | _ => false

/-- (`short-syllable?`) -/
def shortSyllable (value : Units) : Bool :=
  match value.reverse with
  | last :: middle :: first :: _ => !isVowel first && isVowel middle && !isVowel last && !decide (last ∈ unitsOfText "wxy")
  | _ => false

/-- (`normalize-verb-stem`) -/
def normalizeVerbStem (value : Units) : Units :=
  if doubleConsonant value then dropLast value 1
  else if shortSyllable value then value ++ unitsOfText "e"
  else value

/-- (`plural-stem`) -/
def pluralStem (value : Units) : Units :=
  if 4 < value.length ∧ endsWith value "ies" = true then dropLast value 3 ++ unitsOfText "y"
  else if endsWith value "sses" then dropLast value 2
  else if 3 < value.length ∧ endsWith value "s" = true ∧
      ¬(endsWith value "ss" = true ∨ endsWith value "us" = true ∨ endsWith value "is" = true) then dropLast value 1
  else value

/-- The stem of a verb without its ending, if it has a vowel. -/
def verbStem (value : Units) (ending : Nat) : Units :=
  let base := dropLast value ending
  if hasVowel base then normalizeVerbStem base else value

/-- (`english-stem`) -/
def englishStem (host : TextHost) (token : String) : Units :=
  let value := pluralStem (unitsOfText (host.lowerCase token))
  if 4 < value.length ∧ endsWith value "ied" = true then dropLast value 3 ++ unitsOfText "y"
  else if 5 < value.length ∧ endsWith value "ing" = true then verbStem value 3
  else if 4 < value.length ∧ endsWith value "ed" = true then verbStem value 2
  else if 4 < value.length ∧ endsWith value "ly" = true then dropLast value 2
  else if 4 < value.length ∧ endsWith value "er" = true then verbStem value 2
  else if 5 < value.length ∧ endsWith value "est" = true then verbStem value 3
  else value

/-- (`stems`) -/
def stems (host : TextHost) (tokens : List String) : List Units := Grouping.firsts (tokens.map (englishStem host))

/-- (`trigrams`) The parts of a text that are three units long. -/
def trigrams (value : Units) : List Units :=
  Grouping.firsts ((List.range (value.length - 2)).map fun index => (value.drop index).take 3)

/-- (`token-rows-weight`) -/
def tokenRowsWeight (rows : List (List String)) : Int :=
  (rows.map fun tokens => (42 + (tokens.map fun token => (42 + 4 * textCount token : Int)).sum : Int)).sum

/-- (`strings-weight`) -/
def stringsWeight (values : List String) : Int := (values.map fun value => (70 + 4 * textCount value : Int)).sum

/-- (`SearchBuildState`) -/
structure SearchBuildState where
  tokenRows : List (List String)
  normalizedRows : List String
  stemPostings : InvertedIndex Units
  trigramPostings : InvertedIndex Units

/-- One row of `build-state`. -/
def buildRow (host : TextHost) (state : SearchBuildState) (row : Triple) (handle : Nat) : SearchBuildState :=
  match rowText row with
  | some value =>
    let tokens := wordTokens host value
    let normalized := host.lowerCase value
    ⟨state.tokenRows ++ [tokens], state.normalizedRows ++ [normalized], state.stemPostings.add (stems host tokens) handle,
      state.trigramPostings.add (trigrams (unitsOfText normalized)) handle⟩
  | none => ⟨state.tokenRows ++ [[]], state.normalizedRows ++ [""], state.stemPostings, state.trigramPostings⟩

/-- (`build-state`) -/
def buildState (host : TextHost) (rows : List Triple) : SearchBuildState :=
  rows.zipIdx.foldl (fun state (row, handle) => buildRow host state row handle) ⟨[], [], ∅, ∅⟩

/-- (`index-limit-error`) -/
def indexLimitError (weight maximum : Int) : Option TextError :=
  if maximum < weight then some (textIndexLimitError "text search index exceeds the snapshot cache budget" weight maximum) else none

/-- (`build-source-result!`) -/
def buildSourceResult (host : TextHost) (propositions : List Triple) (maximum : Int) : Except TextError TextSearchSource := do
  let exact ← TextIndex.buildSourceResult host propositions maximum
  let weight : Int := exact.bytes + 112 + 28 * propositions.length
  match indexLimitError weight maximum with
  | some error => .error error
  | none => .ok ⟨exact, propositions, maximum, weight⟩

/-- (`propositions-for-attributes`) -/
def propositionsForAttributes (propositions : List Triple) (attributes : List Term) : List Triple :=
  propositions.filter fun proposition => attributes.any (·.eqv proposition.t2)

/-- (`build-source-for-attributes-result!`) -/
def buildSourceForAttributesResult (host : TextHost) (propositions : List Triple) (attributes : List Term) (maximum : Int) :
    Except TextError TextSearchSource :=
  buildSourceResult host (propositionsForAttributes propositions attributes) maximum

/-- (`analyzers-of-result!`) -/
def analyzersOfResult (host : TextHost) (source : TextSearchSource) : Except TextError SearchAnalyzers :=
  let state := buildState host source.rows
  let weight := tokenRowsWeight state.tokenRows + stringsWeight state.normalizedRows +
    postingsWeight List.length state.stemPostings + postingsWeight List.length state.trigramPostings
  match indexLimitError (source.bytes + weight) source.maximum with
  | some error => .error error
  | none => .ok ⟨state.tokenRows, state.normalizedRows, state.stemPostings, state.trigramPostings, weight⟩

/-! ## Needles -/

/-- (`string-needle-result`) -/
def stringNeedleResult (relation : String) (needle : Option Term) : Except TextError String :=
  match needle with
  | some (.atom (.string text)) => .ok text
  | _ => .error (queryTextError "query-text-invalid-needle" (relation ++ " needle must be a string"))

/-- (`word-needle-result`) -/
def wordNeedleResult (host : TextHost) (relation : String) (needle : Option Term) : Except TextError (List String) := do
  let value ← stringNeedleResult relation needle
  let tokens := wordTokens host value
  if tokens.isEmpty then
    .error (queryTextError "query-text-invalid-needle" (relation ++ " needle must contain at least one word token"))
  else .ok tokens

/-- (`substring-needle-result`) -/
def substringNeedleResult (host : TextHost) (relation : String) (needle : Option Term) : Except TextError String := do
  let text ← stringNeedleResult relation needle
  let value := host.lowerCase text
  if value.toList.all host.whitespace then
    .error (queryTextError "query-text-invalid-needle" (relation ++ " needle must contain non-whitespace text"))
  else .ok value

/-! ## Handles -/

/-- (`postings-handles`) -/
def postingsHandles (postings : InvertedIndex Units) (keys : List Units) : List Nat :=
  let wanted := (Grouping.firsts keys).mergeSort fun left right => decide (left ≤ right)
  if wanted.isEmpty then [] else InvertedIndex.intersect (wanted.map postings.get)

/-- (`all-handles`) -/
def allHandles (source : TextSearchSource) : List Nat := List.range source.rows.length

/-- (`sequence-at?`) -/
def sequenceAt (haystack needle : List String) (start : Nat) : Bool := decide ((haystack.drop start).take needle.length = needle)

/-- (`sequence-contains?`) -/
def sequenceContains (haystack needle : List String) : Bool :=
  if needle.isEmpty ∨ haystack.length < needle.length then false
  else (List.range (haystack.length + 1 - needle.length)).any (sequenceAt haystack needle)

/-- The tokens of a row. -/
def SearchAnalyzers.tokensAt (analyzers : SearchAnalyzers) (handle : Nat) : List String := analyzers.tokenRows[handle]?.getD []

/-- The text of a row in lower case. -/
def SearchAnalyzers.normalizedAt (analyzers : SearchAnalyzers) (handle : Nat) : String := analyzers.normalizedRows[handle]?.getD ""

/-- (`str/includes?`) -/
def includesText (text value : String) : Bool := decide (unitsOfText value <:+: unitsOfText text)

/-- (`phrase-handles-result!`) -/
def phraseHandlesResult (host : TextHost) (source : TextSearchSource) (needle : Option Term) : Except TextError (List Nat) := do
  let tokens ← wordNeedleResult host "text-phrase" needle
  let candidates ← indexedHandlesResult host source.exact needle
  let analyzers ← analyzersOfResult host source
  .ok (candidates.filter fun handle => sequenceContains (analyzers.tokensAt handle) tokens)

/-- (`phrase-scan-handles-result!`) -/
def phraseScanHandlesResult (host : TextHost) (source : TextSearchSource) (needle : Option Term) : Except TextError (List Nat) := do
  let tokens ← wordNeedleResult host "text-phrase" needle
  let analyzers ← analyzersOfResult host source
  .ok ((allHandles source).filter fun handle => sequenceContains (analyzers.tokensAt handle) tokens)

/-- The handles that a substring's parts have in common, or all of them when the substring is too short to have one. -/
def trigramHandles (source : TextSearchSource) (analyzers : SearchAnalyzers) (value : String) : List Nat :=
  let grams := trigrams (unitsOfText value)
  if grams.isEmpty then allHandles source else postingsHandles analyzers.trigramPostings grams

/-- (`substring-handles-result!`) -/
def substringHandlesResult (host : TextHost) (source : TextSearchSource) (needle : Option Term) : Except TextError (List Nat) := do
  let value ← substringNeedleResult host "text-substring" needle
  let analyzers ← analyzersOfResult host source
  .ok ((trigramHandles source analyzers value).filter fun handle => includesText (analyzers.normalizedAt handle) value)

/-- (`substring-scan-handles-result!`) -/
def substringScanHandlesResult (host : TextHost) (source : TextSearchSource) (needle : Option Term) : Except TextError (List Nat) := do
  let value ← substringNeedleResult host "text-substring" needle
  let analyzers ← analyzersOfResult host source
  .ok ((allHandles source).filter fun handle => includesText (analyzers.normalizedAt handle) value)

/-- (`stem-handles-result!`) -/
def stemHandlesResult (host : TextHost) (source : TextSearchSource) (needle : Option Term) : Except TextError (List Nat) := do
  let tokens ← wordNeedleResult host "text-stem" needle
  let analyzers ← analyzersOfResult host source
  .ok (postingsHandles analyzers.stemPostings (stems host tokens))

/-- (`stem-scan-handles-result!`) -/
def stemScanHandlesResult (host : TextHost) (source : TextSearchSource) (needle : Option Term) : Except TextError (List Nat) := do
  let tokens ← wordNeedleResult host "text-stem" needle
  let analyzers ← analyzersOfResult host source
  .ok ((allHandles source).filter fun handle =>
    (stems host tokens).all fun key => decide (key ∈ stems host (analyzers.tokensAt handle)))

/-! ## Scores -/

/-- (`count-token`) -/
def countToken (tokens : List String) (wanted : String) : Nat := tokens.countP fun token => decide (token = wanted)

/-- (`score-at-result!`, what a word of the needle scores) -/
def tokenScore (host : TextHost) (documentTokens : List String) (token : String) : Int :=
  (if token ∈ documentTokens then 100
    else if englishStem host token ∈ stems host documentTokens then 60
    else 0) + 5 * min 3 (countToken documentTokens token : Int)

/-- (`score-at-result!`, the row has every stem of the needle) -/
def stemCovered (host : TextHost) (documentTokens queryTokens : List String) : Bool :=
  !(stems host queryTokens).isEmpty && (stems host queryTokens).all fun key => decide (key ∈ stems host documentTokens)

/-- (`score-at-result!`, over a row's words and text) -/
def scoreOf (host : TextHost) (documentTokens : List String) (normalized value : String) : Int :=
  let queryTokens := wordTokens host value
  let substringMatch := includesText normalized value
  let phraseMatch := !queryTokens.isEmpty && sequenceContains documentTokens queryTokens
  if !(substringMatch || stemCovered host documentTokens queryTokens) then 0
  else
    let raw := (queryTokens.map (tokenScore host documentTokens)).sum + (if phraseMatch then 250 else 0) +
      (if substringMatch then 80 else 0) + (if normalized = value then 400 else 0)
    let penalty := min 40 (max 0 ((documentTokens.length : Int) - queryTokens.length))
    max 1 (raw - penalty)

/-- (`score-at-result!`) -/
def scoreAtResult (host : TextHost) (source : TextSearchSource) (handle : Nat) (needle : Option Term) : Except TextError Int := do
  let value ← substringNeedleResult host "text-search" needle
  let analyzers ← analyzersOfResult host source
  .ok (scoreOf host (analyzers.tokensAt handle) (analyzers.normalizedAt handle) value)

/-- (`union-handles`) -/
def unionHandles (left right : List Nat) : List Nat := (Grouping.firsts (left ++ right)).mergeSort fun a b => decide (a ≤ b)

/-- (`matching-score-handles-result!`) -/
def matchingScoreHandlesResult (host : TextHost) (source : TextSearchSource) (needle : Option Term) (candidates : List Nat) :
    Except TextError (List Nat) :=
  candidates.filterM fun handle => (fun score => decide (0 < score)) <$> scoreAtResult host source handle needle

/-- (`ranked-handles-result!`) -/
def rankedHandlesResult (host : TextHost) (source : TextSearchSource) (needle : Option Term) : Except TextError (List Nat) := do
  let value ← substringNeedleResult host "text-search" needle
  let analyzers ← analyzersOfResult host source
  let queryTokens := wordTokens host value
  let stemCandidates := if queryTokens.isEmpty then [] else postingsHandles analyzers.stemPostings (stems host queryTokens)
  matchingScoreHandlesResult host source needle (unionHandles stemCandidates (trigramHandles source analyzers value))

/-- (`ranked-scan-handles-result!`) -/
def rankedScanHandlesResult (host : TextHost) (source : TextSearchSource) (needle : Option Term) : Except TextError (List Nat) :=
  matchingScoreHandlesResult host source needle (allHandles source)

/-! ## Rows -/

/-- (`rows-ok` and `rows-error`) The rows of a search, or its error. -/
def rowsResult : Except TextError (List Tuple) → TextSearchRowsResult
  | .ok rows => ⟨true, rows, noTextError⟩
  | .error error => ⟨false, [], error⟩

/-- (`ranked-rows-for-handles-result!`) -/
def rankedRowsForHandlesResult (host : TextHost) (source : TextSearchSource) (needle : Option Term) (handles : List Nat) :
    Except TextError (List Tuple) :=
  List.reduceOption <$> handles.mapM fun handle => do
    let score ← scoreAtResult host source handle needle
    .ok (do
      let proposition ← source.rows[handle]?
      let needle ← needle
      some [proposition.t1, proposition.t2, needle, .int score])

/-- (`rows-for-handles-result`) -/
def rowsForHandlesResult (source : TextSearchSource) (needle : Option Term) (handles : Except TextError (List Nat)) :
    TextSearchRowsResult :=
  rowsResult (rowsForHandles source.rows needle <$> handles)

/-- (`exact-indexed-rows-result!`) -/
def exactIndexedRowsResult (host : TextHost) (source : TextSearchSource) (needle : Option Term) : TextSearchRowsResult :=
  rowsResult (indexedRowsResult host source.exact needle)

/-- (`exact-scan-rows-result!`) -/
def exactScanRowsResult (host : TextHost) (source : TextSearchSource) (needle : Option Term) : TextSearchRowsResult :=
  rowsResult (scanRowsResult host source.exact needle)

/-- (`phrase-indexed-rows-result!`) -/
def phraseIndexedRowsResult (host : TextHost) (source : TextSearchSource) (needle : Option Term) : TextSearchRowsResult :=
  rowsForHandlesResult source needle (phraseHandlesResult host source needle)

/-- (`phrase-scan-rows-result!`) -/
def phraseScanRowsResult (host : TextHost) (source : TextSearchSource) (needle : Option Term) : TextSearchRowsResult :=
  rowsForHandlesResult source needle (phraseScanHandlesResult host source needle)

/-- (`substring-indexed-rows-result!`) -/
def substringIndexedRowsResult (host : TextHost) (source : TextSearchSource) (needle : Option Term) : TextSearchRowsResult :=
  rowsForHandlesResult source needle (substringHandlesResult host source needle)

/-- (`substring-scan-rows-result!`) -/
def substringScanRowsResult (host : TextHost) (source : TextSearchSource) (needle : Option Term) : TextSearchRowsResult :=
  rowsForHandlesResult source needle (substringScanHandlesResult host source needle)

/-- (`stem-indexed-rows-result!`) -/
def stemIndexedRowsResult (host : TextHost) (source : TextSearchSource) (needle : Option Term) : TextSearchRowsResult :=
  rowsForHandlesResult source needle (stemHandlesResult host source needle)

/-- (`stem-scan-rows-result!`) -/
def stemScanRowsResult (host : TextHost) (source : TextSearchSource) (needle : Option Term) : TextSearchRowsResult :=
  rowsForHandlesResult source needle (stemScanHandlesResult host source needle)

/-- (`ranked-indexed-rows-result!`) -/
def rankedIndexedRowsResult (host : TextHost) (source : TextSearchSource) (needle : Option Term) : TextSearchRowsResult :=
  rowsResult (rankedHandlesResult host source needle >>= rankedRowsForHandlesResult host source needle)

/-- (`ranked-scan-rows-result!`) -/
def rankedScanRowsResult (host : TextHost) (source : TextSearchSource) (needle : Option Term) : TextSearchRowsResult :=
  rowsResult (rankedScanHandlesResult host source needle >>= rankedRowsForHandlesResult host source needle)

/-- A source, as the evaluator knows it. -/
def searches (host : TextHost) (source : TextSearchSource) : Datalog.TextSearchSource where
  exactIndexedRowsResult := exactIndexedRowsResult host source
  exactScanRowsResult := exactScanRowsResult host source
  phraseIndexedRowsResult := phraseIndexedRowsResult host source
  phraseScanRowsResult := phraseScanRowsResult host source
  substringIndexedRowsResult := substringIndexedRowsResult host source
  substringScanRowsResult := substringScanRowsResult host source
  stemIndexedRowsResult := stemIndexedRowsResult host source
  stemScanRowsResult := stemScanRowsResult host source
  rankedIndexedRowsResult := rankedIndexedRowsResult host source
  rankedScanRowsResult := rankedScanRowsResult host source

end TextSearch

end Fram
