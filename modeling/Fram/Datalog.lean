import Fram.Lib.Closing
import Fram.Lib.Trie
import Fram.Numbers
import Fram.Rotation

/-!
# Datalog: the rules, and their plain evaluation

Sections of `src/fram/datalog.bgl`: the intermediate form of a query (terms, literals, rules), the context of an evaluation with its
budgets and its first error, unification, comparisons and builtins, and the plain join that reads a relation as a set of rows.

A relation is a set under the host's `=`, here a list that no two equal rows are in; a row that holds a NaN is equal to none, itself
included. A database and a substitution are the functions their maps are.
-/

namespace Fram

namespace Datalog

open Closing

/-- A row of a relation. -/
abbrev Tuple := List Term

/-- The rows of each relation; a relation that is not there has none. -/
abbrev Db := String → List Tuple

/-- The values of the bound variables. -/
abbrev Substitution := String → Option Term

/-- The substitution that binds nothing. -/
def Substitution.empty : Substitution := fun _ => none

/-- (`assoc`) The substitution with one variable bound. -/
def Substitution.assoc (θ : Substitution) (name : String) (value : Term) : Substitution := Function.update θ name (some value)

/-- A term of a query: a variable by its name, or a constant. -/
structure QueryTerm where
  variableName : Option String
  value : Option Term
  deriving DecidableEq

/-- One condition of a rule's body. -/
structure Literal where
  kind : Keyword
  relation : String
  arguments : List QueryTerm
  negated : Bool
  operator : Keyword
  binding : String
  deriving DecidableEq

/-- A rule: the relation and arguments of its head, and its body in order. -/
structure Rule where
  headRelation : String
  headArguments : List QueryTerm
  body : List Literal
  deriving DecidableEq

/-! ## Rows as members of a set -/

/-- The host's `=` on rows: as many values, equal one by one. -/
def rowEqv : Tuple → Tuple → Bool
  | [], [] => true
  | a :: row, b :: row' => a.eqv b && rowEqv row row'
  | _, _ => false

/-- (`contains?`) A relation has a row equal to this one. -/
def containsRow (rows : List Tuple) (row : Tuple) : Bool := rows.any (rowEqv · row)

/-- (`conj`) The relation with a row added, unless an equal one is there. -/
def conjRow (rows : List Tuple) (row : Tuple) : List Tuple := if containsRow rows row then rows else rows ++ [row]

/-- (`into`) The relation with rows added one after the other. -/
def intoRows (rows new : List Tuple) : List Tuple := new.foldl conjRow rows

/-- (`update`) The database with rows added to one relation. -/
def Db.add (db : Db) (relation : String) (rows : List Tuple) : Db := Function.update db relation (intoRows (db relation) rows)

/-! ## Kinds, operators and relations -/

/-- The kind of a literal that reads a relation. -/
def relationKind : Keyword := ⟨"relation"⟩

/-- The kind of a literal that compares two values. -/
def comparisonKind : Keyword := ⟨"comparison"⟩

/-- The kind of a literal that computes a value. -/
def builtinKind : Keyword := ⟨"builtin"⟩

def tripleRelation : String := "triple"

def occurrenceRelation : String := "occurrence"

def withdrawalRelation : String := "withdrawal"

def textMatchRelation : String := "text-match"

def textPhraseRelation : String := "text-phrase"

def textSubstringRelation : String := "text-substring"

def textStemRelation : String := "text-stem"

def textSearchRelation : String := "text-search"

/-- (`text-relations`) The relations that search text; no rule derives them and no database stores them. -/
def textRelations : List String :=
  [textMatchRelation, textPhraseRelation, textSubstringRelation, textStemRelation, textSearchRelation]

/-- (`base-relations`) The relations a query is given. -/
def baseRelations : List String := textRelations ++ [tripleRelation, occurrenceRelation, withdrawalRelation]

/-- (`comparison-operators`) -/
def comparisonOperators : List Keyword := [⟨"eq"⟩, ⟨"ne"⟩, ⟨"lt"⟩, ⟨"le"⟩, ⟨"gt"⟩, ⟨"ge"⟩]

/-- (`subtract-operator`) -/
def subtractOperator : Keyword := ⟨"-"⟩

/-- (`builtin-operators`) -/
def builtinOperators : List Keyword := [⟨"+"⟩, subtractOperator, ⟨"*"⟩, ⟨"/"⟩, ⟨"mod"⟩]

/-- (`constant`) A constant of a query. -/
def constant (value : Term) : QueryTerm := ⟨none, some value⟩

/-- (`query-term?`) The term is a variable with a name and no value, or a constant with a value. -/
def isQueryTerm (term : QueryTerm) : Bool :=
  match term.variableName with
  | some name => decide (0 < name.length) && term.value.isNone
  | none => term.value.isSome

/-- (`relation-literal`) -/
def relationLiteral (relation : String) (arguments : List QueryTerm) : Literal :=
  ⟨relationKind, relation, arguments, false, ⟨"none"⟩, ""⟩

/-- (`negated-literal`) -/
def negatedLiteral (relation : String) (arguments : List QueryTerm) : Literal :=
  ⟨relationKind, relation, arguments, true, ⟨"none"⟩, ""⟩

/-- (`comparison-literal`) -/
def comparisonLiteral (operator : Keyword) (arguments : List QueryTerm) : Literal :=
  ⟨comparisonKind, "", arguments, false, operator, ""⟩

/-- (`builtin-literal`) -/
def builtinLiteral (operator : Keyword) (arguments : List QueryTerm) (binding : String) : Literal :=
  ⟨builtinKind, "", arguments, false, operator, binding⟩

/-! ## The context of an evaluation -/

/-- Why an evaluation stopped. -/
structure QueryEvaluationError where
  errorType : Keyword
  code : Keyword
  message : String
  reason : Option Keyword
  steps : Option Nat
  maxSteps : Option Int
  timeoutMs : Option Int
  bytes : Option Int
  maximum : Option Int
  deriving DecidableEq

/-- The budgets of an evaluation and the checks made so far. What the outside does is a function of the check: the cancellation
reason found at it, and the clock read at it. -/
structure QueryControl where
  steps : Nat
  cancelled : Nat → Option Keyword
  maxSteps : Int
  deadlineNs : Int
  timeoutMs : Int
  clock : Nat → Int

/-- What an evaluation threads: the budgets, if any, and the first error. -/
structure QueryEvaluationContext where
  control : Option QueryControl
  error : Option QueryEvaluationError

/-- (`query-evaluation-context-open?`) No error has been recorded. -/
def contextOpen (context : QueryEvaluationContext) : Bool := context.error.isNone

/-- A step of an evaluation. -/
abbrev Eval (α : Type) := M QueryEvaluationContext Fault α

/-- (`new-query-evaluation-context`) -/
def newQueryEvaluationContext (control : Option QueryControl) : QueryEvaluationContext := ⟨control, none⟩

/-- (`query-evaluation-error`) -/
def queryEvaluationError (errorType code : Keyword) (message : String) : QueryEvaluationError :=
  ⟨errorType, code, message, none, none, none, none, none, none⟩

/-- (`query-evaluation-limit-error`) -/
def queryEvaluationLimitError (errorType code : Keyword) (message : String) (bytes maximum : Int) : QueryEvaluationError :=
  ⟨errorType, code, message, none, none, none, none, some bytes, some maximum⟩

/-- (`record-query-evaluation-error!`) Only the first error is kept. -/
def recordQueryEvaluationError (context : QueryEvaluationContext) (error : QueryEvaluationError) : QueryEvaluationContext :=
  { context with error := some (context.error.getD error) }

/-- The code under which a check stops the evaluation, if it does. -/
def stopCode (control : QueryControl) (steps : Nat) : Option Keyword :=
  if (control.cancelled steps).isSome then some ⟨"query-cancelled"⟩
  else if control.maxSteps < steps then some ⟨"query-work-limit"⟩
  else if control.deadlineNs ≤ control.clock steps then some ⟨"query-time-limit"⟩
  else none

/-- (`query-check!`) One check of the budgets: whether the evaluation may go on. -/
def queryCheck : Eval Bool := fun context =>
  match context.error, context.control with
  | some _, _ => .ok (false, context)
  | none, none => .ok (true, context)
  | none, some control =>
    let steps := control.steps + 1
    let counted : QueryEvaluationContext := { context with control := some { control with steps := steps } }
    match stopCode control steps with
    | none => .ok (true, counted)
    | some code =>
      .ok (false, recordQueryEvaluationError counted
        ⟨⟨"fram-query-abort"⟩, code, "query evaluation stopped: " ++ code.spelling, control.cancelled steps, some steps,
          some control.maxSteps, some control.timeoutMs, none, none⟩)

/-- A step that is made when a check lets the evaluation go on. -/
def checked {α : Type} (stopped : α) (step : Eval α) : Eval α := do
  if ← queryCheck then step else pure stopped

/-! ## Candidate sources -/

/-- The failure of a text search. -/
structure TextError where
  type : Keyword
  code : Keyword
  message : String
  bytes : Int
  maximum : Int
  limitData : Bool
  deriving DecidableEq

/-- The rows a text search found, or its failure. -/
structure TextSearchRowsResult where
  ok : Bool
  rows : List Tuple
  error : TextError
  deriving DecidableEq

/-- A text-search source, by its ten row functions: for each text relation, what the index and what a scan give on a needle. The
evaluator knows no more of it. -/
structure TextSearchSource where
  exactIndexedRowsResult : Option Term → TextSearchRowsResult
  exactScanRowsResult : Option Term → TextSearchRowsResult
  phraseIndexedRowsResult : Option Term → TextSearchRowsResult
  phraseScanRowsResult : Option Term → TextSearchRowsResult
  substringIndexedRowsResult : Option Term → TextSearchRowsResult
  substringScanRowsResult : Option Term → TextSearchRowsResult
  stemIndexedRowsResult : Option Term → TextSearchRowsResult
  stemScanRowsResult : Option Term → TextSearchRowsResult
  rankedIndexedRowsResult : Option Term → TextSearchRowsResult
  rankedScanRowsResult : Option Term → TextSearchRowsResult

/-- The operations of a store in a window, with the posting list of each proposition handle. -/
structure OccurrenceCandidateSource where
  root : TermStore
  lowerExclusive : Int
  upperInclusive : Int
  postings : Int → List Nat

/-- A rotation, and the lower bound of the window that it is read in. -/
structure RotationCandidateSource where
  rotation : Rotation
  lowerExclusive : Int

/-- (`HandleBucket`) Handles by one value. -/
abbrev HandleBucket := Trie.Levels Term 1

/-- (`HandleTrie`) Handles by three values. -/
abbrev HandleTrie := Trie.Levels Term 3

/-- The candidate rows of a relation: the rows by handle, and their indexes; or an occurrence or rotation source in their place. -/
structure CandidateSource where
  rows : List Tuple
  positions : Nat → HandleBucket
  spo : HandleTrie
  pos : HandleTrie
  osp : HandleTrie
  occurrence : Option OccurrenceCandidateSource
  rotation : Option RotationCandidateSource

/-- A source of candidate rows: indexed rows, or a virtual relation that searches text. -/
inductive CandidateSourceValue where
  | candidates (source : CandidateSource)
  | virtual (relation : String) (source : TextSearchSource)

/-- The sources by relation. -/
abbrev CandidateSources := String → Option CandidateSourceValue

/-! ## Terms, comparisons and builtins -/

/-- (`term-value`, `bound-term-value`) The value of a term: of a variable what it is bound to, if it is. -/
def termValue (term : QueryTerm) (θ : Substitution) : Option Term :=
  match term.variableName with
  | some name => θ name
  | none => term.value

/-- (`unify`) The substitution under which the term takes the value. -/
def unify (term : QueryTerm) (value : Term) (θ : Substitution) : Option Substitution :=
  match term.variableName with
  | some name =>
    match θ name with
    | some bound => if bound.eqv value then some θ else none
    | none => some (θ.assoc name value)
  | none =>
    match term.value with
    | some known => if known.eqv value then some θ else none
    | none => none

/-- Unification of as many terms as there are values, from left to right. -/
def unifyRow : List QueryTerm → Tuple → Substitution → Option Substitution
  | term :: terms, value :: values, θ =>
    match unify term value θ with
    | some θ' => unifyRow terms values θ'
    | none => none
  | _, _, θ => some θ

/-- The substitution under which the arguments are the row, if the row has as many values. -/
def unifyArguments (arguments : List QueryTerm) (row : Tuple) (θ : Substitution) : Option Substitution :=
  if arguments.length = row.length then unifyRow arguments row θ else none

/-- (`unify-arguments-controlled!`) -/
def unifyArgumentsControlled (arguments : List QueryTerm) (row : Tuple) (θ : Substitution) : Eval (Option Substitution) :=
  checked none (pure (unifyArguments arguments row θ))

/-- The fault of a variable that no literal has bound when its value is needed. -/
def unboundQueryVariable : Fault := ⟨⟨"unbound-query-variable"⟩, "fram: unbound query variable reached evaluation"⟩

/-- (`ground`) The row that the arguments are under a substitution. -/
def ground (arguments : List QueryTerm) (θ : Substitution) : Except Fault Tuple :=
  arguments.mapM fun term =>
    match termValue term θ with
    | some value => .ok value
    | none => .error unboundQueryVariable

/-- (`integer-value`) -/
def integerValue : Term → Option Int
  | .atom (.int n) => some n
  | .atom (.string text) => parseLong text
  | _ => none

/-- (`numeric-value`) -/
def numericValue : Term → Option F64
  | .atom (.int n) => some (F64.ofInt n)
  | .atom (.float x) => some x
  | .atom (.string text) =>
    match parseLong text with
    | some n => some (F64.ofInt n)
    | none => parseDouble text
  | _ => none

/-- The comparison that an operator makes of two values. -/
def compareValues (operator : Keyword) (left right : Term) : Bool :=
  if operator = ⟨"eq"⟩ then left.eqv right
  else if operator = ⟨"ne"⟩ then !left.eqv right
  else
    match numericValue left, numericValue right with
    | some x, some y =>
      if operator = ⟨"lt"⟩ then x.lt y
      else if operator = ⟨"le"⟩ then x.le y
      else if operator = ⟨"gt"⟩ then y.lt x
      else if operator = ⟨"ge"⟩ then y.le x
      else false
    | _, _ => false

/-- (`comparison-result`) Whether the comparison holds; it does not of an unbound value. -/
def comparisonResult (literal : Literal) (θ : Substitution) : Except Fault Bool := do
  let left ← nth literal.arguments 0
  let right ← nth literal.arguments 1
  match termValue left θ, termValue right θ with
  | some left, some right => pure (compareValues literal.operator left right)
  | _, _ => pure false

/-- What a builtin makes of its operands: an integer, a double, or nothing. -/
structure BuiltinValueResult where
  intValue : Option Int
  doubleValue : Option F64
  deriving DecidableEq

/-- (`integer-builtin-value`) -/
def integerBuiltinValue (operator : Keyword) (left right : Int) : Int :=
  if operator = ⟨"mod"⟩ then left.fmod right
  else if operator = ⟨"+"⟩ then left + right
  else if operator = subtractOperator then left - right
  else left * right

/-- (`double-builtin-value`) -/
def doubleBuiltinValue (operator : Keyword) (left right : F64) : F64 :=
  if operator = ⟨"/"⟩ then left.div right
  else if operator = ⟨"+"⟩ then left.add right
  else if operator = subtractOperator then left.sub right
  else left.mul right

/-- (`builtin-value`) An operation on integers gives an integer, an operation on other numbers a double. -/
def builtinValue (operator : Keyword) (left right : Term) : BuiltinValueResult :=
  if operator = ⟨"mod"⟩ then
    match integerValue left, integerValue right with
    | some l, some r => if r = 0 then ⟨none, none⟩ else ⟨some (integerBuiltinValue operator l r), none⟩
    | _, _ => ⟨none, none⟩
  else if operator = ⟨"/"⟩ then
    match numericValue left, numericValue right with
    | some l, some r => if r.eqv F64.zero then ⟨none, none⟩ else ⟨none, some (doubleBuiltinValue operator l r)⟩
    | _, _ => ⟨none, none⟩
  else if operator = ⟨"+"⟩ ∨ operator = subtractOperator ∨ operator = ⟨"*"⟩ then
    match integerValue left, integerValue right with
    | some l, some r => ⟨some (integerBuiltinValue operator l r), none⟩
    | _, _ =>
      match numericValue left, numericValue right with
      | some l, some r => ⟨none, some (doubleBuiltinValue operator l r)⟩
      | _, _ => ⟨none, none⟩
  else ⟨none, none⟩

/-- (`builtin-results`) The substitution with the builtin's value bound, if it has one. -/
def builtinResults (literal : Literal) (θ : Substitution) : Except Fault (List Substitution) := do
  let left ← nth literal.arguments 0
  let right ← nth literal.arguments 1
  match termValue left θ, termValue right θ with
  | some left, some right =>
    let result := builtinValue literal.operator left right
    match result.intValue, result.doubleValue with
    | some n, _ => pure [θ.assoc literal.binding (.int n)]
    | none, some x => pure [θ.assoc literal.binding (.atom (.float x))]
    | none, none => pure []
  | _, _ => pure []

/-! ## The plain join -/

/-- (`unify-tuples-controlled!`) The substitutions under which the arguments are one of the rows. -/
def unifyTuples (arguments : List QueryTerm) (rows : List Tuple) (θ : Substitution) : Eval (List Substitution) :=
  collect contextOpen id (fun results found => results ++ found.toList) (fun row => unifyArgumentsControlled arguments row θ) rows []

/-- (`missing-candidate-source-result`) -/
def missingCandidateSourceResult (relation : String) : TextSearchRowsResult :=
  ⟨false, [], ⟨⟨"fram-query-abort"⟩, ⟨"query-text-index-unavailable"⟩,
    "candidate source is unavailable for relation '" ++ relation ++ "'", 0, 0, false⟩⟩

/-- (`virtual-source-rows-result!`) The rows of a virtual relation for the needle that the third argument is. -/
def virtualSourceRowsResult (relation : String) (source : TextSearchSource) (indexed : Bool) (arguments : List QueryTerm)
    (θ : Substitution) : Except Fault TextSearchRowsResult := do
  let third ← nth arguments 2
  let needle := termValue third θ
  if relation = textMatchRelation then
    pure (if indexed then source.exactIndexedRowsResult needle else source.exactScanRowsResult needle)
  else if relation = textPhraseRelation then
    pure (if indexed then source.phraseIndexedRowsResult needle else source.phraseScanRowsResult needle)
  else if relation = textSubstringRelation then
    pure (if indexed then source.substringIndexedRowsResult needle else source.substringScanRowsResult needle)
  else if relation = textStemRelation then
    pure (if indexed then source.stemIndexedRowsResult needle else source.stemScanRowsResult needle)
  else if relation = textSearchRelation then
    pure (if indexed then source.rankedIndexedRowsResult needle else source.rankedScanRowsResult needle)
  else pure (missingCandidateSourceResult relation)

/-- (`query-evaluation-error-from-text-error`) -/
def queryEvaluationErrorFromTextError (error : TextError) : QueryEvaluationError :=
  if error.limitData then queryEvaluationLimitError error.type error.code error.message error.bytes error.maximum
  else queryEvaluationError error.type error.code error.message

/-- (`text-rows-or-record!`) The rows found, or none and the failure recorded. -/
def textRowsOrRecord (result : TextSearchRowsResult) : Eval (List Tuple) := fun context =>
  if result.ok then .ok (result.rows, context)
  else .ok ([], recordQueryEvaluationError context (queryEvaluationErrorFromTextError result.error))

/-- (`virtual-source-rows!`) -/
def virtualSourceRows (relation : String) (source : TextSearchSource) (indexed : Bool) (arguments : List QueryTerm)
    (θ : Substitution) : Eval (List Tuple) := do
  let result ← lift (virtualSourceRowsResult relation source indexed arguments θ)
  textRowsOrRecord result

/-- The substitutions of a relation that searches text and has no source: none, and the failure recorded. -/
def missingSourceResults (relation : String) : Eval (List Substitution) := do
  let _ ← textRowsOrRecord (missingCandidateSourceResult relation)
  pure []

/-- The negation of a relation stored in the database: the substitution itself when the row is absent. -/
def absentFrom (rows : List Tuple) (arguments : List QueryTerm) (θ : Substitution) : Eval (List Substitution) := do
  let wanted ← lift (ground arguments θ)
  pure (if containsRow rows wanted then [] else [θ])

/-- The substitutions under which a literal holds, by what `relations` makes of the literals that read a relation. -/
def literalResultsBy (relations : Literal → Substitution → Eval (List Substitution)) (literal : Literal) (θ : Substitution) :
    Eval (List Substitution) :=
  checked [] (
    if literal.kind = relationKind then relations literal θ
    else if literal.kind = comparisonKind then do
      let holds ← lift (comparisonResult literal θ)
      pure (if holds then [θ] else [])
    else if literal.kind = builtinKind then lift (builtinResults literal θ)
    else pure [])

/-- The substitutions under which a literal holds after any of those given. -/
def literalSubstitutionsBy (relations : Literal → Substitution → Eval (List Substitution)) (literal : Literal)
    (substitutions : List Substitution) : Eval (List Substitution) :=
  collect contextOpen (fun _ => []) (· ++ ·) (literalResultsBy relations literal) substitutions []

/-- The substitutions under which a body holds, literal by literal, starting from those given. -/
def bodyResultsBy (relations : Literal → Substitution → Eval (List Substitution)) :
    List Literal → List Substitution → Eval (List Substitution)
  | [], substitutions => whenOpen contextOpen [] (pure substitutions)
  | literal :: rest, substitutions =>
    whenOpen contextOpen [] (
      if substitutions.isEmpty then pure []
      else literalSubstitutionsBy relations literal substitutions >>= bodyResultsBy relations rest)

/-- The head rows of a rule, from the substitutions under which its body holds. -/
def groundHeads (head : List QueryTerm) (substitutions : List Substitution) : Except Fault (List Tuple) :=
  substitutions.foldlM (fun rows θ => do
    let row ← ground head θ
    pure (conjRow rows row)) []

/-- The rows that a rule derives. -/
def deriveRuleBy (relations : Literal → Substitution → Eval (List Substitution)) (rule : Rule) : Eval (List Tuple) :=
  bodyResultsBy relations rule.body [Substitution.empty] >>= fun substitutions =>
    whenOpen contextOpen [] (lift (groundHeads rule.headArguments substitutions))

/-- A set of names with one added. -/
def conjName (names : List String) (name : String) : List String := if name ∈ names then names else names ++ [name]

/-- (`rule-head-relations`) The relations that the rules derive. -/
def ruleHeadRelations (rules : List Rule) : List String := rules.foldl (fun names rule => conjName names rule.headRelation) []

end Datalog

end Fram

/-!
## The order of rows

The section of `src/fram/datalog.bgl` that gives every row a text, its key, and orders rows by their keys. Rows of one relation are
folded into an index in this order, so the handle of a row depends on the set of rows only.

The host's text of a double is the shortest decimal that reads back as the double, and its strings count and compare by UTF-16 units.
-/

namespace Fram

namespace Datalog

/-! ## Texts of the host -/

/-- The UTF-16 units of a character. -/
def utf16Units (c : Char) : List Nat :=
  if c.toNat < 0x10000 then [c.toNat] else [0xd800 + (c.toNat - 0x10000) / 0x400, 0xdc00 + (c.toNat - 0x10000) % 0x400]

/-- (`count` of a string) How many UTF-16 units the text has. -/
def textCount (text : String) : Nat := (text.toList.flatMap utf16Units).length

/-- (`sort` of strings) The order of two texts, by their UTF-16 units. -/
def textLe (left right : String) : Bool := decide (left.toList.flatMap utf16Units ≤ right.toList.flatMap utf16Units)

/-- The decimal digits of a number, with a point after the first `whole` of them. -/
def pointed (digits : List Char) (whole : Nat) : String :=
  String.ofList (digits.take whole ++ '.' :: (if digits.length ≤ whole then ['0'] else digits.drop whole))

/-- The text of the decimal with these digits whose first stands at a power of ten: plain from a thousandth to ten million, else with
an exponent. -/
def decimalText (negative : Bool) (digits : List Char) (power : Int) : String :=
  let significant := (digits.reverse.dropWhile (· == '0')).reverse
  let text :=
    if 0 ≤ power ∧ power < 7 then
      pointed (significant ++ List.replicate ((power + 1).toNat - significant.length) '0') (power + 1).toNat
    else if -3 ≤ power ∧ power < 0 then
      pointed (List.replicate (-power).toNat '0' ++ significant) 1
    else pointed significant 1 ++ "E" ++ toString power
  (if negative then "-" else "") ++ text

/-- The decimals nearest to a positive number, of two digits, of three, and so on to seventeen. -/
def nearestDecimals (negative : Bool) (q : ℚ) : List String :=
  (List.range 16).map fun more =>
    let digits : Int := more + 2
    let power : Int := (Nat.log 10 q.num.toNat : Int) - Nat.log 10 q.den
    let power : Int := if (10 : ℚ) ^ power ≤ q then power else power - 1
    let n := F64.roundEven (q / 10 ^ (power - digits + 1))
    if n = 10 ^ digits.toNat then decimalText negative ['1'] (power + 1)
    else decimalText negative (toString n).toList power

/-- (`str` of a double) The first of the nearest decimals that reads back as the double. -/
def floatText (x : F64) : String :=
  let candidates :=
    if x.isNaN then ["NaN"]
    else if x.isInfinite then [if x.isNegative then "-Infinity" else "Infinity"]
    else if x.isZero then [if x.isNegative then "-0.0" else "0.0"]
    else nearestDecimals x.isNegative |x.toRat|
  (candidates.find? fun text => parseDouble text == some x).getD ("#" ++ toString x.bits.toNat)

/-! ## Keys -/

/-- (`length-key`) A text under a tag and its count. -/
def lengthKey (tag value : String) : String := tag ++ toString (textCount value) ++ ":" ++ value

/-- A text under its count. -/
def countedKey (value : String) : String := lengthKey "" value

/-- The key of an atom. -/
def atomKey : Atom → String
  | .string text => lengthKey "s" text
  | .int n => "i" ++ toString n ++ ";"
  | .float x => "f" ++ floatText x ++ ";"
  | .bool b => if b then "b1;" else "b0;"
  | .keyword k => lengthKey "k" (":" ++ k.spelling)
  | .instant i => "m" ++ toString i.epochSeconds ++ ":" ++ toString i.nanos ++ ";"

/-- (`term-key`) The key of a term. -/
def termKey : Term → String
  | .atom a => atomKey a
  | .triple t1 t2 t3 => "t" ++ countedKey (termKey t1) ++ countedKey (termKey t2) ++ countedKey (termKey t3)

/-- (`row-key`) The key of a row. -/
def rowKey (row : Tuple) : String := row.foldl (fun key value => key ++ countedKey (termKey value)) "r"

/-- (`order-row-vector`) The rows in the order of their keys: for each key in order, the last row that has it. -/
def orderRowVector (rows : List Tuple) : List Tuple :=
  ((rows.map rowKey).mergeSort textLe).map fun key => (rows.reverse.find? fun row => rowKey row == key).getD []

/-- (`ordered-rows`) The rows of a set, in order. -/
def orderedRows (rows : List Tuple) : List Tuple := orderRowVector rows

end Datalog

end Fram
