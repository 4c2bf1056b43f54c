import Fram.Fixpoint

/-!
# Query plans and their validation

The sections of `src/fram/query.bgl` that define a query plan and check it before it is evaluated. A plan is evaluated only when the
check finds no error.
-/

namespace Fram

namespace Query

open Datalog

/-! ## Plans -/

/-- An aggregate of a column of a group. -/
structure AggregateSpec where
  operator : Keyword
  argument : Option Int
  deriving DecidableEq

/-- A comparison that an aggregated row must pass. -/
structure HavingClause where
  operator : Keyword
  aggregateIndex : Int
  value : Term
  deriving DecidableEq

/-- What a plan returns: the rows of a relation, or aggregates of its groups. -/
structure FindSpec where
  relation : String
  grouping : List Int
  aggregates : List AggregateSpec
  having : List HavingClause
  deriving DecidableEq

/-- An order by one column. -/
structure OrderClause where
  column : Int
  direction : Keyword
  deriving DecidableEq

/-- A query: what it returns, its rules by stratum, the order of its rows and how many of them. -/
structure QueryPlan where
  find : FindSpec
  strata : List (List Rule)
  order : List OrderClause
  limit : Option Int
  deriving DecidableEq

/-- Why a plan is refused. -/
structure QueryError where
  code : Keyword
  message : String
  deriving DecidableEq

/-- (`query-error`) -/
def queryError (code message : String) : QueryError := ⟨⟨code⟩, message⟩

/-- (`base-rel-arities`) How many columns a base relation has. -/
def baseRelArity (relation : String) : Option Nat :=
  if relation = textSearchRelation then some 4
  else if relation = withdrawalRelation then some 2
  else if relation ∈ baseRelations then some 3
  else none

/-- (`aggregate-operators`) -/
def aggregateOperators : List Keyword := [⟨"count"⟩, ⟨"count-distinct"⟩, ⟨"sum"⟩, ⟨"avg"⟩, ⟨"min"⟩, ⟨"max"⟩]

/-- (`aggregate-argument-operators`) The aggregates that need a column. -/
def aggregateArgumentOperators : List Keyword := [⟨"count-distinct"⟩, ⟨"sum"⟩, ⟨"avg"⟩, ⟨"min"⟩, ⟨"max"⟩]

/-- (`aggregate-find?`) -/
def isAggregateFind (find : FindSpec) : Bool := !find.aggregates.isEmpty

/-- What the host gives to the check of a plan: the classes of characters that a text is cut by, and the setting of `max-results`,
if there is one. -/
structure QueryHost where
  letterOrDigit : Char → Bool
  whitespace : Char → Bool
  maxResultsSetting : Option String

/-- (`max-results`) The most rows of a result. -/
def maxResults (host : QueryHost) : Int :=
  match host.maxResultsSetting.bind parseLong with
  | some n => if 0 < n then n else 100000
  | none => 100000

/-! ## Terms and their variables -/

/-- (`set-union`) -/
def nameUnion (left right : List String) : List String := right.foldl conjName left

/-- (`ordered-names`) -/
def orderedNames (names : List String) : List String := names.mergeSort textLe

/-- The names with the variable of a term added, if it is one. -/
def addVariable (names : List String) (term : QueryTerm) : List String :=
  match term.variableName with
  | some name => conjName names name
  | none => names

/-- (`term-vars`) The variables of the terms. -/
def termVars (terms : List QueryTerm) : List String := terms.foldl addVariable []

/-- (`term-errors`) One error for each term that is neither a variable nor a constant. -/
def termErrors (terms : List QueryTerm) (context : String) : List QueryError :=
  terms.filterMap fun term =>
    if isQueryTerm term then none else some (queryError "query-invalid-term" (context ++ " contains an invalid QueryTerm"))

/-- (`unbound-errors`) One error for each variable that is not bound. -/
def unboundErrors (terms : List QueryTerm) (bound : List String) (context : String) : List QueryError :=
  (orderedNames (termVars terms)).filterMap fun name =>
    if name ∈ bound then none
    else some (queryError "query-unbound-variable" (context ++ " variable '" ++ name ++ "' is not bound"))

/-! ## Relations and their arities -/

/-- (`head-arities`) The arity of a derived relation: that of the first rule that derives it. -/
def headArity (rules : List Rule) (relation : String) : Option Nat :=
  (rules.find? fun rule => decide (rule.headRelation = relation)).map (·.headArguments.length)

/-- (`derived-relations`) -/
def derivedRelations (rules : List Rule) : List String := ruleHeadRelations rules

/-- (`relation-arity`) The arity of a relation, a base relation's before a derived one's. -/
def relationArity (relation : String) (arities : String → Option Nat) : Option Nat :=
  match baseRelArity relation with
  | some arity => some arity
  | none => arities relation

/-! ## Literals -/

/-- The errors of a literal that reads a relation. -/
def relationLiteralErrors (literal : Literal) (known : List String) (arities : String → Option Nat) (bound : List String) :
    List QueryError :=
  (if literal.relation ∉ known then
    [queryError "query-unknown-relation" ("unknown relation '" ++ literal.relation ++ "'")]
  else
    match relationArity literal.relation arities with
    | some arity =>
      if arity = literal.arguments.length then []
      else [queryError "query-arity" ("relation '" ++ literal.relation ++ "' takes " ++ toString arity ++ " arguments")]
    | none => []) ++
  (if literal.negated then unboundErrors literal.arguments bound "negated literal" else [])

/-- The errors of a literal that compares two values. -/
def comparisonErrors (literal : Literal) (bound : List String) : List QueryError :=
  (if literal.operator ∈ comparisonOperators then []
    else [queryError "query-invalid-comparison" "comparison operator is not supported"]) ++
  (if literal.arguments.length = 2 then [] else [queryError "query-arity" "comparison literal takes two arguments"]) ++
  unboundErrors literal.arguments bound "comparison"

/-- The errors of a literal that computes a value. -/
def builtinErrors (literal : Literal) (bound : List String) : List QueryError :=
  (if literal.operator ∈ builtinOperators then []
    else [queryError "query-invalid-builtin" "builtin operator is not supported"]) ++
  (if literal.arguments.length = 2 then [] else [queryError "query-arity" "builtin literal takes two arguments"]) ++
  (if literal.binding.length = 0 then [queryError "query-invalid-builtin" "builtin binding must be non-empty"]
    else if literal.binding ∈ bound then
      [queryError "query-unbound-variable" ("builtin binding '" ++ literal.binding ++ "' is already bound")]
    else []) ++
  unboundErrors literal.arguments bound "builtin"

/-- (`literal-errors`) The errors of a literal under the variables bound before it. -/
def literalErrors (literal : Literal) (known : List String) (arities : String → Option Nat) (bound : List String) :
    List QueryError :=
  if literal.kind = relationKind then
    termErrors literal.arguments "literal" ++ relationLiteralErrors literal known arities bound
  else if literal.kind = comparisonKind then termErrors literal.arguments "literal" ++ comparisonErrors literal bound
  else if literal.kind = builtinKind then termErrors literal.arguments "literal" ++ builtinErrors literal bound
  else [queryError "query-invalid-literal" "literal kind is not supported"]

/-- (`literal-bindings`) The variables that a literal binds. -/
def literalBindings (literal : Literal) : List String :=
  if isPositive literal then termVars literal.arguments
  else if literal.kind = builtinKind then [literal.binding]
  else []

/-! ## Text literals -/

/-- (`text-needle-valid?!`, `word-needle-valid?`) The needle is a text with a word in it. -/
def wordNeedleValid (host : QueryHost) : Option Term → Bool
  | some (.atom (.string text)) => text.toList.any host.letterOrDigit
  | _ => false

/-- (`substring-needle-valid?`) The needle is a text that is not blank. -/
def substringNeedleValid (host : QueryHost) : Option Term → Bool
  | some (.atom (.string text)) => text.toList.any fun c => !host.whitespace c
  | _ => false

/-- (`text-relation-needle-valid?!`) -/
def textRelationNeedleValid (host : QueryHost) (relation : String) (needle : Option Term) : Bool :=
  if relation = textMatchRelation ∨ relation = textPhraseRelation ∨ relation = textStemRelation then wordNeedleValid host needle
  else if relation = textSubstringRelation ∨ relation = textSearchRelation then substringNeedleValid host needle
  else false

/-- (`text-literal-errors!`) The errors of a literal that searches text: it is not negated, and its needle is a good constant or bound. -/
def textLiteralErrors (host : QueryHost) (literal : Literal) (bound : List String) : List QueryError :=
  if literal.kind = relationKind ∧ literal.relation ∈ textRelations then
    if literal.negated then
      [queryError "query-text-negative" (literal.relation ++ " is available only as a positive relation")]
    else if baseRelArity literal.relation ≠ some literal.arguments.length then []
    else
      match literal.arguments[2]? with
      | some needle =>
        match needle.variableName with
        | some name =>
          if name ∈ bound then []
          else [queryError "query-text-unbound-needle" (literal.relation ++ " query must be constant or already bound")]
        | none =>
          if textRelationNeedleValid host literal.relation needle.value then []
          else [queryError "query-text-invalid-needle" (literal.relation ++ " query is empty or invalid")]
      | none => []
  else []

/-! ## Rules -/

/-- The errors of a rule's body, and the variables bound at its end. -/
def bodyErrors (host : QueryHost) (known : List String) (arities : String → Option Nat) :
    List Literal → List String → List QueryError × List String
  | [], bound => ([], bound)
  | literal :: rest, bound =>
    let (errors, final) := bodyErrors host known arities rest (nameUnion bound (literalBindings literal))
    (literalErrors literal known arities bound ++ textLiteralErrors host literal bound ++ errors, final)

/-- The errors of a rule's head that do not depend on its body. -/
def headErrors (rule : Rule) : List QueryError :=
  (if 0 < rule.headRelation.length then [] else [queryError "query-invalid-rule" "rule head relation is empty"]) ++
  (if rule.headRelation ∈ baseRelations then
    [queryError "query-base-shadow" ("rule head cannot redefine base relation '" ++ rule.headRelation ++ "'")]
  else []) ++
  termErrors rule.headArguments "rule head"

/-- (`rule-errors!`) -/
def ruleErrors (host : QueryHost) (rule : Rule) (known : List String) (arities : String → Option Nat) : List QueryError :=
  let (errors, bound) := bodyErrors host known arities rule.body []
  headErrors rule ++ errors ++ unboundErrors rule.headArguments bound "rule head"

/-- (`arity-errors`) One error for each rule whose head has another arity than the first rule of its relation. -/
def arityErrors (rules : List Rule) : List QueryError :=
  rules.filterMap fun rule =>
    if headArity rules rule.headRelation = some rule.headArguments.length then none
    else some (queryError "query-arity" ("relation '" ++ rule.headRelation ++ "' has inconsistent arity"))

/-! ## Recursion and strata -/

/-- (`positive-relations`) The relations that a rule reads. -/
def positiveRelations (rule : Rule) : List String :=
  rule.body.foldl (fun names literal => if isPositive literal then conjName names literal.relation else names) []

/-- (`dependency-edges`) The relations that the rules of a relation read. -/
def dependencyEdges (rules : List Rule) : String → List String :=
  rules.foldl (fun edges rule =>
    Function.update edges rule.headRelation (nameUnion (edges rule.headRelation) (positiveRelations rule))) fun _ => []

/-- (`reaches?`) The walk along the edges from a frontier, without the relations it has seen. The steps are at most as many as given. -/
def reachesWithin (target : String) (edges : String → List String) : Nat → List String → List String → Bool
  | 0, _, _ => false
  | _ + 1, [], _ => false
  | steps + 1, current :: frontier, seen =>
    if current = target then true
    else if current ∈ seen then reachesWithin target edges steps frontier seen
    else reachesWithin target edges steps (frontier ++ edges current) (seen ++ [current])

/-- A number of steps that the walk never needs: one for the start and one for each edge of each relation that a rule derives. -/
def walkSteps (rules : List Rule) (edges : String → List String) (start : String) : Nat :=
  (edges start).length + ((derivedRelations rules).map fun relation => (edges relation).length).sum + 1

/-- (`recursive-relations`) The derived relations that reach themselves. -/
def recursiveRelations (rules : List Rule) : List String :=
  let edges := dependencyEdges rules
  (derivedRelations rules).filter fun relation =>
    reachesWithin relation edges (walkSteps rules edges relation) (edges relation) []

/-- (`recursive-builtin?`) The body of the rule has a builtin. -/
def hasBuiltin (rule : Rule) : Bool := rule.body.any fun literal => decide (literal.kind = builtinKind)

/-- (`recursive-builtin-errors`) One error for each rule of a recursive relation that has a builtin. -/
def recursiveBuiltinErrors (rules : List Rule) : List QueryError :=
  rules.filterMap fun rule =>
    if rule.headRelation ∈ recursiveRelations rules ∧ hasBuiltin rule = true then
      some (queryError "query-recursive-builtin" ("recursive relation '" ++ rule.headRelation ++ "' cannot contain a builtin binding"))
    else none

/-- (`forward-errors`) One error for each relation that a rule reads and that only a later stratum derives. -/
def forwardErrors (allDerived : List String) : List (List Rule) → List String → List QueryError
  | [], _ => []
  | stratum :: rest, lower =>
    let available := nameUnion lower (derivedRelations stratum)
    (stratum.flatMap fun rule => (orderedNames (positiveRelations rule)).filterMap fun relation =>
      if relation ∈ allDerived ∧ relation ∉ available then
        some (queryError "query-forward-reference" ("relation '" ++ relation ++ "' is defined only in a later stratum"))
      else none) ++ forwardErrors allDerived rest available

/-- (`negated-relations`) The relations that a stratum negates. -/
def negatedRelations (stratum : List Rule) : List String :=
  stratum.flatMap fun rule =>
    rule.body.filterMap fun literal => if literal.kind = relationKind ∧ literal.negated = true then some literal.relation else none

/-- (`strata-violations`) What is wrong with the negations: the relation is derived in the same stratum, or is neither a base relation
nor derived in a lower one. -/
def strataViolations : List (List Rule) → Nat → List String → List String
  | [], _, _ => []
  | stratum :: rest, index, lower =>
    let heads := derivedRelations stratum
    ((negatedRelations stratum).filterMap fun relation =>
      if relation ∈ heads then
        some ("stratum " ++ toString index ++ ": negated '" ++ relation ++ "' is also derived in the same stratum")
      else if relation ∉ lower then
        some ("stratum " ++ toString index ++ ": negated '" ++ relation ++ "' is not a base or lower-stratum relation")
      else none) ++ strataViolations rest (index + 1) (nameUnion lower heads)

/-! ## What a plan returns -/

/-- A column position is one of a relation with this arity. -/
def columnOf (arity : Option Nat) (position : Int) : Bool := decide (0 ≤ position) && arity.any fun arity => decide (position < arity)

/-- The error of an aggregate, if it has one. -/
def aggregateSpecError (arity : Option Nat) (spec : AggregateSpec) : Option QueryError :=
  if spec.operator ∉ aggregateOperators then some (queryError "query-invalid-aggregate" "aggregate operator is not supported")
  else if spec.operator ∈ aggregateArgumentOperators ∧ spec.argument = none then
    some (queryError "query-invalid-aggregate" "aggregate operator requires an argument position")
  else
    match spec.argument with
    | some argument =>
      if columnOf arity argument then none
      else some (queryError "query-invalid-aggregate" "aggregate argument position is out of range")
    | none => none

/-- (`number?`) The term is a number. -/
def isNumber : Term → Bool
  | .atom (.int _) => true
  | .atom (.float _) => true
  | _ => false

/-- The error of a comparison that an aggregated row must pass, if it has one. -/
def havingError (find : FindSpec) (clause : HavingClause) : Option QueryError :=
  if clause.operator ∉ comparisonOperators then some (queryError "query-invalid-having" "having operator is not supported")
  else if ¬ (0 ≤ clause.aggregateIndex ∧ clause.aggregateIndex < find.aggregates.length) then
    some (queryError "query-invalid-having" "having aggregate index is out of range")
  else if isNumber clause.value then none
  else some (queryError "query-invalid-having" "having comparison value must be numeric")

/-- (`find-errors`) -/
def findErrors (find : FindSpec) (derived : List String) (arities : String → Option Nat) : List QueryError :=
  (if find.relation ∈ baseRelations then [queryError "query-invalid-find" "find cannot name a base relation"]
    else if find.relation ∉ derived then
      [queryError "query-invalid-find" ("find relation '" ++ find.relation ++ "' is not derived")]
    else []) ++
  (if isAggregateFind find then
    (find.grouping.filterMap fun position =>
      if columnOf (arities find.relation) position then none
      else some (queryError "query-invalid-aggregate" "aggregate group position is out of range")) ++
    find.aggregates.filterMap (aggregateSpecError (arities find.relation)) ++ find.having.filterMap (havingError find)
  else if find.grouping ≠ [] ∨ find.having ≠ [] then
    [queryError "query-invalid-find" "plain find cannot contain grouping or having clauses"]
  else [])

/-- (`result-arity`) How many columns the rows of the result have. -/
def resultArity (find : FindSpec) (arities : String → Option Nat) : Option Nat :=
  if isAggregateFind find then some (find.grouping.length + find.aggregates.length) else arities find.relation

/-- The errors of the order clauses, after the columns seen before them. -/
def orderClauseErrors (arity : Option Nat) : List OrderClause → List Int → List QueryError
  | [], _ => []
  | clause :: rest, seen =>
    (if clause.direction ∉ [⟨"asc"⟩, ⟨"desc"⟩] then
      [queryError "query-invalid-order" "query order direction must be :asc or :desc"]
    else if clause.column < 0 ∨ arity.any (fun arity => decide ((arity : Int) ≤ clause.column)) = true then
      [queryError "query-invalid-order" "query order column is out of range"]
    else if clause.column ∈ seen then [queryError "query-invalid-order" "query order columns must be unique"]
    else []) ++ orderClauseErrors arity rest (seen ++ [clause.column])

/-- (`order-errors`) -/
def orderErrors (host : QueryHost) (plan : QueryPlan) (arities : String → Option Nat) : List QueryError :=
  orderClauseErrors (resultArity plan.find arities) plan.order [] ++
  (match plan.limit with
  | some limit =>
    if limit < 1 ∨ maxResults host < limit then
      [queryError "query-invalid-limit" ("query limit must be from 1 through " ++ toString (maxResults host))]
    else []
  | none => [])

/-- (`validate-plan!`) The errors of a plan; a plan without one is evaluated. -/
def validatePlan (host : QueryHost) (plan : QueryPlan) : List QueryError :=
  let rules := plan.strata.flatten
  let derived := derivedRelations rules
  let known := nameUnion baseRelations derived
  let arities := headArity rules
  (if rules.isEmpty then [queryError "query-invalid-plan" "query plan must contain at least one rule"] else []) ++
  (rules.flatMap fun rule => ruleErrors host rule known arities) ++ arityErrors rules ++ recursiveBuiltinErrors rules ++
  forwardErrors derived plan.strata baseRelations ++
  ((strataViolations plan.strata 0 baseRelations).map fun message => ⟨⟨"query-stratification"⟩, message⟩) ++
  findErrors plan.find derived arities ++ orderErrors host plan arities

end Query

end Fram
