import Fram.Types

/-!
# Profiles

`src/fram/kernel.bgl`: a space may declare a profile of propositions, and the lint of a declared profile lists what the live
propositions violate. Rules R1 to R4 judge a proposition by itself. Rule R5 asks that a namespaced predicate is a member of a vocabulary,
and is opted into by listing it.
-/

namespace Fram

namespace Kernel

/-- (`profile-anchor`) -/
def profileAnchor : Term := .kw "kernel/profile"

/-- (`relational-profile-kind`) -/
def relationalProfileKind : Term := .str "relational"

/-- (`observe-profile-mode`) -/
def observeProfileMode : Term := .str "observe"

/-- (`profile-includes`) -/
def profileIncludes : Term := .str "includes"

/-- (`profile-violation`) -/
def profileViolation : Term := .str "violates"

/-- (`relational-profile-rules`) -/
def relationalProfileRules : List String := ["R1", "R2", "R3", "R4"]

/-- (`vocabulary-profile-rule`) -/
def vocabularyProfileRule : String := "R5"

/-- (`vocabulary-membership`) -/
def vocabularyMembership : Term := .kw "member_of"

/-- (`kernel-vocabulary-prefix`) -/
def kernelVocabularyPrefix : String := ":kernel/"

/-- (`profile-header`) -/
def profileHeader (profileId kind mode : Term) : Triple := ⟨profileId, kind, mode⟩

/-- (`relational-profile-declaration`) -/
def relationalProfileDeclaration (spaceId : String) (profileId : Term) : Triple :=
  ⟨.str spaceId, profileAnchor, (profileHeader profileId relationalProfileKind observeProfileMode).term⟩

/-- (`profile-rule`) -/
def profileRule (profileId : Term) (rule : String) : Triple := ⟨profileId, profileIncludes, .str rule⟩

/-! ## Declarations -/

/-- (`profile-anchor?`) -/
def isProfileAnchor (value : Triple) : Bool := profileAnchor.eqv value.t2

/-- (`profile-has-rule?`) -/
def profileHasRule (triples : List Triple) (profileId : Term) (rule : String) : Bool :=
  triples.any fun value => profileId.eqv value.t1 && (profileIncludes.eqv value.t2 && (Term.str rule).eqv value.t3)

/-- (`declared-relational-profile?`) -/
def declaredRelationalProfile (triples : List Triple) (spaceId : String) : Bool :=
  triples.any fun value =>
    (Term.str spaceId).eqv value.t1 && (isProfileAnchor value &&
      match value.t3 with
      | .triple profileId kind mode =>
        relationalProfileKind.eqv kind && (observeProfileMode.eqv mode &&
          relationalProfileRules.all fun rule => profileHasRule triples profileId rule)
      | .atom _ => false)

/-- (`space-profile-ids`) -/
def spaceProfileIds (triples : List Triple) (spaceId : String) : List Term :=
  triples.filterMap fun value =>
    if (Term.str spaceId).eqv value.t1 && isProfileAnchor value then
      match value.t3 with
      | .triple profileId _ _ => some profileId
      | .atom _ => none
    else none

/-- (`declared-vocabulary-rule?`) -/
def declaredVocabularyRule (triples : List Triple) (spaceId : String) : Bool :=
  (spaceProfileIds triples spaceId).any fun profileId => profileHasRule triples profileId vocabularyProfileRule

/-! ## Verdicts -/

/-- (`namespaced-vocabulary?`) A keyword with a namespace, which is not that of the kernel. -/
def namespacedVocabulary (value : Term) : Bool :=
  match value with
  | .atom (.keyword k) =>
    let spelling := ":".toList ++ k.spelling.toList
    decide ('/' ∈ spelling) && !kernelVocabularyPrefix.toList.isPrefixOf spelling
  | _ => false

/-- (`vocabulary-member?`) -/
def vocabularyMember (triples : List Triple) (term : Term) : Bool :=
  triples.any fun value => term.eqv value.t1 && vocabularyMembership.eqv value.t2

/-- (`vocabulary-lint-errors`) -/
def vocabularyLintErrors (triples : List Triple) (proposition : Triple) : List String :=
  if namespacedVocabulary proposition.t2 && !vocabularyMember triples proposition.t2 then [vocabularyProfileRule] else []

/-- (`atom?`) -/
def isAtom : Term → Bool
  | .atom _ => true
  | .triple _ _ _ => false

/-- A keyword, or a string that is not empty. -/
def isName : Term → Bool
  | .atom (.keyword _) => true
  | .atom (.string s) => decide (s ≠ "")
  | _ => false

/-- (`relational-lint-errors`) -/
def relationalLintErrors (proposition : Triple) : List String :=
  let r1 := isAtom proposition.t1 && (isAtom proposition.t2 && isAtom proposition.t3)
  let r2 := isName proposition.t1
  let r3 := isName proposition.t2
  let r4 := isAtom proposition.t3
  let errors1 := if r1 then [] else ["R1"]
  let errors2 := if r2 then errors1 else errors1 ++ ["R2"]
  let errors3 := if r3 then errors2 else errors2 ++ ["R3"]
  if r4 then errors3 else errors3 ++ ["R4"]

/-- The rules that a proposition of the space breaks. -/
def brokenRules (triples : List Triple) (vocabulary : Bool) (proposition : Triple) : List String :=
  relationalLintErrors proposition ++ if vocabulary then vocabularyLintErrors triples proposition else []

/-- (`lint-declared-profile`) -/
def lintDeclaredProfile (triples : List Triple) (spaceId : String) : List Triple :=
  if declaredRelationalProfile triples spaceId = false then []
  else
    let vocabulary := declaredVocabularyRule triples spaceId
    triples.foldl
      (fun violations proposition =>
        if isProfileAnchor proposition then violations
        else
          (brokenRules triples vocabulary proposition).foldl
            (fun rows rule => rows ++ [⟨proposition.term, profileViolation, .str rule⟩]) violations)
      []

end Kernel

end Fram
