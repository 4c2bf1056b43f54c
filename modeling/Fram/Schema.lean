import Fram.Txn

/-!
# Schemas

The session of `src/fram/schema.bgl` as its callers write to it: predicates with names and aliases, their cardinality, and writes that
each commit one transaction and refresh the rotation. A mutating function is an action on the session, and what it has committed stays
when it throws afterwards.
-/

namespace Fram

/-- An action on a session, which keeps the session also when it throws. -/
abbrev SchemaM := ExceptT Fault (StateM Session)

namespace Schema

/-- (`name-predicate`) -/
def namePredicate : String := "name"

/-- (`cardinality-predicate`) -/
def cardinalityPredicate : String := "cardinality"

/-- (`value-kind-predicate`) -/
def valueKindPredicate : String := "value_kind"

/-- (`predicate-name-predicate`) -/
def predicateNamePredicate : String := "predicate_name"

/-- (`predicate-alias-predicate`) -/
def predicateAliasPredicate : String := "predicate_alias"

/-- (`single`) -/
def single : String := "single"

/-- (`multi`) -/
def multi : String := "multi"

/-- (`literal-kind`) -/
def literalKind : String := "literal"

/-! ## Reads -/

/-- (`distinct`) The terms without those that equal an earlier one. -/
def distinct (terms : List Term) : List Term :=
  terms.foldl (fun seen term => if seen.any (·.eqv term) then seen else seen ++ [term]) []

/-- (`subjects`) -/
def subjects (events : List OperationOccurrence) : List Term := events.map (·.proposition.t1)

/-- (`predicate-ids`) The identities that a spelling names. -/
def predicateIds (Γ : Host) (session : Session) (spelling : String) : List Term :=
  distinct (subjects (byT23 Γ session.view (.str predicateNamePredicate) (.str spelling)) ++
    subjects (byT23 Γ session.view (.str predicateAliasPredicate) (.str spelling)))

/-- A failure of the source without a `:type`. -/
def untyped (message : String) : Fault := ⟨⟨"ExceptionInfo"⟩, message⟩

/-- (`resolve-predicate`) -/
def resolvePredicate (Γ : Host) (session : Session) (spelling : String) : Except Fault (Option Term) :=
  match predicateIds Γ session spelling with
  | [] => .ok none
  | [pid] => .ok (some pid)
  | _ => .error (untyped ("predicate spelling collision: " ++ spelling))

/-- (`str`) The text of a term, that of a string itself. For other terms it is what the host prints. -/
def textOf (print : Term → String) : Term → String
  | .atom (.string text) => text
  | term => print term

/-- (`predicate-name`) -/
def predicateName (Γ : Host) (print : Term → String) (session : Session) (pid : Term) : String :=
  match (byT12 Γ session.view pid (.str predicateNamePredicate)).getLast? with
  | none => textOf print pid
  | some event => textOf print event.proposition.t3

/-- The identities that a spelling names already, when they are not the one candidate. -/
def collides (ids : List Term) (candidate : Option Term) : Bool :=
  match ids, candidate with
  | [], _ => false
  | [id], some pid => !pid.eqv id
  | _, _ => true

/-- (`cardinality`) -/
def cardinality (Γ : Host) (session : Session) (pname : String) : Except Fault String := do
  let pid ← resolvePredicate Γ session pname
  let card ← resolvePredicate Γ session cardinalityPredicate
  let events : List OperationOccurrence := match pid, card with
    | some pid, some card => byT12 Γ session.view pid card
    | _, _ => []
  match events.head? with
  | some ⟨_, _, _, _, .atom (.string value)⟩ => pure value
  | _ => pure multi

/-! ## Writes -/

/-- A pure result as an action. -/
def lift {α : Type} (result : Except Fault α) : SchemaM α := fun session => (result, session)

/-- (`commit!`) -/
def commit (Γ : Host) (builder : Txn.Builder) : SchemaM Unit := fun session =>
  match Txn.commit Γ session.store builder with
  | .error fault => (.error fault, session)
  | .ok (store, _) =>
    match refreshSession Γ { session with store := store } with
    | .error fault => (.error fault, { session with store := store })
    | .ok refreshed => (.ok (), refreshed)

/-- (`refresh!`) -/
def refresh (Γ : Host) : SchemaM Unit := fun session =>
  match refreshSession Γ session with
  | .error fault => (.error fault, session)
  | .ok refreshed => (.ok (), refreshed)

/-- The builder with an assertion when the test holds. -/
def assertWhen (test : Bool) (builder : Txn.Builder) (proposition : Triple) : Except Fault Txn.Builder := do
  if test then
    let (builder, _) ← Txn.assert builder proposition
    pure builder
  else pure builder

/-- (`register-predicate!`) -/
def registerPredicate (Γ : Host) (print : Term → String) (spelling : String) : SchemaM Term := do
  let session ← get
  let candidate ← lift (resolvePredicate Γ session spelling)
  let canonical := (candidate.map (predicateName Γ print session)).getD spelling
  let defaultAlias := ":" ++ canonical
  let aliasIds := predicateIds Γ session defaultAlias
  if collides aliasIds candidate then throw (untyped ("predicate alias collision: " ++ defaultAlias))
  let pid := candidate.getD (.str spelling)
  let named := byT12 Γ session.view pid (.str predicateNamePredicate)
  let builder ← lift (Txn.openBuilder session.store)
  let builder ← lift (assertWhen named.isEmpty builder ⟨pid, .str predicateNamePredicate, .str spelling⟩)
  let builder ← lift (assertWhen aliasIds.isEmpty builder ⟨pid, .str predicateAliasPredicate, .str defaultAlias⟩)
  if builder.operations.isEmpty then pure pid
  else do
    commit Γ builder
    pure pid

/-- What `assert!` does once the predicate is registered. -/
def assertRegistered (Γ : Host) (subject pid : Term) (pname : String) (value : Term) : SchemaM Triple := do
  let session ← get
  let builder ← lift (Txn.openBuilder session.store)
  let card ← lift (cardinality Γ session pname)
  let (builder, occurrence) ← lift
    (if card = single then Txn.updateSingle Γ builder session.view subject pid value else Txn.assert builder ⟨subject, pid, value⟩)
  commit Γ builder
  pure occurrence

/-- (`assert!`) -/
def assert (Γ : Host) (print : Term → String) (subject : Term) (pname : String) (value : Term) : SchemaM Triple := do
  let pid ← registerPredicate Γ print pname
  assertRegistered Γ subject pid pname value

/-- (`def-predicate!`) -/
def defPredicate (Γ : Host) (print : Term → String) (pname card kind : String) : SchemaM Term := do
  let pid ← registerPredicate Γ print pname
  let _ ← assert Γ print pid cardinalityPredicate (.str card)
  let _ ← assert Γ print pid valueKindPredicate (.str kind)
  pure pid

/-- (`mint-node!`) -/
def mintNode (Γ : Host) (print : Term → String) (pname : String) (value : Term) : SchemaM Triple := do
  let pid ← registerPredicate Γ print pname
  let session ← get
  let builder ← lift (Txn.openBuilder session.store)
  let (builder, node) ← lift (Txn.mint builder)
  let (builder, _) ← lift (Txn.assert builder ⟨node.term, pid, value⟩)
  commit Γ builder
  pure node

/-- (`alias-predicate!`) -/
def aliasPredicate (Γ : Host) (print : Term → String) (spelling aliasName : String) : SchemaM Term := do
  let session ← get
  let resolved ← lift (resolvePredicate Γ session spelling)
  if collides (predicateIds Γ session aliasName) resolved then throw (untyped ("predicate spelling collision: " ++ aliasName))
  let pid ← registerPredicate Γ print spelling
  let session ← get
  if (predicateIds Γ session aliasName).isEmpty then do
    let builder ← lift (Txn.openBuilder session.store)
    let (builder, _) ← lift (Txn.assert builder ⟨pid, .str predicateAliasPredicate, .str aliasName⟩)
    commit Γ builder
    pure pid
  else pure pid

/-- The alias that a rename leaves of the old name, when it names the predicate alone and is no alias yet. -/
def keepOldName (Γ : Host) (pid : Term) (oldName : String) : SchemaM Unit := do
  let session ← get
  let aliases := byT23 Γ session.view (.str predicateAliasPredicate) (.str oldName)
  if collides (predicateIds Γ session oldName) (some pid) || (predicateIds Γ session oldName).isEmpty || !aliases.isEmpty then pure ()
  else do
    let builder ← lift (Txn.openBuilder session.store)
    let (builder, _) ← lift (Txn.assert builder ⟨pid, .str predicateAliasPredicate, .str oldName⟩)
    commit Γ builder

/-- (`rename-predicate!`) -/
def renamePredicate (Γ : Host) (print : Term → String) (spelling newName : String) : SchemaM Term := do
  let session ← get
  let resolved ← lift (resolvePredicate Γ session spelling)
  if collides (predicateIds Γ session newName) resolved then throw (untyped ("predicate spelling collision: " ++ newName))
  let defaultAlias := ":" ++ newName
  if collides (predicateIds Γ session defaultAlias) resolved then throw (untyped ("predicate alias collision: " ++ defaultAlias))
  let pid ← registerPredicate Γ print spelling
  let oldName := predicateName Γ print (← get) pid
  if oldName = newName then pure pid
  else do
    keepOldName Γ pid oldName
    let _ ← assert Γ print pid predicateNamePredicate (.str newName)
    let _ ← aliasPredicate Γ print newName defaultAlias
    pure pid

/-- (`setup!`) -/
def setup (Γ : Host) (print : Term → String) : SchemaM Unit := do
  let _ ← defPredicate Γ print cardinalityPredicate single literalKind
  let _ ← defPredicate Γ print valueKindPredicate single literalKind
  let _ ← defPredicate Γ print namePredicate single literalKind
  let _ ← defPredicate Γ print predicateNamePredicate single literalKind
  let _ ← defPredicate Γ print predicateAliasPredicate multi literalKind

/-- A transaction through the session: a builder is opened, taken through steps against the session's rotation, and committed. -/
def transact (Γ : Host) (steps : List Txn.Step) : SchemaM (List Triple) := do
  let session ← get
  let builder ← lift (Txn.openBuilder session.store)
  let (builder, coordinates) ← lift (Txn.steps Γ session.view builder steps)
  commit Γ builder
  pure coordinates

end Schema

end Fram
