import Fram.Lib.Lines
import Fram.Datalog

/-!
# Program inspection

`src/fram/program_inspection.clj`: reads over a resolved corpus, a text of blocks of facts about the nodes of source files. A block's
definitions and the calls they make are derived by a walk down its child edges; a call is resolved by name; the impact of a definition is
traced along the references; a context packet shows a definition with its neighbors and its impact, narrower where the whole is printed
with more units than a budget allows.

The values in facts are those that the host's EDN reader returns, of which the program knows only what `Values` names; the reader itself
is a parameter. A value equals itself here, which leaves out the NaN.
-/

namespace Fram

namespace ProgramInspection

open Datalog (textLe)
open Lines (Text splitLines)

/-- What the program does with the values of facts. -/
structure Values (ν : Type) where
  text : Text → ν
  text_injective : Function.Injective text
  nil : ν
  boolFalse : ν
  asInteger : ν → Option Int
  prStr : ν → Text
  str : ν → Text

/-- A value that a test takes for true: any but nil and false. -/
def Values.truthy {ν : Type} (V : Values ν) (value : ν) : Prop := value ≠ V.nil ∧ value ≠ V.boolFalse

instance {ν : Type} [DecidableEq ν] (V : Values ν) (value : ν) : Decidable (V.truthy value) := inferInstanceAs (Decidable (_ ∧ _))

/-- A fact of a corpus. -/
structure Triple (ν : Type) where
  subject : ν
  predicate : ν
  object : ν
  deriving DecidableEq

/-- What `edn/read-string` makes of a line: a vector of three values, another value, or an error. -/
inductive Reading (ν : Type) where
  | triple (triple : Triple ν)
  | other
  | unreadable

/-- A block of a corpus: the facts of a file, and the lines they were read from. -/
structure Block (ν : Type) where
  file : Text
  triples : List (Triple ν)
  lines : List Text
  deriving DecidableEq

/-- (`fail!`) The failure with its type and message; its data is left out. -/
def fail (type message : String) : Fault := ⟨⟨type⟩, message⟩

/-! ## Reading a corpus -/

section Parse

variable {ν : Type} (readString : Text → Reading ν)

/-- The state of `parse-corpus`. -/
structure Parsing (ν : Type) where
  current : Option (Block ν)
  blocks : List (Block ν)
  skipped : Nat

/-- (`finish-block`) -/
def finishBlock (state : Parsing ν) : Parsing ν :=
  match state.current with
  | some current => { state with current := none, blocks := state.blocks ++ [current] }
  | none => state

/-- One line of `parse-corpus`. A line that the reader does not read is kept and counted. -/
def parseLine (state : Parsing ν) (line : Text) : Except Fault (Parsing ν) :=
  if "@file ".toList.isPrefixOf line then
    .ok { finishBlock state with current := some ⟨line.drop 6, [], []⟩ }
  else if "[".toList.isPrefixOf line then
    match state.current with
    | none => .error (fail "invalid-program-corpus" "corpus fact appears before its @file anchor")
    | some current =>
      match readString line with
      | .triple triple =>
        .ok { state with current := some { current with triples := current.triples ++ [triple], lines := current.lines ++ [line] } }
      | .other => .error (fail "invalid-program-corpus" "corpus fact is not a three-slot vector")
      | .unreadable =>
        .ok { state with current := some { current with lines := current.lines ++ [line] }, skipped := state.skipped + 1 }
  else
    match state.current with
    | some current => .ok { state with current := some { current with lines := current.lines ++ [line] } }
    | none => .ok state

/-- (`parse-corpus`) The blocks of a corpus, and the number of its lines that were skipped. -/
def parseCorpus (text : Text) : Except Fault (List (Block ν) × Nat) := do
  let state ← (splitLines text).foldlM (parseLine readString) ⟨none, [], 0⟩
  let finished := finishBlock state
  if finished.blocks.isEmpty then
    .error (fail "invalid-program-corpus" "resolved corpus contains no @file blocks")
  else
    .ok (finished.blocks, finished.skipped)

end Parse

/-! ## Definitions and calls -/

/-- The key of a definition: its file and its node. -/
structure Key (ν : Type) where
  file : Text
  node : ν
  deriving DecidableEq

/-- What an anchor marks. -/
inductive AnchorKind where
  | definition | reference
  deriving DecidableEq

/-- (`anchor`) -/
structure Anchor (ν : Type) where
  file : Text
  nodeId : ν
  kind : AnchorKind
  deriving DecidableEq

/-- A definition of a block. -/
structure Definition (ν : Type) where
  key : Key ν
  identity : Text
  name : ν
  module : Text
  anchor : Anchor ν
  rootFacts : List (Triple ν)
  deriving DecidableEq

/-- A call by its name, with the definition that makes it. -/
structure Mention (ν : Type) where
  callerKey : Key ν
  callName : ν
  anchor : Anchor ν
  deriving DecidableEq

/-- (`derive-block`) What is derived from a block. -/
structure Derived (ν : Type) where
  definitions : List (Definition ν)
  mentions : List (Mention ν)
  deriving DecidableEq

/-- The name of a file without its last extension. -/
def withoutExtension (name : Text) : Text :=
  match (name.splitOn '.').reverse with
  | last :: rest :: more => if last.isEmpty then name else ['.'].intercalate (rest :: more).reverse
  | _ => name

/-- (`module-of`) The last name of the path, without its extension. -/
def moduleOf (file : Text) : Text :=
  withoutExtension (((file.splitOn '/').filter (!·.isEmpty)).getLast?.getD [])

section Derive

variable {ν : Type} [DecidableEq ν] (V : Values ν)

/-- (`identity-of`) -/
def identityOf (key : Key ν) : Text := key.file ++ '#' :: V.str key.node

/-- The order of two texts, by their UTF-16 units. -/
def textLE (a b : Text) : Bool := textLe (String.ofList a) (String.ofList b)

/-- (`node-sort-key`) The order of two nodes: integers come before other nodes, which are ordered as they are printed. -/
def nodeLE (a b : ν) : Bool :=
  match V.asInteger a, V.asInteger b with
  | some m, some n => decide (m ≤ n)
  | some _, none => true
  | none, some _ => false
  | none, none => textLE (V.prStr a) (V.prStr b)

/-- (`index-by`) The object of each subject's last fact with a predicate. -/
def indexBy (predicate : Text) (triples : List (Triple ν)) : ν → Option ν :=
  triples.foldl (fun result t => if t.predicate = V.text predicate then Function.update result t.subject (some t.object) else result)
    fun _ => none

/-- The objects of each subject's child facts, in order. -/
def childrenOf (triples : List (Triple ν)) : ν → List ν :=
  triples.foldl (fun result t =>
    if t.predicate = V.text "child".toList then Function.update result t.subject (result t.subject ++ [t.object]) else result) fun _ => []

/-- The nodes that have a kind, in order. -/
def nodesOf (triples : List (Triple ν)) : List ν :=
  (((triples.filter (·.predicate = V.text "form-kind".toList)).map (·.subject)).dedup).insertionSort fun a b => nodeLE V a b

/-- The nodes that have a kind and are no child. The set of children is asked for the node and answers with the node itself, so that a
child which is nil or false counts as a root too. -/
def rootsOf (triples : List (Triple ν)) : List ν :=
  (nodesOf V triples).filter fun node =>
    ¬(node ∈ (triples.filter (·.predicate = V.text "child".toList)).map (·.object) ∧ V.truthy node)

/-- The definition at a node. -/
def definitionAt (block : Block ν) (node : ν) : Definition ν where
  key := ⟨block.file, node⟩
  identity := identityOf V ⟨block.file, node⟩
  name := (indexBy V "name".toList block.triples node).getD V.nil
  module := moduleOf block.file
  anchor := ⟨block.file, node, .definition⟩
  rootFacts := block.triples.filter (·.subject = node)

/-- The nodes of the block's definitions. -/
def isDefn (block : Block ν) (node : ν) : Prop := indexBy V "form-kind".toList block.triples node = some (V.text "defn".toList)

instance (block : Block ν) (node : ν) : Decidable (isDefn V block node) := inferInstanceAs (Decidable (_ = _))

/-- The owner of the nodes below a node. -/
def ownerBelow (block : Block ν) (node : ν) (owner : Option ν) : Option ν := if isDefn V block node then some node else owner

/-- The mention that a node makes, when it is a call and has an owner. An owner that is nil or false is none. -/
def mentionAt (block : Block ν) (node : ν) (owner : Option ν) : List (Mention ν) :=
  match owner, indexBy V "calls".toList block.triples node with
  | some owner, some name =>
    if V.truthy owner ∧ indexBy V "form-kind".toList block.triples node = some (V.text "call".toList) then
      [⟨⟨block.file, owner⟩, name, ⟨block.file, node, .reference⟩⟩]
    else []
  | _, _ => []

/-- The walk of `derive-block`, with a stack whose top is the list's head. It has no end on some blocks; `fuel` bounds its steps. -/
def mentionsLoop (block : Block ν) : Nat → List (ν × Option ν) → List (Mention ν) → Option (List (Mention ν))
  | 0, _, _ => none
  | _ + 1, [], result => some result
  | fuel + 1, (node, owner) :: stack, result =>
    let owner' := ownerBelow V block node owner
    mentionsLoop block fuel ((childrenOf V block.triples node).map (·, owner') ++ stack) (result ++ mentionAt V block node owner')

/-- (`derive-block`) -/
def deriveBlock (fuel : Nat) (block : Block ν) : Option (Derived ν) := do
  let mentions ← mentionsLoop V block fuel ((rootsOf V block.triples).map (·, none)) []
  some ⟨((nodesOf V block.triples).filter fun node => isDefn V block node).map (definitionAt V block), mentions⟩

end Derive

/-! ## References -/

/-- A call that was resolved. -/
structure Reference (ν : Type) where
  callerKey : Key ν
  calleeKey : Key ν
  anchor : Anchor ν
  deriving DecidableEq

/-- (`build-program`) The definitions of a program and its references. -/
structure Program (ν : Type) where
  definitions : List (Definition ν)
  references : List (Reference ν)
  deriving DecidableEq

/-- Which way references are followed. -/
inductive Direction where
  | inbound | outbound
  deriving DecidableEq

section Program

variable {ν : Type} [DecidableEq ν] (V : Values ν)

/-- (`resolve-call`) The only definition of the name in the caller's file, else the only one of all. -/
def resolveCall (definitions : List (Definition ν)) (callerKey : Key ν) (callName : ν) : Option (Key ν) :=
  let candidates := definitions.filter (·.name = callName)
  let locals := candidates.filter (·.key.file = callerKey.file)
  match locals, candidates with
  | [definition], _ => some definition.key
  | _, [definition] => some definition.key
  | _, _ => none

/-- (`build-program`) -/
def buildProgram (fuel : Nat) (blocks : List (Block ν)) : Option (Program ν) := do
  let derived ← blocks.mapM (deriveBlock V fuel)
  let definitions := derived.flatMap (·.definitions)
  some ⟨definitions, (derived.flatMap (·.mentions)).filterMap fun mention =>
    (resolveCall definitions mention.callerKey mention.callName).map (⟨mention.callerKey, ·, mention.anchor⟩)⟩

/-- The last definition with an identity. -/
def Program.definition (program : Program ν) (identity : Text) : Option (Definition ν) :=
  program.definitions.reverse.find? (·.identity = identity)

/-- The last definition with a key. -/
def Program.definitionByKey (program : Program ν) (key : Key ν) : Option (Definition ν) :=
  program.definitions.reverse.find? (·.key = key)

/-- The keys that the references of a definition lead to. -/
def Program.related (program : Program ν) (direction : Direction) (key : Key ν) : List (Key ν) :=
  match direction with
  | .inbound => (program.references.filter (·.calleeKey = key)).map (·.callerKey)
  | .outbound => (program.references.filter (·.callerKey = key)).map (·.calleeKey)

/-- The keys in the order of their identities, each once. -/
def arrange (keys : List (Key ν)) : List (Key ν) :=
  keys.dedup.insertionSort fun a b => textLE (identityOf V a) (identityOf V b)

/-- The loop of `trace-nodes`, whose steps `fuel` bounds. -/
def traceLoop (program : Program ν) (direction : Direction) (maxDepth : Nat) :
    Nat → List (Key ν × Nat) → List (Key ν) → List (Key ν × Nat) → Option (List (Key ν × Nat))
  | 0, _, _, _ => none
  | _ + 1, [], _, result => some result
  | fuel + 1, (node, depth) :: remaining, visited, result =>
    let next := if depth < maxDepth then arrange V ((program.related direction node).filter (· ∉ visited)) else []
    traceLoop program direction maxDepth fuel (remaining ++ next.map (·, depth + 1)) (visited ++ next)
      (result ++ next.map (·, depth + 1))

/-- (`trace-nodes`) -/
def traceNodes (fuel : Nat) (program : Program ν) (seed : Key ν) (direction : Direction) (maxDepth : Nat) :
    Option (List (Key ν × Nat)) :=
  traceLoop V program direction maxDepth fuel [(seed, 0)] [seed] []

end Program

/-! ## Context packets -/

/-- A program that is read at a version (`read-snapshot!`). The kind of the version is the same for all. -/
structure Snapshot (ν : Type) where
  logicalVersion : Text
  program : Program ν
  deriving DecidableEq

/-- The kind of a snapshot's version. -/
def versionKind : Text := "corpus-sha256".toList

/-- A value among the arguments of a request. -/
inductive Argument where
  | text (text : Text)
  | integer (n : Int)
  | other
  deriving DecidableEq

/-- (`Character/isWhitespace`) -/
def isWhitespace (c : Char) : Bool :=
  let n := c.toNat
  (0x9 ≤ n ∧ n ≤ 0xd) ∨ (0x1c ≤ n ∧ n ≤ 0x20) ∨ n = 0x1680 ∨ (0x2000 ≤ n ∧ n ≤ 0x2006) ∨ (0x2008 ≤ n ∧ n ≤ 0x200a) ∨
    n = 0x2028 ∨ n = 0x2029 ∨ n = 0x205f ∨ n = 0x3000

/-- (`exact-map!`) The arguments are a map from the names of fields. -/
def exactMap (arguments : List (String × Argument)) (allowed required : List String) (label : String) : Except Fault Unit :=
  if required.all (· ∈ arguments.map (·.1)) ∧ arguments.all (·.1 ∈ allowed) then .ok ()
  else .error (fail "invalid-tool-arguments" (label ++ " arguments have unknown or missing fields"))

/-- (`identity!`) -/
def identityArgument (arguments : List (String × Argument)) : Except Fault Text :=
  match arguments.lookup "semanticIdentity" with
  | some (.text identity) =>
    if identity.all isWhitespace then
      .error (fail "invalid-semantic-identity" "semanticIdentity must be a nonblank exact corpus identity")
    else .ok identity
  | _ => .error (fail "invalid-semantic-identity" "semanticIdentity must be a nonblank exact corpus identity")

def contextDefaultTokenBudget : Int := 1200
def contextMinTokenBudget : Int := 512
def contextMaxTokenBudget : Int := 8192
def contextHubDegree : Nat := 16
def contextHubNeighborLimit : Nat := 8
def contextImpactLimit : Nat := 8

/-- The identity and the budget that the arguments of `program-context` name. -/
def contextArguments (arguments : List (String × Argument)) : Except Fault (Text × Int) := do
  exactMap arguments ["semanticIdentity", "tokenBudget"] ["semanticIdentity"] "program_context"
  let identity ← identityArgument arguments
  match (arguments.lookup "tokenBudget").getD (.integer contextDefaultTokenBudget) with
  | .integer tokenBudget =>
    if contextMinTokenBudget ≤ tokenBudget ∧ tokenBudget ≤ contextMaxTokenBudget then .ok (identity, tokenBudget)
    else .error (fail "invalid-token-budget" "tokenBudget must be an integer from 512 through 8192")
  | _ => .error (fail "invalid-token-budget" "tokenBudget must be an integer from 512 through 8192")

/-- The text of a direction. -/
def Direction.text : Direction → Text
  | .inbound => "inbound".toList
  | .outbound => "outbound".toList

/-- The text of an anchor's kind. -/
def AnchorKind.text : AnchorKind → Text
  | .definition => "definition".toList
  | .reference => "reference".toList

/-- (`reference-view`) A reference of a definition, as one direction shows it. -/
structure ReferenceView (ν : Type) where
  semanticIdentity : Option Text
  referenceOf : Text
  ownerIdentity : Text
  relation : Text
  sourceAnchor : Anchor ν
  direction : Direction
  depth : Nat

/-- (`context-neighbor`) What a packet shows of a reference. -/
structure Neighbor (ν : Type) where
  semanticIdentity : Option Text
  relation : Text
  sourceAnchor : Anchor ν
  depth : Nat
  deriving DecidableEq

/-- (`context-neighbors`) -/
structure Neighbors (ν : Type) where
  degree : Nat
  neighbors : List (Neighbor ν)
  suppressed : Bool
  deriving DecidableEq

/-- A definition that a trace reached. -/
structure Affected (ν : Type) where
  semanticIdentity : Option Text
  sourceAnchor : Option (Anchor ν)
  depth : Nat
  deriving DecidableEq

/-- (`context-impact`) -/
structure Impact (ν : Type) where
  count : Nat
  affectedIdentities : List (Affected ν)
  suppressed : Bool
  deriving DecidableEq

/-- (`context-packet`) A context packet; the anchor stands in its query seed and beside its body. -/
structure ContextPacket (ν : Type) where
  logicalVersion : Text
  versionKind : Text
  semanticIdentity : Text
  sourceAnchor : Anchor ν
  name : ν
  module : Text
  bodySlice : List (Triple ν)
  callers : Neighbors ν
  callees : Neighbors ν
  inbound : Impact ν
  outbound : Impact ν
  tokenBudget : Int
  truncated : Bool
  deriving DecidableEq

/-- What `program-context` returns. -/
inductive ContextResult (ν : Type) where
  | packet (packet : ContextPacket ν)
  | notFound (logicalVersion identity : Text)
  deriving DecidableEq

/-- The advice that stands in a packet marked truncated. -/
def narrowingAdvice : Text :=
  "Use read_definition, find_references, or trace_impact with one direction to narrow this context.".toList

section Print

/-- A character as it is printed in a text. -/
def escaped (c : Char) : Text :=
  if c = '\n' then ['\\', 'n']
  else if c = '\t' then ['\\', 't']
  else if c = '\r' then ['\\', 'r']
  else if c = '"' then ['\\', '"']
  else if c = '\\' then ['\\', '\\']
  else if c = '\x0c' then ['\\', 'f']
  else if c = '\x08' then ['\\', 'b']
  else [c]

/-- (`pr-str` of a text) -/
def prText (text : Text) : Text := '"' :: text.flatMap escaped ++ ['"']

/-- (`pr-str` of a natural number) -/
def prNumber (n : Nat) : Text := Nat.toDigits 10 n

/-- (`pr-str` of a truth value) -/
def prBool (b : Bool) : Text := if b then "true".toList else "false".toList

/-- (`pr-str` of a value that may be nil) -/
def prOptional {α : Type} (pr : α → Text) : Option α → Text
  | some value => pr value
  | none => "nil".toList

/-- (`pr-str` of a vector) -/
def prVector (items : List Text) : Text := '[' :: [' '].intercalate items ++ [']']

/-- (`pr-str` of a map whose keys are keywords) The entries are in the order in which they were put in. The host keeps that order in maps
of up to eight entries; it prints the entries of a larger map in another order, and with as many units. -/
def prMap (entries : List (String × Text)) : Text :=
  '\x7b' :: ", ".toList.intercalate (entries.map fun entry => ':' :: entry.1.toList ++ ' ' :: entry.2) ++ ['\x7d']

variable {ν : Type} (V : Values ν)

def prTriple (t : Triple ν) : Text := prVector [V.prStr t.subject, V.prStr t.predicate, V.prStr t.object]

def prAnchor (anchor : Anchor ν) : Text :=
  prMap [("file", prText anchor.file), ("nodeId", V.prStr anchor.nodeId), ("kind", prText anchor.kind.text)]

def prNeighbor (neighbor : Neighbor ν) : Text :=
  prMap [("semanticIdentity", prOptional prText neighbor.semanticIdentity), ("relation", prText neighbor.relation),
    ("sourceAnchors", prVector [prAnchor V neighbor.sourceAnchor]), ("depth", prNumber neighbor.depth)]

def prNeighbors (neighbors : Neighbors ν) : Text :=
  prMap [("degree", prNumber neighbors.degree), ("neighbors", prVector (neighbors.neighbors.map (prNeighbor V))),
    ("suppressed", prBool neighbors.suppressed)]

def prAffected (affected : Affected ν) : Text :=
  prMap [("semanticIdentity", prOptional prText affected.semanticIdentity),
    ("sourceAnchors", prVector [prOptional (prAnchor V) affected.sourceAnchor]), ("depth", prNumber affected.depth)]

def prImpact (impact : Impact ν) : Text :=
  prMap [("count", prNumber impact.count), ("affectedIdentities", prVector (impact.affectedIdentities.map (prAffected V))),
    ("suppressed", prBool impact.suppressed)]

/-- (`pr-str` of a packet) -/
def prPacket (packet : ContextPacket ν) : Text :=
  prMap ([("tool", prText "program_context".toList), ("outcome", prText "ok".toList),
    ("logicalVersion", prText packet.logicalVersion), ("versionKind", prText packet.versionKind),
    ("semanticIdentity", prText packet.semanticIdentity),
    ("querySeed", prMap [("semanticIdentity", prText packet.semanticIdentity),
      ("sourceAnchors", prVector [prAnchor V packet.sourceAnchor])]),
    ("definition", prMap [("signature", prMap [("name", V.prStr packet.name), ("module", prText packet.module)]),
      ("bodySlice", prVector (packet.bodySlice.map (prTriple V))), ("sourceAnchors", prVector [prAnchor V packet.sourceAnchor])]),
    ("relationships", prMap [("callers", prNeighbors V packet.callers), ("callees", prNeighbors V packet.callees)]),
    ("impactSummary", prMap [("inbound", prImpact V packet.inbound), ("outbound", prImpact V packet.outbound)]),
    ("tokenBudget", prNumber packet.tokenBudget.toNat)] ++
    if packet.truncated then [("truncated", prBool true), ("narrowingAdvice", prText narrowingAdvice)] else [])

/-- (`count` of a text) Its UTF-16 units. -/
def textUnits (text : Text) : Nat := (text.flatMap Datalog.utf16Units).length

/-- (`response-tokens`) A quarter of the printed units, rounded up. -/
def responseTokens (packet : ContextPacket ν) : Nat := (textUnits (prPacket V packet) + 3) / 4

end Print

section Context

variable {ν : Type} [DecidableEq ν] (V : Values ν)

/-- A comparison that goes on to the next one where both are equal. -/
def thenLE (le ge next : Bool) : Bool := le && (!ge || next)

/-- The order of two texts, of which one that is missing comes first. -/
def optionalLE : Option Text → Option Text → Bool
  | none, _ => true
  | some _, none => false
  | some a, some b => textLE a b

/-- (`reference-sort-key`) The order of two references as they are shown. -/
def referenceLE (a b : ReferenceView ν) : Bool :=
  thenLE (textLE a.sourceAnchor.file b.sourceAnchor.file) (textLE b.sourceAnchor.file a.sourceAnchor.file)
    (thenLE (nodeLE V a.sourceAnchor.nodeId b.sourceAnchor.nodeId) (nodeLE V b.sourceAnchor.nodeId a.sourceAnchor.nodeId)
      (thenLE (textLE a.direction.text b.direction.text) (textLE b.direction.text a.direction.text)
        (optionalLE a.semanticIdentity b.semanticIdentity)))

/-- (`reference-view`) -/
def referenceView (program : Program ν) (seed : Text) (direction : Direction) (reference : Reference ν) : ReferenceView ν where
  semanticIdentity := (program.definitionByKey (match direction with
    | .inbound => reference.callerKey
    | .outbound => reference.calleeKey)).map (·.identity)
  referenceOf := seed
  ownerIdentity := identityOf V reference.callerKey
  relation := "calls".toList
  sourceAnchor := reference.anchor
  direction := direction
  depth := 1

/-- (`references-for`, in one direction) -/
def referencesFor (program : Program ν) (identity : Text) (direction : Direction) : List (ReferenceView ν) :=
  match program.definition identity with
  | none => []
  | some definition =>
    ((program.references.filter fun reference => (match direction with
        | .inbound => reference.calleeKey
        | .outbound => reference.callerKey) = definition.key).map (referenceView V program identity direction)).insertionSort
      fun a b => referenceLE V a b

/-- (`context-neighbor`) -/
def contextNeighbor (reference : ReferenceView ν) : Neighbor ν where
  semanticIdentity := reference.semanticIdentity
  relation := reference.relation
  sourceAnchor := reference.sourceAnchor
  depth := reference.depth

/-- (`context-neighbors`) -/
def contextNeighbors (references : List (ReferenceView ν)) (requestedLimit : Nat) : Neighbors ν :=
  let degree := references.length
  let limit := min (min degree requestedLimit) (if contextHubDegree < degree then contextHubNeighborLimit else degree)
  ⟨degree, (references.take limit).map contextNeighbor, decide (limit < degree)⟩

/-- (`context-impact`) -/
def contextImpact (fuel : Nat) (program : Program ν) (definition : Definition ν) (direction : Direction) (requestedLimit : Nat) :
    Option (Impact ν) := do
  let traced ← traceNodes V fuel program definition.key direction 64
  let total := traced.length
  let limit := min contextImpactLimit requestedLimit
  some ⟨total, (traced.take limit).map fun entry =>
    let target := program.definitionByKey entry.1
    ⟨target.map (·.identity), target.map (·.anchor), entry.2⟩, decide (limit < total)⟩

/-- (`context-packet`) -/
def contextPacket (fuel : Nat) (snapshot : Snapshot ν) (definition : Definition ν) (tokenBudget : Int)
    (neighborLimit impactLimit : Nat) (bodySlice : List (Triple ν)) : Option (ContextPacket ν) := do
  let inbound ← contextImpact V fuel snapshot.program definition .inbound impactLimit
  let outbound ← contextImpact V fuel snapshot.program definition .outbound impactLimit
  some {
    logicalVersion := snapshot.logicalVersion
    versionKind := versionKind
    semanticIdentity := definition.identity
    sourceAnchor := definition.anchor
    name := definition.name
    module := definition.module
    bodySlice := bodySlice
    callers := contextNeighbors (referencesFor V snapshot.program definition.identity .inbound) neighborLimit
    callees := contextNeighbors (referencesFor V snapshot.program definition.identity .outbound) neighborLimit
    inbound := inbound
    outbound := outbound
    tokenBudget := tokenBudget
    truncated := false }

/-- (`program-context`) The full packet when it is within the budget, else a narrower one, which is marked. -/
def programContext (fuel : Nat) (snapshot : Snapshot ν) (arguments : List (String × Argument)) :
    Option (Except Fault (ContextResult ν)) :=
  match contextArguments arguments with
  | .error fault => some (.error fault)
  | .ok (identity, tokenBudget) =>
    match snapshot.program.definition identity with
    | none => some (.ok (.notFound snapshot.logicalVersion identity))
    | some definition => do
      let full ← contextPacket V fuel snapshot definition tokenBudget contextHubNeighborLimit contextImpactLimit definition.rootFacts
      if (responseTokens V full : Int) ≤ tokenBudget then some (.ok (.packet full))
      else
        let narrow ← contextPacket V fuel snapshot definition tokenBudget 1 1
          (definition.rootFacts.filter (·.predicate = V.text "body".toList))
        some (.ok (.packet { narrow with truncated := true }))

end Context

end ProgramInspection

end Fram
