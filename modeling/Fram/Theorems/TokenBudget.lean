import Fram.Lemmas.ProgramInspection

/-!
# What a context packet measures

The printed units of a packet are a sum over what it is made of: fixed texts, the version, the identity, the anchors, the name and the
module, the facts that it shows, and up to a limit of its neighbors and of what its references reach. None of these has a bound, and
nothing looks at the narrower packet again.
-/

namespace Fram

namespace ProgramInspection

open Lines (Text)

variable {ν : Type}
variable {limit fuel : Nat}

/-! ## Units of printed texts -/

@[simp] theorem textUnits_append (a b : Text) : textUnits (a ++ b) = textUnits a + textUnits b := by
  simp [textUnits]

theorem textUnits_cons (c : Char) (text : Text) : textUnits (c :: text) = textUnits [c] + textUnits text :=
  textUnits_append [c] text

/-- The units of texts with a mark between them. -/
theorem textUnits_intercalate (mark : Text) (items : List Text) :
    textUnits (mark.intercalate items) = (items.map textUnits).sum + textUnits mark * (items.length - 1) := by
  induction items with
  | nil => rfl
  | cons item items ih =>
    cases items with
    | nil => simp [List.intercalate]
    | cons next items =>
      rw [List.intercalate_cons_cons, textUnits_append, textUnits_append, ih]
      simp only [List.map_cons, List.sum_cons, List.length_cons, Nat.add_sub_cancel]
      ring

/-- The units of a vector. -/
def listSize (sizes : List Nat) : Nat := 2 + sizes.sum + (sizes.length - 1)

@[simp] theorem textUnits_prVector (items : List Text) : textUnits (prVector items) = listSize (items.map textUnits) := by
  have hmarks : textUnits ['['] = 1 ∧ textUnits [']'] = 1 ∧ textUnits [' '] = 1 := by decide
  rw [prVector, textUnits_append, textUnits_cons, textUnits_intercalate, listSize, List.length_map, hmarks.1, hmarks.2.1, hmarks.2.2]
  omega

@[simp] theorem textUnits_prMap (entries : List (String × Text)) :
    textUnits (prMap entries) = 2 + (entries.map fun entry => 2 + textUnits entry.1.toList + textUnits entry.2).sum +
      2 * (entries.length - 1) := by
  have hmarks : textUnits ['\x7b'] = 1 ∧ textUnits ['\x7d'] = 1 ∧ textUnits [':'] = 1 ∧ textUnits [' '] = 1 ∧ textUnits ", ".toList = 2 := by
    decide
  obtain ⟨hopen, hclose, hkey, hvalue, hcomma⟩ := hmarks
  have hentry : ∀ entry : String × Text, textUnits (':' :: entry.1.toList ++ ' ' :: entry.2) =
      2 + textUnits entry.1.toList + textUnits entry.2 := by
    intro entry
    rw [textUnits_append, textUnits_cons ':', textUnits_cons ' ', hkey, hvalue]
    omega
  rw [prMap, textUnits_append, textUnits_cons, textUnits_intercalate, List.map_map, List.length_map, hopen, hclose, hcomma]
  simp only [Function.comp_def, hentry]
  omega

theorem textUnits_prBool (b : Bool) : textUnits (prBool b) = if b then 4 else 5 := by
  cases b <;> decide

/-- The units of a text that may be missing, as it is printed. -/
def optionalSize (identity : Option Text) : Nat := textUnits (prOptional prText identity)

variable (V : Values ν)

/-- The units of a fact. -/
def factSize (t : Triple ν) : Nat :=
  4 + textUnits (V.prStr t.subject) + textUnits (V.prStr t.predicate) + textUnits (V.prStr t.object)

@[simp] theorem textUnits_prTriple (t : Triple ν) : textUnits (prTriple V t) = factSize V t := by
  simp only [prTriple, textUnits_prVector, List.map_cons, List.map_nil, listSize, List.sum_cons, List.sum_nil, List.length_cons,
    List.length_nil, factSize]
  omega

/-- The units of an anchor. -/
def anchorSize (anchor : Anchor ν) : Nat :=
  26 + textUnits (prText anchor.file) + textUnits (V.prStr anchor.nodeId) + textUnits (prText anchor.kind.text)

@[simp] theorem textUnits_prAnchor (anchor : Anchor ν) : textUnits (prAnchor V anchor) = anchorSize V anchor := by
  have hkeys : textUnits "file".toList = 4 ∧ textUnits "nodeId".toList = 6 ∧ textUnits "kind".toList = 4 := by decide
  obtain ⟨hfile, hnode, hkind⟩ := hkeys
  simp only [prAnchor, textUnits_prMap, List.map_cons, List.map_nil, List.sum_cons, List.sum_nil, List.length_cons, List.length_nil,
    hfile, hnode, hkind, anchorSize]
  omega

/-- The units of a reference that is shown as a neighbor. -/
def neighborSize (reference : ReferenceView ν) : Nat := 68 + optionalSize reference.semanticIdentity + anchorSize V reference.sourceAnchor

/-- The units of the references of a definition in one direction, up to a limit. -/
def neighborsSize (references : List (ReferenceView ν)) (limit : Nat) : Nat :=
  37 + textUnits (prNumber references.length) + listSize ((references.take limit).map (neighborSize V)) +
    if limit < references.length then 4 else 5

/-- The units of what a trace reached, as it is shown. -/
def affectedSize [DecidableEq ν] (program : Program ν) (entry : Key ν × Nat) : Nat :=
  48 + optionalSize ((program.definitionByKey entry.1).map (·.identity)) +
    ((program.definitionByKey entry.1).map fun target => anchorSize V target.anchor).getD 3 + textUnits (prNumber entry.2)

/-- The units of what a trace reached, up to a limit. -/
def impactSize [DecidableEq ν] (program : Program ν) (traced : List (Key ν × Nat)) (limit : Nat) : Nat :=
  45 + textUnits (prNumber traced.length) + listSize ((traced.take limit).map (affectedSize V program)) +
    if limit < traced.length then 4 else 5

/-- The units of a packet with some facts, and up to a limit of the definition's neighbors and of what it reaches. -/
def contextSize [DecidableEq ν] (snapshot : Snapshot ν) (definition : Definition ν) (tokenBudget : Int) (limit : Nat)
    (bodySlice : List (Triple ν)) : Nat :=
  331 + textUnits (prText snapshot.logicalVersion) + 2 * textUnits (prText definition.identity) + 2 * anchorSize V definition.anchor +
    textUnits (V.prStr definition.name) + textUnits (prText definition.module) + listSize (bodySlice.map (factSize V)) +
    neighborsSize V (referencesFor V snapshot.program definition.identity .inbound) limit +
    neighborsSize V (referencesFor V snapshot.program definition.identity .outbound) limit +
    impactSize V snapshot.program (reached V snapshot.program .inbound definition.key) limit +
    impactSize V snapshot.program (reached V snapshot.program .outbound definition.key) limit + textUnits (prNumber tokenBudget.toNat)

/-- The facts of a definition's body. -/
def bodyFacts [DecidableEq ν] (definition : Definition ν) : List (Triple ν) :=
  definition.rootFacts.filter (·.predicate = V.text "body".toList)

/-- The whole context of a definition is within a budget, or the context with its body's facts, a neighbor and a reached definition in each
direction and the advice is. -/
def Narrowable [DecidableEq ν] (snapshot : Snapshot ν) (definition : Definition ν) (tokenBudget : Int) : Prop :=
  (contextSize V snapshot definition tokenBudget 8 definition.rootFacts : Int) ≤ 4 * tokenBudget ∨
    (contextSize V snapshot definition tokenBudget 1 (bodyFacts V definition) + 134 : Int) ≤ 4 * tokenBudget

/-- A packet is within its budget, and complete unless it is marked. -/
def Bounded (definition : Definition ν) (tokenBudget : Int) (packet : ContextPacket ν) : Prop :=
  (responseTokens V packet : Int) ≤ tokenBudget ∧ (packet.truncated = false → packet.bodySlice = definition.rootFacts)

/-! ## The units of a packet -/

theorem textUnits_prNeighbor {reference : ReferenceView ν} (hrelation : reference.relation = "calls".toList) (hdepth : reference.depth = 1) :
    textUnits (prNeighbor V (contextNeighbor reference)) = neighborSize V reference := by
  have hkeys : textUnits "semanticIdentity".toList = 16 ∧ textUnits "relation".toList = 8 ∧ textUnits "sourceAnchors".toList = 13 ∧
      textUnits "depth".toList = 5 ∧ textUnits (prText "calls".toList) = 7 ∧ textUnits (prNumber 1) = 1 := by decide
  obtain ⟨hidentity, hrelationKey, hanchors, hdepthKey, hcalls, hone⟩ := hkeys
  simp only [prNeighbor, contextNeighbor, hrelation, hdepth, textUnits_prMap, textUnits_prVector, textUnits_prAnchor, listSize,
    List.map_cons, List.map_nil, List.sum_cons, List.sum_nil, List.length_cons, List.length_nil, hidentity, hrelationKey, hanchors,
    hdepthKey, hcalls, hone, neighborSize, optionalSize]
  omega

/-- Within the limit of a hub the number of shown neighbors is the requested one. -/
theorem contextNeighbors_eq (references : List (ReferenceView ν)) (h : limit ≤ 8) : contextNeighbors references limit =
      ⟨references.length, (references.take limit).map contextNeighbor, decide (limit < references.length)⟩ := by
  unfold contextNeighbors contextHubDegree contextHubNeighborLimit
  dsimp only
  split
  · rename_i hhub
    rw [Nat.min_eq_right (by omega : limit ≤ references.length), Nat.min_eq_left h]
  · rcases Nat.lt_or_ge limit references.length with hlt | hge
    · rw [Nat.min_eq_right hlt.le, Nat.min_eq_left hlt.le]
    · rw [Nat.min_eq_left hge, Nat.min_self, List.take_length, List.take_of_length_le hge]
      simp [hge]

section Packet

variable [DecidableEq ν]

theorem of_mem_referencesFor {program : Program ν} {identity : Text} {direction : Direction} {reference : ReferenceView ν}
    (h : reference ∈ referencesFor V program identity direction) : reference.relation = "calls".toList ∧ reference.depth = 1 := by
  unfold referencesFor at h
  split at h
  · cases h
  · rw [List.mem_insertionSort] at h
    obtain ⟨r, -, rfl⟩ := List.mem_map.1 h
    exact ⟨rfl, rfl⟩

theorem textUnits_prNeighbors (program : Program ν) (identity : Text) (direction : Direction) (h : limit ≤ 8) :
    textUnits (prNeighbors V (contextNeighbors (referencesFor V program identity direction) limit)) =
      neighborsSize V (referencesFor V program identity direction) limit := by
  have hkeys : textUnits "degree".toList = 6 ∧ textUnits "neighbors".toList = 9 ∧ textUnits "suppressed".toList = 10 := by decide
  obtain ⟨hdegree, hneighbors, hsuppressed⟩ := hkeys
  have hshown : ((((referencesFor V program identity direction).take limit).map contextNeighbor).map (prNeighbor V)).map textUnits =
      ((referencesFor V program identity direction).take limit).map (neighborSize V) := by
    rw [List.map_map, List.map_map]
    refine List.map_congr_left fun reference hr => ?_
    obtain ⟨hrelation, hdepth⟩ := of_mem_referencesFor V (List.mem_of_mem_take hr)
    exact textUnits_prNeighbor V hrelation hdepth
  rw [contextNeighbors_eq _ h]
  simp only [prNeighbors, textUnits_prMap, textUnits_prVector, hshown, List.map_cons, List.map_nil, List.sum_cons, List.sum_nil,
    List.length_cons, List.length_nil, hdegree, hneighbors, hsuppressed, textUnits_prBool, decide_eq_true_eq, neighborsSize]
  omega

theorem textUnits_prAffected (program : Program ν) (entry : Key ν × Nat) :
    textUnits (prAffected V ⟨(program.definitionByKey entry.1).map (·.identity), (program.definitionByKey entry.1).map (·.anchor), entry.2⟩) =
      affectedSize V program entry := by
  have hkeys : textUnits "semanticIdentity".toList = 16 ∧ textUnits "sourceAnchors".toList = 13 ∧ textUnits "depth".toList = 5 ∧
      textUnits "nil".toList = 3 := by decide
  obtain ⟨hidentity, hanchors, hdepth, hnil⟩ := hkeys
  have hanchor : textUnits (prOptional (prAnchor V) ((program.definitionByKey entry.1).map (·.anchor))) =
      ((program.definitionByKey entry.1).map fun target => anchorSize V target.anchor).getD 3 := by
    cases program.definitionByKey entry.1 with
    | none => exact hnil
    | some target => exact textUnits_prAnchor V target.anchor
  simp only [prAffected, textUnits_prMap, textUnits_prVector, listSize, List.map_cons, List.map_nil, List.sum_cons, List.sum_nil,
    List.length_cons, List.length_nil, hidentity, hanchors, hdepth, hanchor, affectedSize, optionalSize]
  omega

/-- What a packet shows of what a trace reached. -/
def shownImpact (program : Program ν) (traced : List (Key ν × Nat)) (limit : Nat) : Impact ν :=
  ⟨traced.length, (traced.take limit).map fun entry =>
    ⟨(program.definitionByKey entry.1).map (·.identity), (program.definitionByKey entry.1).map (·.anchor), entry.2⟩,
    decide (limit < traced.length)⟩

theorem contextImpact_eq (program : Program ν) (definition : Definition ν) (direction : Direction)
    (hfuel : (keysOf program).length + 2 ≤ fuel) (h : limit ≤ 8) : contextImpact V fuel program definition direction limit =
      some (shownImpact program (reached V program direction definition.key) limit) := by
  unfold contextImpact contextImpactLimit
  rw [traceNodes_eq_reached program direction definition.key hfuel, Nat.min_eq_right h]
  rfl

theorem textUnits_prImpact (program : Program ν) (traced : List (Key ν × Nat)) (limit : Nat) :
    textUnits (prImpact V (shownImpact program traced limit)) = impactSize V program traced limit := by
  have hkeys : textUnits "count".toList = 5 ∧ textUnits "affectedIdentities".toList = 18 ∧ textUnits "suppressed".toList = 10 := by decide
  obtain ⟨hcount, haffected, hsuppressed⟩ := hkeys
  have hshown : (((shownImpact program traced limit).affectedIdentities).map (prAffected V)).map textUnits =
      (traced.take limit).map (affectedSize V program) := by
    rw [shownImpact, List.map_map, List.map_map]
    exact List.map_congr_left fun entry _ => textUnits_prAffected V program entry
  simp only [prImpact, textUnits_prMap, textUnits_prVector, hshown, List.map_cons, List.map_nil, List.sum_cons, List.sum_nil,
    List.length_cons, List.length_nil, hcount, haffected, hsuppressed, textUnits_prBool, impactSize]
  simp only [shownImpact, decide_eq_true_eq]
  omega

/-- The packet with some facts, and up to a limit of the definition's neighbors and of what it reaches. -/
def shownPacket (snapshot : Snapshot ν) (definition : Definition ν) (tokenBudget : Int) (limit : Nat) (bodySlice : List (Triple ν))
    (truncated : Bool) : ContextPacket ν where
  logicalVersion := snapshot.logicalVersion
  versionKind := versionKind
  semanticIdentity := definition.identity
  sourceAnchor := definition.anchor
  name := definition.name
  module := definition.module
  bodySlice := bodySlice
  callers := contextNeighbors (referencesFor V snapshot.program definition.identity .inbound) limit
  callees := contextNeighbors (referencesFor V snapshot.program definition.identity .outbound) limit
  inbound := shownImpact snapshot.program (reached V snapshot.program .inbound definition.key) limit
  outbound := shownImpact snapshot.program (reached V snapshot.program .outbound definition.key) limit
  tokenBudget := tokenBudget
  truncated := truncated

theorem contextPacket_eq (snapshot : Snapshot ν) (definition : Definition ν) (tokenBudget : Int)
    (bodySlice : List (Triple ν)) (hfuel : (keysOf snapshot.program).length + 2 ≤ fuel) (h : limit ≤ 8) :
    contextPacket V fuel snapshot definition tokenBudget limit limit bodySlice =
      some (shownPacket V snapshot definition tokenBudget limit bodySlice false) := by
  unfold contextPacket
  rw [contextImpact_eq V snapshot.program definition .inbound hfuel h, contextImpact_eq V snapshot.program definition .outbound hfuel h]
  rfl

/-- The characters of a text that is spelled out. -/
theorem toList_eq_of_ofList {s : String} {l : List Char} (h : s = String.ofList l) : s.toList = l := by
  rw [h, String.toList_ofList]

theorem textUnits_narrowingAdvice : textUnits (prText narrowingAdvice) = 98 := by
  have hchars := @toList_eq_of_ofList
    "Use read_definition, find_references, or trace_impact with one direction to narrow this context." _ rfl
  unfold narrowingAdvice
  simp only [hchars]
  decide

theorem textUnits_prPacket (snapshot : Snapshot ν) (definition : Definition ν) (tokenBudget : Int)
    (bodySlice : List (Triple ν)) (truncated : Bool) (h : limit ≤ 8) :
    textUnits (prPacket V (shownPacket V snapshot definition tokenBudget limit bodySlice truncated)) =
      contextSize V snapshot definition tokenBudget limit bodySlice + if truncated then 134 else 0 := by
  have hkeys : textUnits "tool".toList = 4 ∧ textUnits "outcome".toList = 7 ∧ textUnits "logicalVersion".toList = 14 ∧
      textUnits "versionKind".toList = 11 ∧ textUnits "semanticIdentity".toList = 16 ∧ textUnits "querySeed".toList = 9 ∧
      textUnits "sourceAnchors".toList = 13 ∧ textUnits "definition".toList = 10 ∧ textUnits "signature".toList = 9 ∧
      textUnits "name".toList = 4 ∧ textUnits "module".toList = 6 ∧ textUnits "bodySlice".toList = 9 := by decide
  have hkeys' : textUnits "relationships".toList = 13 ∧ textUnits "callers".toList = 7 ∧ textUnits "callees".toList = 7 ∧
      textUnits "impactSummary".toList = 13 ∧ textUnits "inbound".toList = 7 ∧ textUnits "outbound".toList = 8 ∧
      textUnits "tokenBudget".toList = 11 ∧ textUnits "truncated".toList = 9 ∧ textUnits "narrowingAdvice".toList = 15 := by decide
  have htexts : textUnits (prText "program_context".toList) = 17 ∧ textUnits (prText "ok".toList) = 4 ∧
      textUnits (prText versionKind) = 15 := by decide
  have hadviceText := textUnits_narrowingAdvice
  obtain ⟨htool, houtcome, hversion, hkind, hidentity, hseed, hanchors, hdefinition, hsignature, hname, hmodule, hslice⟩ := hkeys
  obtain ⟨hrelationships, hcallers, hcallees, himpact, hinbound, houtbound, hbudget, htruncated, hadvice⟩ := hkeys'
  obtain ⟨htoolText, hok, hkindText⟩ := htexts
  have hfacts : (bodySlice.map (prTriple V)).map textUnits = bodySlice.map (factSize V) := by
    rw [List.map_map]
    exact List.map_congr_left fun t _ => textUnits_prTriple V t
  cases truncated <;>
    simp only [prPacket, shownPacket, textUnits_prMap, textUnits_prVector, textUnits_prAnchor, textUnits_prNeighbors V _ _ _ h,
      textUnits_prImpact, hfacts, List.map_cons, List.map_nil, List.map_append, List.sum_append, List.sum_cons, List.sum_nil,
      List.length_append, List.length_cons, List.length_nil, htool, houtcome, hversion, hkind, hidentity, hseed, hanchors, hdefinition,
      hsignature, hname, hmodule, hslice, hrelationships, hcallers, hcallees, himpact, hinbound, houtbound, hbudget, htruncated,
      hadvice, htoolText, hok, hkindText, hadviceText, textUnits_prBool, contextSize, if_true, if_false, Bool.false_eq_true, listSize]
  · omega
  · omega

/-- The packet that `program-context` returns: the whole one when it is within the budget, else the narrower one. -/
theorem programContext_eq {snapshot : Snapshot ν} {arguments : List (String × Argument)} {identity : Text} {tokenBudget : Int}
    {definition : Definition ν} (harguments : contextArguments arguments = .ok (identity, tokenBudget))
    (hdefinition : snapshot.program.definition identity = some definition) (hfuel : (keysOf snapshot.program).length + 2 ≤ fuel) :
    programContext V fuel snapshot arguments = some (.ok (.packet
      (if (responseTokens V (shownPacket V snapshot definition tokenBudget 8 definition.rootFacts false) : Int) ≤ tokenBudget then
        shownPacket V snapshot definition tokenBudget 8 definition.rootFacts false
      else shownPacket V snapshot definition tokenBudget 1 (bodyFacts V definition) true))) := by
  unfold programContext contextHubNeighborLimit contextImpactLimit
  rw [harguments]
  dsimp only
  rw [hdefinition]
  dsimp only
  rw [contextPacket_eq V snapshot definition tokenBudget definition.rootFacts hfuel (le_refl 8), Option.bind_eq_bind, Option.bind_some]
  split
  · rfl
  · rw [contextPacket_eq V snapshot definition tokenBudget _ hfuel (by decide : 1 ≤ 8)]
    rfl

end Packet

/-- **Token budgets.** For every snapshot, every definition in it and every accepted budget `program-context` returns a packet, and it is
within the budget, and complete unless it is marked truncated, exactly when the definition's whole context or its narrower one has so few
printed units. -/
theorem context_budget {ν : Type} [DecidableEq ν] (V : Values ν) (snapshot : Snapshot ν) (arguments : List (String × Argument))
    (identity : Text) (tokenBudget : Int) (definition : Definition ν) (harguments : contextArguments arguments = .ok (identity, tokenBudget))
    (hdefinition : snapshot.program.definition identity = some definition) :
    ∃ n packet, (∀ fuel, n ≤ fuel → programContext V fuel snapshot arguments = some (.ok (.packet packet))) ∧
      (Bounded V definition tokenBudget packet ↔ Narrowable V snapshot definition tokenBudget) := by
  have hfull := textUnits_prPacket V snapshot definition tokenBudget definition.rootFacts false (le_refl 8)
  have hnarrow := textUnits_prPacket V snapshot definition tokenBudget (bodyFacts V definition) true (by decide : 1 ≤ 8)
  rw [if_neg Bool.false_ne_true, Nat.add_zero] at hfull
  rw [if_pos rfl] at hnarrow
  refine ⟨(keysOf snapshot.program).length + 2, _, fun fuel hfuel => programContext_eq V harguments hdefinition hfuel, ?_⟩
  unfold Bounded Narrowable
  split
  · rename_i hfits
    refine ⟨fun _ => .inl ?_, fun _ => ⟨hfits, fun _ => rfl⟩⟩
    rw [responseTokens, hfull] at hfits
    omega
  · rename_i hfits
    rw [responseTokens, hfull] at hfits
    rw [responseTokens, hnarrow]
    constructor
    · intro hbounded
      exact .inr (by have := hbounded.1; omega)
    · intro hsize
      refine ⟨?_, fun hmark => nomatch (show true = false from hmark)⟩
      rcases hsize with hwide | hsmall
      · omega
      · omega

/-- A definition with a number of expressions in its body. -/
def bodyBlock (count : Nat) : Block Value where
  file := "src/a.bclj".toList
  triples := [kindFact 1 "defn", ⟨.integer 1, .text "name".toList, .text "alpha".toList⟩] ++
    (List.range count).map fun i => ⟨.integer 1, .text "body".toList, .integer (i + 100)⟩
  lines := []

/-- The program of the block. -/
def bodySnapshot (count : Nat) : Snapshot Value where
  logicalVersion := "sha256:".toList ++ List.replicate 64 '0'
  program := ⟨[definitionAt values (bodyBlock count) (.integer 1)], []⟩

/-- Arguments that name the definition and a budget. -/
def bodyArguments (tokenBudget : Int) : List (String × Argument) :=
  [("semanticIdentity", .text "src/a.bclj#1".toList), ("tokenBudget", .integer tokenBudget)]

/-- A definition of two expressions within the least budget. -/
theorem context_budget_two : ∃ n packet,
    (∀ fuel, n ≤ fuel → programContext values fuel (bodySnapshot 2) (bodyArguments 512) = some (.ok (.packet packet))) ∧
    Bounded values (definitionAt values (bodyBlock 2) (.integer 1)) 512 packet := by
  obtain ⟨n, packet, hreturn, hiff⟩ := context_budget values (bodySnapshot 2) (bodyArguments 512) "src/a.bclj#1".toList 512
    (definitionAt values (bodyBlock 2) (.integer 1)) (by rfl) (by rfl)
  exact ⟨n, packet, hreturn, hiff.2 (.inl (by decide))⟩

set_option maxRecDepth 20000 in
/-- A definition of a hundred and twenty expressions: the packet is marked truncated, and is past the budget. -/
theorem context_budget_long : buildProgram values 3 [bodyBlock 120] = some (bodySnapshot 120).program ∧
    contextArguments (bodyArguments 512) = .ok ("src/a.bclj#1".toList, 512) ∧
    (bodySnapshot 120).program.definition "src/a.bclj#1".toList = some (definitionAt values (bodyBlock 120) (.integer 1)) ∧
    ∃ packet, (∀ fuel, 2 ≤ fuel → programContext values fuel (bodySnapshot 120) (bodyArguments 512) = some (.ok (.packet packet))) ∧
      packet.truncated = true ∧ 512 < responseTokens values packet := by
  have hdefinition : (bodySnapshot 120).program.definition "src/a.bclj#1".toList =
      some (definitionAt values (bodyBlock 120) (.integer 1)) := by rfl
  have hfull := textUnits_prPacket values (bodySnapshot 120) (definitionAt values (bodyBlock 120) (.integer 1)) 512
    (definitionAt values (bodyBlock 120) (.integer 1)).rootFacts false (le_refl 8)
  have hnarrow := textUnits_prPacket values (bodySnapshot 120) (definitionAt values (bodyBlock 120) (.integer 1)) 512
    (bodyFacts values (definitionAt values (bodyBlock 120) (.integer 1))) true (by decide : 1 ≤ 8)
  refine ⟨by rfl, rfl, hdefinition, _, fun fuel hfuel => programContext_eq values rfl hdefinition hfuel, ?_⟩
  rw [responseTokens, hfull, if_neg (by with_unfolding_all decide)]
  refine ⟨rfl, ?_⟩
  rw [responseTokens, hnarrow]
  with_unfolding_all decide

end ProgramInspection

end Fram
