import Fram.Lemmas.Pull
import Fram.Lemmas.PullHistory
import Fram.Lemmas.Server
import Fram.Theorems.HistoricalViews

/-!
# A pull at a version

A pull as of a version shows what was live in the store of the version, under the names, aliases, cardinalities and kinds of the store as
it is now. It ends, expands no more nodes than its bound in all, tells what a bound cut off, and stays above its depth bound exactly when
no flat list of referring subjects at that bound finds one to expand.
-/

namespace Fram

namespace Pull

open Fueled

variable {Γ : Host} {print : Term → String}

/-- The reader of a store that represents a history exists. -/
theorem reader_of_spelt {s : TermStore} {frames : List TransactionFrame} (h : Spelt Γ s frames) (opts : Options) :
    ∃ session withdrawals, newSession Γ s = .ok session ∧ Fram.withdrawals s = .ok withdrawals ∧
      reader Γ print s opts = .ok ⟨Γ, print, session, Reference.occurrences s.spaceId (logOf frames),
        Reference.liveOccurrences s.spaceId (logOf frames), withdrawals, opts.asOf, opts.provenance, clamp opts.maxDepth defaultMaxDepth,
        clamp opts.maxNodes defaultMaxNodes⟩ := by
  obtain ⟨session, hsession, -⟩ := newSession_ok h.represents
  obtain ⟨withdrawals, hwithdrawals, -⟩ := h.represents.withdrawals
  refine ⟨session, withdrawals, hsession, hwithdrawals, ?_⟩
  unfold reader
  rw [hsession, h.occurrences, h.liveOccurrences, hwithdrawals]
  rfl

/-- The pull of a store at a version is that of the store of the version under the schema of now. -/
theorem reads_at {past now : TermStore} {base rest : List TransactionFrame} {version : Int} (hpast : Spelt Γ past base)
    (hnow : Spelt Γ now (base ++ rest)) (hspace : now.spaceId = past.spaceId) (he : Ends version base rest) (opts : Options) :
    ∃ p n, reader Γ print past { opts with asOf := none } = .ok p ∧ reader Γ print now { opts with asOf := some version } = .ok n ∧
      ∀ fuel pattern root, roots n fuel pattern root = roots (p.under n) fuel pattern root := by
  obtain ⟨sp, wp, -, -, hp⟩ := @reader_of_spelt Γ print past base hpast { opts with asOf := none }
  obtain ⟨sn, wn, -, -, hn⟩ := @reader_of_spelt Γ print now (base ++ rest) hnow { opts with asOf := some version }
  have hbase : ∀ e ∈ logOf base, e.sequence ≤ version ∧ 0 ≤ e.sequence := by
    intro e hm
    obtain ⟨f, hf, hmem⟩ := List.mem_flatMap.1 hm
    rw [sequence_of_mem_loggedFrom hmem]
    have hlower := hpast.represents.advances.lower f hf
    exact ⟨he.upper f hf, by omega⟩
  have hevents : eventsAt (Reference.occurrences now.spaceId (logOf (base ++ rest))) version =
      Reference.liveOccurrences past.spaceId (logOf base) := by
    have hsplit : Reference.occurrences now.spaceId (logOf (base ++ rest)) =
        Reference.occurrences now.spaceId (logOf base) ++ Reference.occurrences now.spaceId (logOf rest) := by
      simp [Reference.occurrences]
    rw [hsplit, eventsAt_append, hspace]
    · exact eventsAt_occurrences hpast.represents.advances.coordinates (fun e hm => (hbase e hm).1) hpast.represents.space
        fun e hm => (hbase e hm).2
    · intro o ho
      obtain ⟨e, hm, rfl⟩ := List.mem_map.1 ho
      obtain ⟨f, hf, hmem⟩ := List.mem_flatMap.1 hm
      rw [eventSequence_occurrence, sequence_of_mem_loggedFrom hmem]
      exact he.lower f hf
  refine ⟨_, _, hp, hn, fun fuel pattern root => (SameReads.roots ?_ fuel pattern root).symm⟩
  refine sameReads_under rfl rfl rfl rfl rfl rfl rfl hevents fun o ho => ?_
  obtain ⟨e, hm, ha, rfl⟩ := exists_of_mem_liveOccurrences ho
  obtain ⟨hle, hpos⟩ := hbase e hm
  have hcoordinate : isOccurrenceCoordinate (coordinateOf past.spaceId e.sequence e.ordinal).term = true :=
    isOccurrenceCoordinate_coordinateOf hpast.represents.space hpos (by omega)
  exact ⟨by simp [isAssertionOccurrence, LoggedOperation.occurrence, hcoordinate, ha], coordinateOf_eqv_iff.2 ⟨rfl, rfl⟩, hle⟩

/-- A flat element reports what the leaf of an event is. A nested one shows what following the third position of the same event gives, and
follows it once more for each of so many others. -/
structure ShowsOne (r : Reader) (left : Term) (key : String) (predicate : Term) (event : OperationOccurrence) (others : Nat) : Prop where
  reported : ∀ expand depth visited entries s entries' s', Yields (elem r expand left depth visited entries (.attr key)) s entries' s' →
    ∃ value, leaf r predicate event = .ok value ∧ entries' = assoc entries key value
  followed : ∀ expand depth visited entries sub s entries' s', Yields (mapEntry r expand left depth visited entries (key, sub)) s entries' s' →
    ∃ value s₁ items, Yields (nested r expand (subpatPattern key sub) depth visited event.proposition.t3) s value s₁ ∧
      Yields ((List.replicate others event.proposition.t3).mapM (nested r expand (subpatPattern key sub) depth visited)) s₁ items s' ∧
      entries' = assoc entries key value

/-- A predicate of cardinality single whose events to read have one value shows it: the flat element reports the last of them, and the nested
one follows the value of the first. -/
theorem showsOne {r : Reader} {left : Term} {key : String} {predicate : Term} {others : List OperationOccurrence} {event : OperationOccurrence}
    (hkey : key.toList.head? ≠ some '_') (hpid : r.pidOf key = .ok (some predicate))
    (hcard : Schema.cardinality r.Γ r.session key = .ok Schema.single) (hevents : r.fwdEvents left predicate = others ++ [event])
    (hone : ∀ other ∈ others, other.proposition.t3 = event.proposition.t3) : ShowsOne r left key predicate event others.length := by
  have hof : predicateOf r key = .ok (some predicate) := by rw [predicateOf, if_neg hkey, hpid]
  constructor
  · intro expand depth visited entries s entries' s' h
    cases elem_cases h with
    | unnamed hnone => exact absurd (hof.symm.trans hnone) (by simp)
    | reverse hkey' _ _ => exact absurd hkey' hkey
    | forward _ hpid' hv =>
      obtain rfl := Option.some.inj (Except.ok.inj (hof.symm.trans hpid'))
      rw [values, hevents] at hv
      obtain ⟨rendered, hrendered, hv⟩ := ExceptList.bind_eq_ok_iff.1 hv
      obtain ⟨before, value, hvalue, rfl⟩ := ExceptList.mapM_concat_eq_ok hrendered
      rw [if_neg (by simp), hcard] at hv
      cases hv
      exact ⟨value, hvalue, by simp [assocSome]⟩
  · intro expand depth visited entries sub s entries' s' h
    cases mapEntry_cases h with
    | unnamed hnone => exact absurd (hof.symm.trans hnone) (by simp)
    | reverse hkey' _ _ => exact absurd hkey' hkey
    | forward _ hpid' hitems hr =>
      obtain rfl := Option.some.inj (Except.ok.inj (hof.symm.trans hpid'))
      -- The values of the events are that one, so many times.
      have hsame : (r.fwdEvents left predicate).map (·.proposition.t3) =
          event.proposition.t3 :: List.replicate others.length event.proposition.t3 := by
        rw [hevents, List.map_append, List.map_congr_left hone, List.map_const', List.map_singleton, ← List.replicate_succ',
          List.replicate_succ]
      rw [hsame] at hitems
      obtain ⟨value, s₁, items, hvalue, hafter, rfl⟩ := yields_mapM_cons.1 hitems
      rw [withRendered, hcard] at hr
      cases hr
      exact ⟨value, s₁, items, hvalue, hafter, rfl⟩

/-- A run stands at a version at some point. From wherever it has got to, a pull as of the version gives what the pull of the store at that
point gives under the schema of now, with nothing withdrawn shown. And whatever a pull reads, a predicate of cardinality single whose events
to read have one value shows that value, flat and nested. -/
structure PullsAsOf (Γ : Host) (print : Term → String) (s : TermStore) (acts : List StoreAct) (version : Int) (opts : Options) : Prop where
  stands : ∃ before after, acts = before ++ after ∧ StandsAt Γ s before after version
  agrees : ∀ before after, acts = before ++ after → StandsAt Γ s before after version →
    ∃ past now, reader Γ print (runActs Γ s before).1 { opts with asOf := none } = .ok past ∧
      reader Γ print (runActs Γ s acts).1 { opts with asOf := some version } = .ok now ∧
      ∀ fuel pattern root, roots now fuel pattern root = roots (past.under now) fuel pattern root
  shows : ∀ (r : Reader) left key predicate others event, key.toList.head? ≠ some '_' → r.pidOf key = .ok (some predicate) →
    Schema.cardinality r.Γ r.session key = .ok Schema.single → r.fwdEvents left predicate = others ++ [event] →
    (∀ other ∈ others, other.proposition.t3 = event.proposition.t3) → ShowsOne r left key predicate event others.length

/-- **A pull at a version** shows what was live then, under the schema of now. -/
theorem pull_as_of (Γ : Host) (print : Term → String) {spaceId : String} {a t b : Nat} {s : TermStore}
    (h : newTermStoreSized spaceId a t b = .ok s) (acts : List StoreAct) {version : Int} (hpos : 0 ≤ version) (opts : Options) :
    PullsAsOf Γ print s acts version opts := by
  refine ⟨exists_standsAt h acts hpos, ?_,
    fun r left key predicate others event hkey hpid hcard hevents hone => showsOne hkey hpid hcard hevents hone⟩
  rintro before after rfl hstands
  obtain ⟨hpast, hpastSpace⟩ := represents_runActs (Γ := Γ) h before
  obtain ⟨hnow, hnowSpace⟩ := represents_runActs (Γ := Γ) h (before ++ after)
  obtain ⟨rest, hrest⟩ := runActs_append Γ s before after
  have hlater := hstands.later
  rw [hrest] at hnow hlater
  rw [List.drop_left] at hlater
  -- The frames as the store of the past spells them, and the later ones as the store of now does.
  obtain ⟨base, hsame, hspelt⟩ := hpast.exists_spelt
  have hflip : List.Forall₂ TransactionFrame.same ((runActs Γ s before).2 ++ rest) (base ++ rest) := by
    refine List.rel_append (List.Forall₂.imp (fun _ _ hff => TransactionFrame.same_symm hff) (List.Forall₂.flip hsame)) ?_
    exact List.forall₂_same.2 fun f _ => ⟨rfl, List.forall₂_same.2 fun o _ => ⟨rfl, rfl⟩⟩
  obtain ⟨rest', hrest', hspeltNow⟩ := hspelt.exists_of_base (hnow.of_same hflip) fun x hx => (runActs_atoms (Γ := Γ) h before after).subset hx
  refine reads_at hspelt hspeltNow (hnowSpace.trans hpastSpace.symm) ⟨fun f hf => ?_, fun f hf => ?_⟩ opts
  · have h1 := hspelt.represents.advances.upper f hf
    have h2 := hstands.reached
    unfold currentSequence at h2
    omega
  · have hmem := List.mem_map_of_mem (f := (·.sequence)) hf
    rw [sequences_same hrest'] at hmem
    obtain ⟨g, hg, heq⟩ := List.mem_map.1 hmem
    rw [← heq]
    exact hlater g hg

/-- Names and a predicate `p` of cardinality single whose values are references, with two of them below `x`. -/
def named : List CommitOperation :=
  (["name", "p", "cardinality", "value_kind"].map fun x => ⟨.assert, ⟨.str x, .str "predicate_name", .str x⟩⟩) ++
    [⟨.assert, ⟨.str "p", .str "cardinality", .str "single"⟩⟩, ⟨.assert, ⟨.str "p", .str "value_kind", .str "ref"⟩⟩,
      ⟨.assert, ⟨.int 1, .str "name", .str "x"⟩⟩, ⟨.assert, ⟨.int 2, .str "name", .str "y"⟩⟩, ⟨.assert, ⟨.int 3, .str "name", .str "z"⟩⟩,
      ⟨.assert, ⟨.int 1, .str "p", .int 2⟩⟩, ⟨.assert, ⟨.int 1, .str "p", .int 3⟩⟩]

/-- Another name for `x`. -/
def renamed : List CommitOperation :=
  [⟨.retract, ⟨.int 1, .str "name", .str "x"⟩⟩, ⟨.assert, ⟨.int 1, .str "name", .str "w"⟩⟩]

/-- The version of a name, read back then. -/
theorem pull_as_of_named : ∃ s, newTermStoreSized "s" 0 0 0 = .ok s ∧
    PullsAsOf Host.zero (fun _ => "") s [.commit named, .commit renamed] 1 ⟨none, false, none, none⟩ :=
  ⟨_, rfl, @pull_as_of Host.zero (fun _ => "") "s" 0 0 0 _ rfl [.commit named, .commit renamed] 1 (by decide) ⟨none, false, none, none⟩⟩

/-- The result of a pull of `x`. -/
def pullOf (store : TermStore) (asOf : Option Int) (pattern : List Element) : Option Pulled :=
  match run Host.zero (fun _ => "") (fun _ => false) (fun _ => "") 7 store (.one "x") pattern ⟨asOf, false, none, none⟩ with
  | some (.ok (.pulled result _)) => some result
  | _ => none

/-- The root names nothing. -/
def Pulled.isAbsent : Pulled → Bool
  | .absent _ => true
  | _ => false

/-- What the one flat entry of a node reports. -/
def Pulled.reported : Pulled → Option Term
  | .node _ [(_, .value term)] => some term
  | _ => none

/-- The name of the node that the one nested entry of a node follows to. -/
def Pulled.followed : Pulled → Option Term
  | .node _ [(_, .node name _)] => some name
  | _ => none

/-- What pulls show in a store with two values of `p` below `x`, and at that version after a renaming of `x`: whether `x` names nothing, and
the value that is reported and followed. -/
def renamedPulls : Except Fault (Option Bool × Option Bool × Option Term × Option Term) := do
  let s ← newTermStoreSized "s" 0 0 0
  let (past, _) ← commitTransaction Host.zero s named
  let (now, _) ← commitTransaction Host.zero past renamed
  .ok ((pullOf past none [.attr "p"]).map (·.isAbsent), (pullOf now (some 1) [.attr "p"]).map (·.isAbsent),
    (pullOf past none [.attr "p"]).bind (·.reported), (pullOf past none [.map [("p", .pattern [])]]).bind (·.followed))

/-- After a renaming a pull as of the version before finds no `x`, which the store of the version has. And of two values of a predicate of
cardinality single, the flat element reports the last and the nested one follows the first. -/
theorem pull_as_of_renamed : ∃ s past now time time', newTermStoreSized "s" 0 0 0 = .ok s ∧
    commitTransaction Host.zero s named = .ok (past, time) ∧ commitTransaction Host.zero past renamed = .ok (now, time') ∧
    pullOf now (some 1) [.attr "p"] ≠ pullOf past none [.attr "p"] ∧
    (pullOf past none [.attr "p"]).bind (·.reported) = some (.str "z") ∧
    (pullOf past none [.map [("p", .pattern [])]]).bind (·.followed) = some (.str "y") := by
  have hall : renamedPulls = .ok (some false, some true, some (.str "z"), some (.str "y")) := by decide +kernel
  unfold renamedPulls at hall
  obtain ⟨s, hs, hall⟩ := ExceptList.bind_eq_ok_iff.1 hall
  obtain ⟨⟨past, time⟩, hpast, hall⟩ := ExceptList.bind_eq_ok_iff.1 hall
  obtain ⟨⟨now, time'⟩, hnow, hall⟩ := ExceptList.bind_eq_ok_iff.1 hall
  simp only [Except.ok.injEq, Prod.mk.injEq] at hall
  obtain ⟨hthen, hlater, hreported, hfollowed⟩ := hall
  refine ⟨s, past, now, time, time', hs, hpast, hnow, fun heq => ?_, hreported, hfollowed⟩
  rw [heq, hthen] at hlater
  cases hlater

end Pull

/-! ## Bounds -/

namespace Pull

open Fueled

variable {Γ : Host} {print : Term → String} {blank : String → Bool} {printElement : Element → String} {s : TermStore} {root : Root}
  {pattern : List Element} {opts : Options}

/-- What a pull that has a result evaluated. -/
theorem run_pulled {fuel : Nat} {result : Pulled} {evaluation : Evaluation}
    (h : run Γ print blank printElement fuel s root pattern opts = some (.ok (.pulled result evaluation))) :
    ∃ r, reader Γ print s opts = .ok r ∧ Yields (roots r fuel pattern root) ⟨0, []⟩ result evaluation := by
  rw [run] at h
  dsimp only at h
  split at h
  · cases h
  · cases hr : reader Γ print s opts with
    | error fault =>
      rw [hr] at h
      cases h
    | ok r =>
      rw [hr] at h
      refine ⟨r, rfl, ?_⟩
      dsimp only at h
      obtain ⟨answer, hanswer, h⟩ := Option.map_eq_some_iff.1 h
      cases answer with
      | error fault => cases h
      | ok value =>
        cases h
        exact hanswer

/-- The bounds of a pull's reader. -/
theorem reader_bounds {r : Reader} (h : reader Γ print s opts = .ok r) :
    r.maxDepth = clamp opts.maxDepth defaultMaxDepth ∧ r.maxNodes = clamp opts.maxNodes defaultMaxNodes := by
  rw [reader] at h
  obtain ⟨session, -, h⟩ := ExceptList.bind_eq_ok_iff.1 h
  obtain ⟨occurrences, -, h⟩ := ExceptList.bind_eq_ok_iff.1 h
  obtain ⟨liveNow, -, h⟩ := ExceptList.bind_eq_ok_iff.1 h
  obtain ⟨withdrawals, -, h⟩ := ExceptList.bind_eq_ok_iff.1 h
  cases h
  exact ⟨rfl, rfl⟩

/-- With fuel for the levels up to the depth bound, and two more, a pull answers or throws. -/
theorem run_isSome {fuel : Nat} (hf : clamp opts.maxDepth defaultMaxDepth + 2 ≤ fuel) :
    (run Γ print blank printElement fuel s root pattern opts).isSome := by
  rw [run]
  dsimp only
  split
  · rfl
  · cases hr : reader Γ print s opts with
    | error fault => rfl
    | ok r =>
      rw [← (reader_bounds hr).1] at hf
      have hends := roots_ends hf pattern root ⟨0, []⟩
      dsimp only
      rw [Option.isSome_map]
      exact Option.isSome_iff_ne_none.2 hends

/-- A pull keeps its bounds: it ends; the nodes that it expands are counted, and no more than its bound; what the result nests was expanded,
and nothing is below the depth bound; and results that no bound cut are the same under all bounds. -/
structure KeepsBounds (Γ : Host) (print : Term → String) (blank : String → Bool) (printElement : Element → String) (s : TermStore) (root : Root)
    (pattern : List Element) (opts : Options) : Prop where
  ends : ∃ n, ∀ fuel, n ≤ fuel → (run Γ print blank printElement fuel s root pattern opts).isSome
  nodes : ∀ fuel result evaluation, run Γ print blank printElement fuel s root pattern opts = some (.ok (.pulled result evaluation)) →
    evaluation.steps.countP (·.isExpanded) ≤ clamp opts.maxNodes defaultMaxNodes
  nests : ∀ fuel result evaluation, run Γ print blank printElement fuel s root pattern opts = some (.ok (.pulled result evaluation)) →
    ∀ depth, result.StandsAt depth → .expanded depth ∈ evaluation.steps
  depth : ∀ fuel result evaluation, run Γ print blank printElement fuel s root pattern opts = some (.ok (.pulled result evaluation)) →
    ∀ depth, .expanded depth ∈ evaluation.steps → depth ≤ clamp opts.maxDepth defaultMaxDepth
  tells : ∀ r, reader Γ print s opts = .ok r → ∀ fuel result evaluation maxDepth maxNodes fuel' result' evaluation',
    Yields (roots r fuel pattern root) ⟨0, []⟩ result evaluation →
    Yields (roots (r.within maxDepth maxNodes) fuel' pattern root) ⟨0, []⟩ result' evaluation' → ¬result.Cut → ¬result'.Cut → result = result'

/-- A pull keeps its bounds exactly when each flat list that it comes to meets its condition. -/
theorem keepsBounds_iff : KeepsBounds Γ print blank printElement s root pattern opts ↔
    ∀ fuel result evaluation, run Γ print blank printElement fuel s root pattern opts = some (.ok (.pulled result evaluation)) →
      ∀ step ∈ evaluation.steps, step.Meets (clamp opts.maxDepth defaultMaxDepth) (clamp opts.maxNodes defaultMaxNodes) := by
  have hbounded : ∀ fuel result evaluation, run Γ print blank printElement fuel s root pattern opts = some (.ok (.pulled result evaluation)) →
      ∃ r, Bounded r evaluation ∧ r.maxDepth = clamp opts.maxDepth defaultMaxDepth ∧ r.maxNodes = clamp opts.maxNodes defaultMaxNodes := by
    intro fuel result evaluation h
    obtain ⟨r, hr, hy⟩ := run_pulled h
    exact ⟨r, roots_keeps (invariant_bounded r) (Nat.zero_le _) bounded_nil hy, reader_bounds hr⟩
  constructor
  · intro h fuel result evaluation hrun
    obtain ⟨r, hb, hd, hn⟩ := hbounded fuel result evaluation hrun
    rw [← hd, ← hn]
    exact hb.shallow.1 (by rw [hd]; exact h.depth fuel result evaluation hrun)
  · intro h
    refine ⟨⟨_, fun fuel hf => run_isSome hf⟩, fun fuel result evaluation hrun => ?_, fun fuel result evaluation hrun depth hk => ?_,
      fun fuel result evaluation hrun => ?_, ?_⟩
    · obtain ⟨r, hb, -, hn⟩ := hbounded fuel result evaluation hrun
      rw [← hb.counted, ← hn]
      exact hb.within
    · obtain ⟨r, -, hy⟩ := run_pulled hrun
      exact roots_tells hy hk
    · obtain ⟨r, hb, hd, hn⟩ := hbounded fuel result evaluation hrun
      rw [← hd]
      refine hb.shallow.2 ?_
      rw [hd, hn]
      exact h fuel result evaluation hrun
    · intro r _ fuel result evaluation maxDepth maxNodes fuel' result' evaluation' hy hy' hcut hcut'
      rcases roots_agree hy hy' with hc | hc | heq
      · exact absurd hc hcut
      · exact absurd hc hcut'
      · exact heq

/-- **The bounds of a pull.** Whatever the store, the root, the pattern and the options, a pull keeps its bounds if and only if each flat list
of referring subjects that it comes to at the depth bound finds only subjects that are being expanded, or comes when no nodes are left. And
the pattern alone tells it of most pulls: one that asks for no such list at that level keeps its bounds, whatever the store. -/
theorem pull_bounds (Γ : Host) (print : Term → String) (blank : String → Bool) (printElement : Element → String) (s : TermStore) (root : Root)
    (pattern : List Element) (opts : Options) : (KeepsBounds Γ print blank printElement s root pattern opts ↔
      ∀ fuel result evaluation, run Γ print blank printElement fuel s root pattern opts = some (.ok (.pulled result evaluation)) →
        ∀ step ∈ evaluation.steps, step.Meets (clamp opts.maxDepth defaultMaxDepth) (clamp opts.maxNodes defaultMaxNodes)) ∧
    (¬FlatReverseAt (clamp opts.maxDepth defaultMaxDepth) pattern → KeepsBounds Γ print blank printElement s root pattern opts) := by
  refine ⟨keepsBounds_iff, fun hnone => keepsBounds_iff.2 fun fuel result evaluation hrun => ?_⟩
  obtain ⟨r, -, hy⟩ := run_pulled hrun
  exact (roots_listNoneAt hnone hy).meets

/-- `x` has `y` below it by `p`, and `z` refers to `y` by `q`. -/
def flatOperations : List CommitOperation :=
  [⟨.assert, ⟨.str "name", .str "predicate_name", .str "name"⟩⟩, ⟨.assert, ⟨.str "p", .str "predicate_name", .str "p"⟩⟩,
    ⟨.assert, ⟨.str "q", .str "predicate_name", .str "q"⟩⟩, ⟨.assert, ⟨.int 1, .str "name", .str "x"⟩⟩,
    ⟨.assert, ⟨.int 2, .str "name", .str "y"⟩⟩, ⟨.assert, ⟨.int 3, .str "name", .str "z"⟩⟩,
    ⟨.assert, ⟨.int 1, .str "p", .int 2⟩⟩, ⟨.assert, ⟨.int 3, .str "q", .int 2⟩⟩]

/-- The pull of `x` that asks for what refers to what is below it, one level deep. -/
def flatPull (store : TermStore) : Option (Except Fault Answer) :=
  run Host.zero (fun _ => "") (fun _ => false) (fun _ => "") 3 store (.one "x") [.map [("p", .pattern [.attr "_q"])]] ⟨none, false, some 1, none⟩

/-- The pull has a result, and expanded a node at a depth. -/
def expandsAt (answer : Option (Except Fault Answer)) (depth : Nat) : Bool :=
  match answer with
  | some (.ok (.pulled _ evaluation)) => evaluation.steps.contains (.expanded depth)
  | _ => false

/-- A flat list at the depth bound: the subject that refers to the one below `x` is expanded two levels down, under a bound of one. -/
theorem pull_bounds_flat : ∃ s store time, newTermStoreSized "s" 0 0 0 = .ok s ∧
    commitTransaction Host.zero s flatOperations = .ok (store, time) ∧
    ¬KeepsBounds Host.zero (fun _ => "") (fun _ => false) (fun _ => "") store (.one "x") [.map [("p", .pattern [.attr "_q"])]]
      ⟨none, false, some 1, none⟩ := by
  obtain ⟨s, hs⟩ : ∃ s, newTermStoreSized "s" 0 0 0 = .ok s := ⟨_, rfl⟩
  have hdeep : ((newTermStoreSized "s" 0 0 0).toOption.any fun s => (commitTransaction Host.zero s flatOperations).toOption.any fun committed =>
      expandsAt (flatPull committed.1) 2) = true := by decide +kernel
  rw [hs] at hdeep
  cases hcommit : commitTransaction Host.zero s flatOperations with
  | error fault =>
    simp only [Except.toOption, Option.any_some, hcommit, Option.any_none, Bool.false_eq_true] at hdeep
  | ok committed =>
    obtain ⟨store, time⟩ := committed
    simp only [Except.toOption, Option.any_some, hcommit] at hdeep
    refine ⟨s, store, time, hs, hcommit, fun h => ?_⟩
    unfold expandsAt at hdeep
    split at hdeep
    · rename_i result evaluation hrun
      exact absurd (h.depth 3 result evaluation hrun 2 (by simpa using hdeep)) (by decide)
    · exact absurd hdeep Bool.false_ne_true

end Pull

end Fram
