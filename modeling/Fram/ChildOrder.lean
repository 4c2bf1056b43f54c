import Fram.Lib.Decimal
import Fram.Lib.Lines
import Fram.Types

/-!
# The order of children

The position predicates of `src/resolve_core.bclj`, `src/resolve_read.bclj`, `src/resolve_verbs.bclj` and `src/resolve_mint.bclj`, and
their second reader in `src/fram/candidate_transformer.clj`. A child's position under its parent is a spelling: `f<path>~<tie>`, where the
path is a vector of numbers, or the older `f<index>`. The resolver compares two paths number by number; the candidate transformer
compares the parsed vectors with the host's `compare`, which looks at their lengths first. The verbs choose where a child goes by paths
between or after those it finds.
-/

namespace Fram

namespace ChildOrder

open Lines (Text)

/-- A fact of a module's snapshot, all of whose parts are texts. -/
structure Fact where
  subject : Text
  predicate : Text
  object : Text
  deriving DecidableEq

/-- The host's largest long. -/
def maxLong : Nat := 9223372036854775807

/-- (`ORD-STEP`) -/
def ORD_STEP : Nat := 65536

/-- A result of the host's integer arithmetic: it throws past the largest long. -/
def long (n : Nat) : Except Fault Nat :=
  if n ≤ maxLong then .ok n else .error ⟨⟨"ArithmeticException"⟩, "integer overflow"⟩

/-- (`parse-long`) The number of some digits, none past the largest long. -/
def parseLong (digits : Text) : Option Nat :=
  if Decimal.value digits ≤ maxLong then some (Decimal.value digits) else none

/-! ## The spellings -/

/-- The text matches `\d+`. -/
def isDigits (text : Text) : Bool := !text.isEmpty && text.all Char.isDigit

/-- The digits of a text that matches `f(\d+)`. -/
def matchFlat : Text → Option Text
  | 'f' :: digits => if isDigits digits then some digits else none
  | _ => none

/-- The numbers of the path, and the tie, of a text that matches `f(\d+(?:\.\d+)*)~(tie)`, whatever a tie without a `~` may be. -/
def matchTied : Text → Option (List Text × Text)
  | 'f' :: rest =>
    match rest.splitOn '~' with
    | [path, tie] => if (path.splitOn '.').all isDigits then some (path.splitOn '.', tie) else none
    | _ => none
  | _ => none

/-- The text matches `t[A-Za-z0-9_-]+`. -/
def isMark : Text → Bool
  | 't' :: mark => !mark.isEmpty && mark.all fun c => c.isAlphanum || c == '_' || c == '-'
  | _ => false

/-- (`ord-str`, and `ord-str*`, whose tie is a text) -/
def ordStr (path : List Nat) (tie : Text) : Text :=
  'f' :: List.intercalate ['.'] (path.map (Nat.toDigits 10)) ++ '~' :: tie

/-- The older spelling of a position. -/
def flatStr (index : Nat) : Text := 'f' :: Nat.toDigits 10 index

/-! ## The resolver's reader -/

/-- (`OrdKey`) -/
structure OrdKey where
  path : List Nat
  tie : Nat
  deriving DecidableEq

/-- (`digits`) -/
def digits (text : Text) : Nat := (parseLong text).getD 0

/-- (`ord-parse`) -/
def ordParse (p : Text) : Except Fault (Option OrdKey) :=
  match matchTied p with
  | some (path, tie) => .ok (if isDigits tie then some ⟨path.map digits, digits tie⟩ else none)
  | none =>
    match matchFlat p with
    | some index => do
      let next ← long (digits index + 1)
      let first ← long (next * ORD_STEP)
      .ok (some ⟨[first], 0⟩)
    | none => .ok none

/-- (`ord-veccmp`) Number by number; of two paths that agree as far as they go, the shorter is smaller. -/
def ordVeccmp : List Nat → List Nat → Ordering
  | [], [] => .eq
  | [], _ :: _ => .lt
  | _ :: _, [] => .gt
  | m :: a, n :: b => (compare m n).then (ordVeccmp a b)

/-- (`ord-cmp`) -/
def ordCmp (x y : OrdKey) : Ordering := (ordVeccmp x.path y.path).then (compare x.tie y.tie)

/-- (`wrap-forms`, and the rows of `ordered-children`) The facts of a parent whose predicates `ord-parse` reads, in the order of `ord-cmp`. -/
def wrapForms (facts : List Fact) (parent : Text) : Except Fault (List (OrdKey × Fact)) := do
  let rows ← (facts.filter (·.subject = parent)).mapM fun fact => do
    let key ← ordParse fact.predicate
    .ok (key.map (·, fact))
  .ok (rows.reduceOption.insertionSort fun x y => (ordCmp x.1 y.1).isLE)

/-- (`ordered-children`) -/
def orderedChildren (facts : List Fact) (parent : Text) : Except Fault (List Text) := do
  let rows ← wrapForms facts parent
  .ok (rows.map (·.2.object))

/-! ## The candidate transformer's reader -/

/-- A tie as the transformer compares it: `[0 n]`, or `[1 mark]`. -/
inductive Tie where
  | number (n : Option Nat)
  | mark (text : Text)
  deriving DecidableEq

/-- What `position-key` makes of a predicate. A number past the largest long is absent in its place. -/
structure PositionKey where
  path : List (Option Nat)
  tie : Tie
  deriving DecidableEq

/-- (`position-key`) -/
def positionKey (predicate : Text) : Except Fault (Option PositionKey) :=
  match matchFlat predicate with
  | some index =>
    match parseLong index with
    | none => .error ⟨⟨"NullPointerException"⟩, "Cannot invoke \"Object.getClass()\" because \"x\" is null"⟩
    | some n => do
      let next ← long (n + 1)
      let first ← long (next * ORD_STEP)
      .ok (some ⟨[some first], .number (some 0)⟩)
  | none =>
    match matchTied predicate with
    | some (path, tie) =>
      .ok (if isDigits tie then some ⟨path.map parseLong, .number (parseLong tie)⟩
        else if isMark tie then some ⟨path.map parseLong, .mark tie⟩
        else none)
    | none => .ok none

/-- The elements of two vectors, compared in turn (`nil` is below every number). -/
def compareElements : List (Option Nat) → List (Option Nat) → Ordering
  | m :: a, n :: b => (compare m n).then (compareElements a b)
  | _, _ => .eq

/-- (`compare`, on vectors) First by their lengths, then by their elements. -/
def compareVectors (a b : List (Option Nat)) : Ordering := (compare a.length b.length).then (compareElements a b)

/-- (`compare`, on `[0 n]` and `[1 mark]`) -/
def compareTies : Tie → Tie → Ordering
  | .number m, .number n => compare m n
  | .number _, .mark _ => .lt
  | .mark _, .number _ => .gt
  | .mark s, .mark t => compare s t

/-- A row of `ordered-edges`; its `:node` is the fact's object. -/
structure Edge where
  key : PositionKey
  fact : Fact
  deriving DecidableEq

/-- (`compare`, on `(juxt :key (comp second :fact))` of two edges) -/
def compareEdges (x y : Edge) : Ordering :=
  ((compareVectors x.key.path y.key.path).then (compareTies x.key.tie y.key.tie)).then (compare x.fact.predicate y.fact.predicate)

/-- (`ordered-edges`) -/
def orderedEdges (facts : List Fact) (node : Text) : Except Fault (List Edge) := do
  let edges ← (facts.filter (·.subject = node)).mapM fun fact => do
    let key ← positionKey fact.predicate
    .ok (key.map (⟨·, fact⟩))
  .ok (edges.reduceOption.insertionSort fun x y => (compareEdges x y).isLE)

/-! ## Choosing a position -/

/-- (`ord-append`) -/
def ordAppend : Option (List Nat) → Except Fault (List Nat)
  | none => .ok [ORD_STEP]
  | some path =>
    match path.getLast? with
    | none => .ok [ORD_STEP]
    | some last => do
      let next ← long (last + ORD_STEP)
      .ok (path.dropLast ++ [next])

/-- The middle of two numbers. -/
def middle (a b : Nat) : Except Fault Nat := do
  let sum ← long (a + b)
  .ok (sum / 2)

/-- The loop of `ord-between`: the numbers that the two paths share a place for are kept until there is room between them. -/
def betweenLoop : List Nat → List Nat → Except Fault (List Nat)
  | [], [] => .ok [ORD_STEP]
  | a :: _, [] => do
    let b ← long (a + 2 * ORD_STEP)
    let m ← middle a b
    .ok [m]
  | [], b :: hi => if 1 < b then .ok [b / 2] else (0 :: ·) <$> betweenLoop [] hi
  | a :: lo, b :: hi =>
    if a + 1 < b then do
      let m ← middle a b
      .ok [m]
    else (a :: ·) <$> betweenLoop lo hi

/-- (`ord-between`) -/
def ordBetween (lo hi : Option (List Nat)) : Except Fault (List Nat) :=
  match hi with
  | none => ordAppend lo
  | some hi => betweenLoop (lo.getD [0]) hi

/-! ## The verbs -/

/-- The failure of a verb's `reject`, by its code. -/
def rejected (code : Nat) : Fault := ⟨⟨"rejected"⟩, toString code⟩

/-- (`mint-datum-on!`) The position predicates of a list's elements. -/
def mintPositions (count : Nat) : List Text := (List.range count).map fun i => ordStr [(i + 1) * ORD_STEP] ['0']

/-- (`mint-list`) The position predicates of a list's elements, as the candidate transformer spells them. -/
def mintListPositions (count : Nat) : List Text := (List.range count).map flatStr

/-- (`verb-insert-form!`) The facts with a form put after the form at an index, at a path before the next form's. -/
def insertForm (facts : List Fact) (wrapper : Text) (anchor : Nat) (root tie : Text) : Except Fault (List Fact) := do
  let forms ← wrapForms facts wrapper
  match forms[anchor]? with
  | none => .error (rejected 3)
  | some form =>
    let path ← ordBetween (some form.1.path) (forms[anchor + 1]?.map (·.1.path))
    .ok (facts ++ [⟨wrapper, ordStr path tie, root⟩])

/-- (`verb-reorder!`) The facts with a form moved after another one, or to the front. -/
def reorder (facts : List Fact) (wrapper mover : Text) (after : Option Text) (tie : Text) : Except Fault (List Fact) := do
  let forms ← wrapForms facts wrapper
  match forms.find? (·.2.object = mover) with
  | none => .error (rejected 5)
  | some entry =>
    let others := forms.filter (·.2.object ≠ mover)
    match after with
    | none =>
      match others.head? with
      | none => .error ⟨⟨"IndexOutOfBoundsException"⟩, ""⟩
      | some first =>
        let path ← ordBetween none (some first.1.path)
        .ok (facts.erase entry.2 ++ [⟨wrapper, ordStr path tie, mover⟩])
    | some anchor =>
      match others[others.findIdx (·.2.object = anchor)]? with
      | none => .error (rejected 3)
      | some form =>
        let path ← ordBetween (some form.1.path) (others[others.findIdx (·.2.object = anchor) + 1]?.map (·.1.path))
        .ok (facts.erase entry.2 ++ [⟨wrapper, ordStr path tie, mover⟩])

/-- (`verb-upsert-form!`) The facts with a form in a form's place, or after the last one. -/
def upsertForm (facts : List Fact) (wrapper : Text) (victim : Option Text) (root tie : Text) : Except Fault (List Fact) := do
  let forms ← wrapForms facts wrapper
  match victim with
  | some victim =>
    match forms.find? (·.2.object = victim) with
    | none => .error (rejected 3)
    | some form => .ok (facts.erase form.2 ++ [⟨wrapper, ordStr form.1.path tie, root⟩])
  | none =>
    let path ← ordAppend (forms.getLast?.map (·.1.path))
    .ok (facts ++ [⟨wrapper, ordStr path tie, root⟩])

end ChildOrder

end Fram
