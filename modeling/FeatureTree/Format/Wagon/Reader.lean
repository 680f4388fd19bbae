/-
Reading trees from bracketed lines.

Every line holds one node.  A decision opens with `((` and its test, and stays
open until its last child is closed; a leaf opens with `((`, closes with `))`,
and each further bracket closes one decision more.

* `Wagon.Assembly` — the tree as far as it was read;
* `Wagon.Assembly.addLine` — one more line;
* `Wagon.ofText`, `Wagon.ofPacked` — a tree from the lines of a text, and from
  records with their lengths in front;
* `Wagon.stringTreeOfText` — a tree with a symbol table in front.
-/
import FeatureTree.Format.Header
import FeatureTree.Symbol.StringTree
import FeatureTree.Text.Alphabetic
import FeatureTree.Text.Lines
import FeatureTree.Text.Search

namespace FeatureTree.Wagon

open Text

/-- How to read the leaves: the kind of tree, and the feature whose values the
indices of symbol leaves stand for. -/
structure Options where
  kind : WagonKind := .classification
  symbolFeature : Option String := none

/-- The record of an empty leaf, which also stands for an empty slot. -/
def emptyLeaf : String := "((() 0))"

/-- A value without the quotes around it, and with its escaped quotes plain. Two
quotes alone are not taken off. -/
def unquote (cs : List Char) : List Char :=
  let quoted := 2 < cs.length && cs.head? == some '"' && cs.getLast? == some '"'
  replaceAll ['\\', '"'] ['"'] (if quoted then (cs.drop 1).dropLast else cs)

/-- Reads the number of slots of a many-way decision. -/
def parseSlots (value : String) : Except FormatError Nat :=
  match Numeral.unsigned? 0x10000000000000000 value.toList with
  | some slots => FormatError.ofFault (Decision.checkSlots slots)
  | none => .error (.invalidValue "child count" value)

/-- The decision for an operator and a value. -/
def decisionFor (s : Schema) (line feature : Nat) (operator value : String) :
    Except FormatError Decision :=
  match operator with
  | "is" => FormatError.ofSchema do
    if (← s.feature feature).kind = .byte then
      return .byteEquals feature (← s.byteValue feature value)
    else return .shortEquals feature (← s.shortValue feature value)
  | "<" =>
    match Floating.parse? value with
    | some threshold => .ok (.below feature threshold)
    | none => .error (.invalidValue "threshold" value)
  | "isByteOf" => do return .byteOf feature (← parseSlots value)
  | "isShortOf" => do return .shortOf feature (← parseSlots value)
  | other => .error (.unknownOperator line other)

/-- Reads a decision after its opening brackets: the feature's name, an operator
and a value up to the closing bracket. -/
def parseDecision (s : Schema) (line : Nat) (body : List Char) : Except FormatError Decision := do
  let some (name, rest) := splitOnce? isBlank body | .error (.invalidLine line .noOperator)
  let some (operator, rest) := splitOnce? isBlank (rest.dropWhile isBlank)
    | .error (.invalidLine line .noOperand)
  let some value := dropLast? ')' (trimBy isBlank rest) | .error (.invalidLine line .openDecision)
  let feature ← FormatError.ofSchema (s.featureIndex (String.ofList name))
  decisionFor s line feature (String.ofList operator) (String.ofList (unquote value))

/-- The number that a weight token writes.  Infinity and NaN are replaced by
numbers: 10000 for an infinity in the last entry and 1000000 for any other, and
minus one for NaN. -/
def parseWeight (line : Nat) (isLast : Bool) (token : List Char) : Except FormatError Single :=
  let text := String.ofList token
  if text = "nan" then .ok (Floating.ofInt (-1))
  else if text = "inf" then .ok (Floating.ofInt (if isLast then 10000 else 1000000))
  else
    match Floating.parse? text with
    | some weight => .ok weight
    | none => .error (.invalidLine line (.leafWeight text))

/-- Reads `n` pairs of an index and a weight from the tokens of a leaf. -/
def parsePairs (line : Nat) : Nat → List (List Char) → Except FormatError (List (Int32 × Single))
  | n + 1, first :: second :: rest => do
    let indexText := String.ofList (first.dropWhile (· == '('))
    match Numeral.int32? indexText with
    | none => .error (.invalidLine line (.leafIndex indexText))
    | some index =>
      let weight ← parseWeight line (n == 0) (trimEndBy (· == ')') second)
      return (index, weight) :: (← parsePairs line n rest)
  | _, _ => .ok []

/-- The weighted entries of a leaf: of its tokens the last one closes the list,
and the others come in pairs. -/
def parseEntries (line : Nat) (tokens : List (List Char)) : Except FormatError WeightedIndices := do
  if tokens.length ≤ 2 then return .empty
  else return ⟨← parsePairs line ((tokens.length - 1) / 2) tokens⟩

/-- Number of closing brackets at the end of a token. -/
def closingCount (token : List Char) : Nat := (token.reverse.takeWhile (· == ')')).length

/-- The number that a token writes, or zero. -/
def numberOrZero (token : List Char) : Single :=
  (Floating.parse? (String.ofList token)).getD Floating.zero

/-- Reads a regression leaf: the standard deviation, and the mean with its closing
brackets. -/
def parseGaussian (line : Nat) (tokens : List (List Char)) : Except FormatError Gaussian :=
  let checked : Except FormatError Unit := match tokens with
    | _ :: mean :: _ =>
      if closingCount mean < 2 then
        .error (.bracketMismatch line (.regressionNotClosed (String.ofList mean)))
      else .ok ()
    | _ => .ok ()
  match checked, tokens with
  | .error e, _ => .error e
  | .ok (), [stddev, mean] =>
    .ok ⟨numberOrZero (stddev.dropWhile (· == '(')), numberOrZero (mean.takeWhile (· != ')'))⟩
  | .ok (), _ => .error (.invalidLine line (.regressionValues tokens.length))

/-- Reads a leaf of the given kind of tree. -/
def parseLeaf (kind : WagonKind) (symbolFeature : Option Nat) (line : Nat) (cs : List Char) :
    Except FormatError Payload :=
  let tokens := words (replaceAll [')', '('] [')', ' ', '('] cs)
  match kind with
  | .classification => do return .indices (← parseEntries line tokens).indices
  | .extendedClassification => do return .weightedIndices (← parseEntries line tokens)
  | .stringCart => do return .weightedSymbols ⟨← parseEntries line tokens, symbolFeature⟩
  | .regression => do return .gaussian (← parseGaussian line tokens)
  | .topLevel =>
    if tokens.length = 2 then .ok (.featureVectors [])
    else .error (.invalidLine line .topLevelData)

/-- The tree as far as it was read. -/
structure Assembly where
  schema : Schema
  kind : WagonKind
  symbolFeature : Option Nat
  builder : Builder
  /-- The decision that gets the next child. -/
  cursor : Option NodeId := none
  /-- Whether a first node, or an empty slot in its place, was read. -/
  hasRoot : Bool := false
  /-- Number of decisions that are not closed. -/
  openBrackets : Nat := 0
  lastLine : Nat := 0

namespace Assembly

/-- The state before the first line. -/
def start (s : Schema) (o : Options) : Except FormatError Assembly := do
  let symbolFeature ← FormatError.ofSchema (o.symbolFeature.mapM s.featureIndex)
  return { schema := s, kind := o.kind, symbolFeature, builder := Builder.empty s }

variable (a : Assembly)

/-- Puts a node, or an empty slot, in its place: below the decision that gets the
next child, or at the root. -/
def attach (line : Nat) (id : Option NodeId) : Except FormatError Assembly :=
  match a.cursor with
  | some parent => do
    let (builder, _) ← FormatError.ofGraph (a.builder.pushChild parent id)
    return { a with builder }
  | none =>
    if a.hasRoot then .error (.bracketMismatch line .afterCompleteTree)
    else
      match id with
      | some id => .ok { a with hasRoot := true, builder := a.builder.setRoot id }
      | none => .ok { a with hasRoot := true }

/-- Whether the decision with a number is the root. -/
def atRoot (id : NodeId) : Bool := a.builder.nodes[id]?.any (·.isRoot)

/-- Closes one decision for every bracket of a text.  The next child then goes to
the parent of the decision closed last; the root stays where it is and has to be
the last one. -/
def close (line : Nat) : Assembly → List Char → Except FormatError Assembly
  | a, [] => .ok a
  | a, c :: rest =>
    if c ≠ ')' then .error (.bracketMismatch line (.notClosing c))
    else
      match a.cursor with
      | none => .error (.bracketMismatch line .nothingOpen)
      | some id =>
        let closed := { a with openBrackets := a.openBrackets - 1 }
        if a.atRoot id then
          if rest.isEmpty then .ok closed else .error (.bracketMismatch line .tooManyClosing)
        else close line { closed with cursor := (a.builder.nodes[id]?).bind (·.mother) } rest

/-- Closes the decisions whose brackets follow those of the leaf on a line. -/
def closeAfterLeaf (line : Nat) (cs : List Char) : Except FormatError Assembly :=
  let token := (words cs).getLastD []
  match token.dropWhile (· != ')') with
  | ')' :: ')' :: extra => close line a extra
  | _ => .error (.bracketMismatch line (.leafNotClosed (String.ofList token)))

/-- Whether a line, after its opening brackets, holds a decision: it begins with a
letter and not with the word `nan`. -/
def isDecision (body : List Char) : Bool :=
  (body.head?.any isAlphabetic) && !startsWith ['n', 'a', 'n', ' '] body

/-- Adds the decision of a line. -/
def addDecisionLine (line : Nat) (body : List Char) : Except FormatError Assembly := do
  let d ← parseDecision a.schema line body
  let (builder, id) := a.builder.addDecision d
  let a ← { a with builder }.attach line (some id)
  return { a with cursor := some id, openBrackets := a.openBrackets + 1 }

/-- Adds the leaf of a line.  In a regression tree the record of an empty leaf
stands for an empty slot. -/
def addLeafLine (line : Nat) (cs : List Char) : Except FormatError Assembly := do
  if a.kind = .regression ∧ startsWith emptyLeaf.toList cs then
    (← a.attach line none).closeAfterLeaf line cs
  else
    let p ← parseLeaf a.kind a.symbolFeature line cs
    let (builder, id) := a.builder.addLeaf p
    (← { a with builder }.attach line (some id)).closeAfterLeaf line cs

/-- Adds the node of a line. -/
def addLine (line : Nat) (text : String) : Except FormatError Assembly :=
  let cs := trimBy isBlank text.toList
  let a := { a with lastLine := line }
  match startsWith? ['(', '('] cs with
  | none => .error (.invalidLine line (.noOpeningBrackets (String.ofList cs)))
  | some body => if isDecision body then a.addDecisionLine line body else a.addLeafLine line cs

/-- The tree, if every decision was closed. -/
def finish : Except FormatError Cart :=
  if a.openBrackets ≠ 0 then .error (.bracketMismatch a.lastLine (.unclosedAtEnd a.openBrackets))
  else FormatError.ofGraph (Cart.ofBuilder? a.builder)

end Assembly

/-- Whether a line holds no node: it is blank or a comment. -/
def isSkipped (text : String) : Bool := allBlank text || startsWith [';', ';'] text.toList

/-- The text of an encoded line. -/
def decodeLine (bytes : List UInt8) : Except FormatError String :=
  match Utf8.decode? bytes with
  | some text => .ok text
  | none => .error (.stream .invalidText)

/-- Adds the node of an encoded line, if it holds one. -/
def addEncodedLine (a : Assembly) (line : List UInt8 × Nat) : Except FormatError Assembly := do
  let text ← decodeLine line.1
  if isSkipped text then return a else a.addLine line.2 text

/-- The tree of encoded lines with their numbers. -/
def ofLines (s : Schema) (o : Options) (lines : List (List UInt8 × Nat)) :
    Except FormatError Cart := do
  let a ← Assembly.start s o
  (← lines.foldlM addEncodedLine a).finish

/-- The tree of an encoded text. -/
def ofText (s : Schema) (o : Options) (bytes : List UInt8) : Except FormatError Cart :=
  ofLines s o ((byteLines bytes).zipIdx 1)

/-- Adds the nodes of records up to the end of the stream.  The first argument
bounds the number of records, each of which takes some bytes. -/
def addRecords : Nat → Nat → Assembly → Reader Assembly
  | 0, _, a => pure a
  | fuel + 1, number, a => do
    match ← Reader.int32? with
    | none => return a
    | some length =>
      if length.toInt < 0 then
        Reader.fail (.invalidValue "record length" (toString length.toInt))
      else
        let text ← Reader.chars length.toInt.toNat
        addRecords fuel (number + 1) (← Reader.ofExcept (a.addLine number text))

/-- Reads a tree of records: a header, a count and a name that do not matter, and
the lines with their lengths in front. -/
def readPacked (s : Schema) (o : Options) (fuel : Nat) : Reader Cart := do
  Header.expect .carts
  let _ ← Reader.int32
  let _ ← Reader.string
  let a ← Reader.ofExcept (Assembly.start s o)
  Reader.ofExcept (← addRecords fuel 1 a).finish

/-- The tree of a byte sequence of records. -/
def ofPacked (s : Schema) (o : Options) (bytes : List UInt8) : Except FormatError Cart :=
  (readPacked s o (bytes.length + 1) bytes).map (·.1)

/-- The symbols of the first line that is not blank, and the lines after it. -/
def readSymbols :
    List (List UInt8 × Nat) → Except FormatError (List String × List (List UInt8 × Nat))
  | [] => .error (.symbolTable .empty)
  | line :: rest => do
    let text ← decodeLine line.1
    if allBlank text then readSymbols rest
    else return (← FormatError.ofSymbolTable (SymbolTable.parse text), rest)

/-- The tree of an encoded text with the line of its symbol table in front. -/
def stringTreeOfText (s : Schema) (bytes : List UInt8) : Except FormatError StringTree := do
  let (symbols, rest) ← readSymbols ((byteLines bytes).zipIdx 1)
  return ⟨← ofLines s { kind := .extendedClassification } rest, symbols⟩

end FeatureTree.Wagon
