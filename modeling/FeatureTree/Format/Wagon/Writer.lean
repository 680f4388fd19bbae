/-
Writing trees as bracketed lines.

The lines come in traversal order.  A decision is closed by one more bracket on
the line that closes its last child.

* `Wagon.lines` — the lines of a tree;
* `Wagon.toText`, `Wagon.toPacked` — the lines as a text, and as records with
  their lengths in front;
* `Wagon.stringTreeToText` — a tree with the line of its symbol table in front.
-/
import FeatureTree.Format.Wagon.Reader
import FeatureTree.Stream.Writer
import FeatureTree.Tree.Traversal

namespace FeatureTree.Wagon

open Text

/-- Whether a value name would not be read as one word. -/
def needsQuotes (cs : List Char) : Bool :=
  cs.isEmpty || cs.any fun c => isBlank c || c == '(' || c == ')' || c == '"'

/-- A value name, in quotes where it needs them. -/
def quoteValue (value : String) : String :=
  let cs := value.toList
  if needsQuotes cs then
    "\"" ++ String.ofList (replaceAll ['"'] ['\\', '"'] cs) ++ "\""
  else value

/-- An equality test with its value in quotes where it needs them; a value or
feature that the schema does not have is written by number. -/
def equalityText (s : Schema) (d : Decision) (ordinal : Int) : String :=
  match s.feature d.feature, s.valueName d.feature ordinal with
  | .ok m, .ok value => m.name ++ " is " ++ quoteValue value
  | _, _ => d.describe s

/-- The test of a decision. -/
def testText (s : Schema) (d : Decision) : String :=
  match d.test with
  | .byteEquals v => equalityText s d v.toNat
  | .shortEquals v => equalityText s d v.toInt
  | _ => d.describe s

/-- The line of a decision. -/
def decisionLine (s : Schema) (d : Decision) : String := "((" ++ testText s d ++ ")"

/-- The record of a list of entries. -/
def pairsText (entries : List String) : String := "(((" ++ joinWith " " entries ++ ") 0))"

/-- The record of weighted entries. -/
def weightedText (w : WeightedIndices) : String :=
  pairsText (w.entries.map fun e =>
    "(" ++ toString e.1.toInt ++ " " ++ e.2.renderLower ++ ")")

/-- The record of a leaf.  Feature vectors are not written. -/
def leafText : Payload → Except WriteError String
  | .indices data => .ok (pairsText (data.map fun i => "(" ++ toString i.toInt ++ " 0)"))
  | .weightedIndices w => .ok (weightedText w)
  | .weightedSymbols s => .ok (weightedText s.entries)
  | .featureVectors _ => .ok emptyLeaf
  | .gaussian g => .ok ("((" ++ g.stddev.renderLower ++ " " ++ g.mean.renderLower ++ "))")
  | .pdf _ => .error (.unsupported .pdfLeavesInWagon)

/-- This many closing brackets. -/
def closing (n : Nat) : String := String.ofList (List.replicate n ')')

/-- The lines for several child slots, of which the last one also closes the
decision and `n` decisions more. -/
def slotLines (one : Nat → Option NodeId → Except WriteError (List String)) (n : Nat) :
    List (Option NodeId) → Except WriteError (List String)
  | [] => .ok []
  | [last] => one (n + 1) last
  | slot :: rest => do return (← one 0 slot) ++ (← slotLines one n rest)

/-- The lines for what a child slot holds, the last of which closes `n` decisions.
The first argument bounds the number of nodes on the way down. -/
def linesBelow (a : Arena) : Nat → Nat → Option NodeId → Except WriteError (List String)
  | _, n, none => .ok [emptyLeaf ++ closing n]
  | 0, _, some _ => .ok []
  | fuel + 1, n, some id =>
    match (a.node? id).map Node.content with
    | some (.decision d) => do
      return decisionLine a.schema d :: (← slotLines (linesBelow a fuel) n d.children.toList)
    | some (.leaf p) => do return [(← leafText p) ++ closing n]
    | some (.graph _) => .error (.unsupported .graphNodesInWagon)
    | none => .ok []

/-- Checks that all leaves are those of the given kind of tree. -/
def checkLeaves (t : Cart) (kind : WagonKind) : Except WriteError Unit :=
  let leaves := (t.arena.select t.arena.root .leavesOnly).nodes.filterMap fun p => p.2.payload?
  match leaves.find? fun p => p.kind != kind.leafKind with
  | some p => .error (.unsupported (.leafInTree p.kind kind))
  | none => .ok ()

/-- The lines of a tree, all of whose leaves have to be those of the given kind of
tree, if there is one. -/
def lines (t : Cart) (kind : Option WagonKind) : Except WriteError (List String) := do
  if let some kind := kind then checkLeaves t kind
  match t.arena.root with
  | none => return []
  | some root => linesBelow t.arena (t.arena.size + 1) 0 (some root)

/-- The text of a tree. -/
def toText (t : Cart) (kind : Option WagonKind) : Except WriteError String := do
  return String.join ((← lines t kind).map (· ++ "\n"))

/-- The record of a line, with the number of its code units in front. -/
def recordBytes (line : String) : Stream.Encoded := do
  return (← Stream.lengthBytes (Utf16.encode line).length) ++ Stream.charBytes line

/-- The bytes of a tree as records: a header, the number of nodes, the name of the
tree and the lines. -/
def toPacked (t : Cart) (kind : Option WagonKind) (name : String) :
    Except WriteError (List UInt8) := do
  let records ← lines t kind
  let nodes := (t.arena.preorder t.arena.root).nodes.length
  WriteError.ofStream (Stream.concat
    (.ok (Header.bytes .carts) :: Stream.lengthBytes nodes :: Stream.stringBytes name
      :: records.map recordBytes))

/-- The text of a tree with the line of its symbol table in front. -/
def stringTreeToText (t : StringTree) : Except WriteError String := do
  let header ← t.header.mapError .symbolTable
  return header ++ "\n" ++ (← toText t.tree none)

end FeatureTree.Wagon
