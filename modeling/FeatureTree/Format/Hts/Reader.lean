/-
Reading state trees.

A file lists questions and then one block per state, each with a header line
that holds `{*}[k]` for the state number `k - 2`.  A block in braces has a line
for every decision: its id, a question, and the nodes to go on with when the
answer is no and when it is yes.  A block without braces is the name of a leaf.

* `Hts.StateAssembly` — the tree of one state as far as it was read;
* `Hts.Scan` — the file as far as it was read, line by line;
* `Hts.ofText` — the trees of a file.
-/
import FeatureTree.Format.Hts.PdfTables
import FeatureTree.Format.Hts.Translator
import FeatureTree.Tree.Cart

namespace FeatureTree.Hts

open Text

/-- How to read a file: the number of states, and the names of phones. -/
structure Options where
  numStates : Nat := 5
  translator : Translator := .standard

/-- The trees of all states, and the size of the vectors of the densities, if
there are some. -/
structure StateTrees where
  trees : List Cart
  vectorSize : Option Nat

/-- A decision id that occurred: its node, and whether its own line was read. -/
structure Declaration where
  id : Nat
  node : NodeId
  isDefined : Bool

/-- What the lines of a block refer to. -/
structure Context where
  schema : Schema
  translator : Translator
  state : Nat
  tables : Option PdfTables

/-- The tree of one state as far as it was read. -/
structure StateAssembly where
  context : Context
  builder : Builder
  declarations : List Declaration := []

/-- The state number of a header line, two less than the number in brackets. -/
def stateIndex (line numStates : Nat) (cs : List Char) : Except FormatError Nat :=
  match (splitOnce? (· == '[') cs).bind fun p => splitOnce? (· == ']') p.2 with
  | none => .error (.invalidLine line .headerWithoutState)
  | some (tag, _) =>
    let tag := trimBy isBlank tag
    let number := Numeral.unsigned? 0x10000000000000000 tag
    match number.filter fun k => 2 ≤ k && k - 2 < numStates with
    | some k => .ok (k - 2)
    | none => .error (.invalidValue "state index" (String.ofList tag))

/-- The id of the decision that a line defines: `0`, or a positive number after a
minus sign. -/
def decisionId? (cs : List Char) : Option Nat :=
  match cs with
  | ['0'] => some 0
  | '-' :: digits => (Numeral.unsigned? 0x100000000 digits).filter (0 < ·)
  | _ => none

/-- The number of a leaf: what stands in its name after the last underscore, less
the one-byte character at the end. -/
def leafNumber? (name : List Char) : Option Nat :=
  let tail := (name.reverse.takeWhile (· != '_')).reverse
  match tail.getLast? with
  | none => none
  | some last =>
    if last.toNat < 0x80 then Numeral.unsigned? 0x100000000 tail.dropLast else none

namespace Context

variable (c : Context)

/-- The decision that a question asks for: an equality test, with the value
translated. -/
def question (line : Nat) (cs : List Char) : Except FormatError Decision :=
  match splitOnce? (· == '=') cs with
  | none => .error (.invalidLine line (.questionWithoutValue (String.ofList cs)))
  | some (name, value) => FormatError.ofSchema do
    let value := c.translator.translate (String.ofList name) (String.ofList value)
    let feature ← c.schema.featureIndex (String.ofList name)
    if (← c.schema.feature feature).kind = .short then
      return .shortEquals feature (← c.schema.shortValue feature value)
    else return .byteEquals feature (← c.schema.byteValue feature value)

/-- The payload of the leaf with a name: its density, if there are tables, or its
number alone. -/
def leaf (line : Nat) (name : List Char) : Except FormatError Payload :=
  match leafNumber? name with
  | none => .error (.invalidLine line (.leafName (String.ofList name)))
  | some id =>
    match c.tables with
    | none => .ok (.pdf { id })
    | some tables =>
      match tables.leaf? c.state id with
      | some p => .ok (.pdf p)
      | none => .error (.unknownNode line (String.ofList name))

end Context

namespace StateAssembly

/-- The state before the first line of a block. -/
def start (c : Context) : StateAssembly := { context := c, builder := Builder.empty c.schema }

variable (a : StateAssembly)

/-- The declaration of a decision id. -/
def find? (id : Nat) : Option Declaration := a.declarations.find? (·.id == id)

/-- Declares a decision id that has not occurred: it gets a node, whose test is
chosen when its line is read. -/
def declare (id : Nat) : StateAssembly × NodeId :=
  let (builder, node) := a.builder.addDecision (.byteEquals 0 0)
  ({ a with builder, declarations := ⟨id, node, false⟩ :: a.declarations }, node)

/-- Records that the line of a decision was read. -/
def define (id : Nat) : StateAssembly :=
  { a with declarations := a.declarations.map fun d =>
      if d.id = id then { d with isDefined := true } else d }

/-- The node that a reference names: a new leaf, or the node of a decision id that
has not occurred. -/
def child (line : Nat) (reference : List Char) : Except FormatError (StateAssembly × NodeId) :=
  match reference with
  | '-' :: digits =>
    match Numeral.unsigned? 0x100000000 digits with
    | none => .error (.invalidLine line (.nodeReference (String.ofList reference)))
    | some id =>
      match a.find? id with
      | some d => .error (.graph (.sharedNode d.node))
      | none => .ok (a.declare id)
  | _ => do
    let p ← a.context.leaf line reference
    let (builder, node) := a.builder.addLeaf p
    return ({ a with builder }, node)

/-- The declaration for the first line of a block: the root, if the line defines
id `0`. -/
def declareRoot (id : Nat) : StateAssembly :=
  if id = 0 ∧ a.declarations.isEmpty then
    let (a, node) := a.declare 0
    { a with builder := a.builder.setRoot node }
  else a

/-- Reads the line of a decision. -/
def addLine (line : Nat) (text : String) : Except FormatError StateAssembly :=
  match words text.toList with
  | [name, question, no, yes] =>
    match decisionId? name with
    | none => .error (.invalidLine line (.nodeId (String.ofList name)))
    | some id =>
      let a := a.declareRoot id
      match (a.find? id).filter (!·.isDefined) with
      | none => .error (.unknownNode line (String.ofList name))
      | some d => do
        let decision ← a.context.question line question
        let a := a.define id
        let a := { a with builder := a.builder.setContent d.node (.decision decision) }
        let (a, yesNode) ← a.child line yes
        let (a, noNode) ← a.child line no
        let builder ← FormatError.ofGraph (a.builder.setChild d.node 0 (some yesNode))
        let builder ← FormatError.ofGraph (builder.setChild d.node 1 (some noNode))
        return { a with builder }
  | fields => .error (.invalidLine line (.fieldCount fields.length))

/-- Reads the name of the leaf that is the whole tree. -/
def addSingleLeaf (line : Nat) (name : List Char) : Except FormatError StateAssembly := do
  let p ← a.context.leaf line name
  let (builder, node) := a.builder.addLeaf p
  return { a with builder := builder.setRoot node }

/-- The tree, if every decision id that occurred was defined; otherwise the least
one that was not is reported. -/
def finish (line : Nat) : Except FormatError Cart :=
  match ((a.declarations.filter (!·.isDefined)).map (·.id)).min? with
  | some id => .error (.unknownNode line ("-" ++ toString id))
  | none => FormatError.ofGraph (Cart.ofBuilder? a.builder)

end StateAssembly

/-- Where in a file the reading stands: between blocks, after a header, or within
braces. -/
inductive Mode where
  | between
  | afterHeader (line state : Nat)
  | within (a : StateAssembly)

/-- The file as far as it was read: the trees of the states that occurred. -/
structure Scan where
  schema : Schema
  options : Options
  tables : Option PdfTables
  trees : Array (Option Cart)
  mode : Mode := .between

namespace Scan

/-- What the lines of a block of a state refer to. -/
def context (x : Scan) (state : Nat) : Context :=
  ⟨x.schema, x.options.translator, state, x.tables⟩

/-- The scan with the tree of a state, between blocks again. -/
def store (x : Scan) (state : Nat) (t : Cart) : Scan :=
  { x with trees := x.trees.setIfInBounds state (some t), mode := .between }

/-- Reads one more line. -/
def addLine (x : Scan) (line : String × Nat) : Except FormatError Scan :=
  let cs := line.1.toList
  match x.mode with
  | .between =>
    if holds ['\x7b', '*', '\x7d'] cs then do
      return { x with mode := .afterHeader line.2 (← stateIndex line.2 x.options.numStates cs) }
    else .ok x
  | .afterHeader _ state =>
    if cs.contains '\x7b' then
      .ok { x with mode := .within (StateAssembly.start (x.context state)) }
    else do
      let a ← (StateAssembly.start (x.context state)).addSingleLeaf line.2 (trimBy isBlank cs)
      return x.store state (← a.finish line.2)
  | .within a =>
    if cs.contains '\x7d' then do return x.store a.context.state (← a.finish line.2)
    else if allBlank line.1 then .ok x
    else do return { x with mode := .within (← a.addLine line.2 line.1) }

/-- The trees at the end of a file of `count` lines. States that did not occur have
no nodes. -/
def finish (x : Scan) (count : Nat) : Except FormatError StateTrees :=
  match x.mode with
  | .between =>
    .ok ⟨x.trees.toList.map fun t => t.getD (Cart.empty x.schema), x.tables.map (·.vectorSize)⟩
  | .afterHeader line _ => .error (.invalidLine line .headerWithoutTree)
  | .within a => .error (.bracketMismatch count (.unclosedState (a.context.state + 2)))

end Scan

/-- The text of an encoded line. -/
def decodeLine (bytes : List UInt8) : Except FormatError String :=
  match Utf8.decode? bytes with
  | some text => .ok text
  | none => .error (.stream .invalidText)

/-- Whether a line belongs to the questions. -/
def isQuestion (text : String) : Bool := holds ['Q', 'S'] text.toList

/-- The trees of an encoded file. The leaves get their densities from tables, if
there are some. -/
def ofText (s : Schema) (o : Options) (tables : Option PdfTables) (bytes : List UInt8) :
    Except FormatError StateTrees := do
  if o.numStates = 0 then .error (.invalidValue "state count" "0")
  else
    let texts ← (byteLines bytes).mapM decodeLine
    let blocks := (texts.zipIdx 1).dropWhile fun l => isQuestion l.1
    let start : Scan :=
      { schema := s, options := o, tables, trees := Array.replicate o.numStates none }
    (← blocks.foldlM Scan.addLine start).finish texts.length

/-- The trees of a file and of a file of densities, which is read first and whose
format has to be given. -/
def ofFiles (s : Schema) (o : Options) (format : Option PdfFormat) (densities : Option (List UInt8))
    (bytes : List UInt8) : Except FormatError StateTrees := do
  match densities with
  | none => ofText s o none bytes
  | some table =>
    match format with
    | none => .error (.invalidValue "pdf format" "unset")
    | some format => ofText s o (some (← PdfTables.ofBytes format o.numStates table)) bytes

end FeatureTree.Hts
