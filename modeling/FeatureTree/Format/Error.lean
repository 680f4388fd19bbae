/-
Errors of reading and writing trees.

* `FormatError` — why a stream or a text is refused;
* `WriteError` — why a tree cannot be written;
* `LineFault`, `BracketFault` — what is wrong with a line, and with its brackets.

Every type has its wording in a function `message`; where an error wraps another
one, the wording is that of the wrapped error.
-/
import FeatureTree.Format.Wagon.Kind
import FeatureTree.Stream.Error
import FeatureTree.Symbol.Table
import FeatureTree.Tree.Arena

namespace FeatureTree

/-- The content that a header declares. -/
inductive ContentType where
  | unknown
  | carts
  | directedGraph
  deriving DecidableEq, Repr

namespace ContentType

/-- The number of a content type. -/
def code : ContentType → Int32
  | unknown => 0
  | carts => 100
  | directedGraph => 110

/-- The content type with a number, if there is one. -/
def ofCode? (n : Int32) : Option ContentType :=
  [unknown, carts, directedGraph].find? (·.code == n)

/-- The name of a content type. -/
def name : ContentType → String
  | unknown => "Unknown"
  | carts => "Carts"
  | directedGraph => "DirectedGraph"

end ContentType

/-- What is wrong with a line. -/
inductive LineFault where
  -- lines of bracketed trees
  | noOpeningBrackets (line : String)
  | noOperator
  | noOperand
  | openDecision
  | regressionValues (count : Nat)
  | topLevelData
  | leafIndex (text : String)
  | leafWeight (text : String)
  -- lines of state trees
  | phonePair
  | headerWithoutTree
  | headerWithoutState
  | fieldCount (count : Nat)
  | nodeId (text : String)
  | questionWithoutValue (question : String)
  | nodeReference (text : String)
  | leafName (name : String)
  -- lines of schema texts
  | wrongSection (expected found : String)
  | noWeightSeparator
  | negativeWeight (weight : Single)
  | noFeatureName
  deriving DecidableEq, Repr

/-- The wording of a fault. -/
def LineFault.message : LineFault → String
  | noOpeningBrackets line => "expected '((' at start of '" ++ line ++ "'"
  | noOperator => "decision without operator"
  | noOperand => "decision without value"
  | openDecision => "decision line must end with ')'"
  | regressionValues count => "regression leaf needs two values, got " ++ toString count
  | topLevelData => "top-level leaf is not empty"
  | leafIndex text => "invalid leaf index '" ++ text ++ "'"
  | leafWeight text => "invalid leaf weight '" ++ text ++ "'"
  | phonePair => "expected '<phone> <replacement>'"
  | headerWithoutTree => "state header without a tree"
  | headerWithoutState => "state header without '[k]'"
  | fieldCount count => "expected 4 fields, got " ++ toString count
  | nodeId text => "'" ++ text ++ "' is not a decision node id"
  | questionWithoutValue question => "question '" ++ question ++ "' has no '='"
  | nodeReference text => "invalid node reference '" ++ text ++ "'"
  | leafName name => "invalid leaf name '" ++ name ++ "'"
  | wrongSection expected found => "expected '" ++ expected ++ "', read '" ++ found ++ "'"
  | noWeightSeparator => "weight separator '|' not found"
  | negativeWeight weight => "negative weight " ++ weight.render
  | noFeatureName => "missing feature name"

/-- What is wrong with the brackets of a line. -/
inductive BracketFault where
  | afterCompleteTree
  | regressionNotClosed (token : String)
  | leafNotClosed (token : String)
  | notClosing (found : Char)
  | nothingOpen
  | tooManyClosing
  | unclosedAtEnd (count : Nat)
  | unclosedState (state : Nat)
  deriving DecidableEq, Repr

/-- The wording of a fault. -/
def BracketFault.message : BracketFault → String
  | afterCompleteTree => "node after a complete tree"
  | regressionNotClosed token =>
    "regression leaf must close with '))' after the mean, found '" ++ token ++ "'"
  | leafNotClosed token => "leaf must end with '))', found '" ++ token ++ "'"
  | notClosing found => "expected closing bracket, found '" ++ String.singleton found ++ "'"
  | nothingOpen => "closing bracket without an open decision"
  | tooManyClosing => "too many closing brackets"
  | unclosedAtEnd count => toString count ++ " unclosed brackets at end of input"
  | unclosedState state => "state block " ++ toString state ++ " is not closed"

/-- Why a stream or a text is refused. -/
inductive FormatError where
  | stream (e : StreamError)
  | notACart (magic : UInt32)
  | unsupportedVersion (found expected : Int32)
  | typeMismatch (expected : ContentType) (actual : Int32)
  | truncated (what : String)
  | unknownDecisionTag (tag : Int32)
  | unknownLeafTag (tag : Int32)
  | unsupportedLeaf (kind : LeafKind)
  | childCountMismatch (node : Nat) (feature : String) (expected actual : Nat)
  | danglingReference (reference : Int) (decisions leaves : Nat)
  | bracketMismatch (line : Nat) (fault : BracketFault)
  | invalidLine (line : Nat) (fault : LineFault)
  | invalidValue (field value : String)
  | unknownOperator (line : Nat) (operator : String)
  | unknownNode (line : Nat) (id : String)
  | schema (e : SchemaError)
  | graph (e : GraphError)
  | symbolTable (e : SymbolTableError)
  /-- The text asks for something outside the contract of an operation. -/
  | outOfContract (e : Fault)
  deriving DecidableEq, Repr

/-- A word of 32 bits in hexadecimal, with all its digits. -/
def renderHex32 (n : UInt32) : String :=
  let digits := Nat.toDigits 16 n.toNat
  String.ofList ('0' :: 'x' :: (List.replicate (8 - digits.length) '0' ++ digits))

/-- The wording of an error. -/
def FormatError.message : FormatError → String
  | stream e => "I/O error: " ++ e.message
  | notACart magic => "not a tree file (magic " ++ renderHex32 magic ++ ")"
  | unsupportedVersion found expected =>
    "unsupported format version " ++ toString found.toInt ++ ", expected "
      ++ toString expected.toInt
  | typeMismatch expected actual =>
    "content type mismatch: expected " ++ expected.name ++ ", got " ++ toString actual.toInt
  | truncated what => "unexpected end of data while reading " ++ what
  | unknownDecisionTag tag => "unknown decision node tag " ++ toString tag.toInt
  | unknownLeafTag tag => "unknown leaf tag " ++ toString tag.toInt
  | unsupportedLeaf kind => "reading " ++ kind.typeName ++ " leaves is not supported"
  | childCountMismatch node feature expected actual =>
    "feature '" ++ feature ++ "' has " ++ toString expected ++ " values, but decision node "
      ++ toString node ++ " has " ++ toString actual ++ " children"
  | danglingReference reference decisions leaves =>
    "child reference " ++ toString reference ++ " out of range (" ++ toString decisions
      ++ " decision nodes, " ++ toString leaves ++ " leaves)"
  | bracketMismatch line fault =>
    "bracket mismatch at line " ++ toString line ++ ": " ++ fault.message
  | invalidLine line fault => "invalid line " ++ toString line ++ ": " ++ fault.message
  | invalidValue field value => "invalid value '" ++ value ++ "' for " ++ field
  | unknownOperator line operator =>
    "unknown operator '" ++ operator ++ "' at line " ++ toString line
  | unknownNode line id => "unknown node id '" ++ id ++ "' at line " ++ toString line
  | schema e => e.message
  | graph e => e.message
  | symbolTable e => e.message
  | outOfContract e => e.message?.getD ""

namespace FormatError

/-- An answer about the schema as an answer of reading. -/
def ofSchema {α : Type} : Except SchemaError α → Except FormatError α := Except.mapError .schema

/-- An answer about a graph as an answer of reading. -/
def ofGraph {α : Type} : Except GraphError α → Except FormatError α := Except.mapError .graph

/-- An answer about a symbol table as an answer of reading. -/
def ofSymbolTable {α : Type} : Except SymbolTableError α → Except FormatError α :=
  Except.mapError .symbolTable

/-- An answer that may be a fault as an answer of reading. -/
def ofFault {α : Type} : Except Fault α → Except FormatError α := Except.mapError .outOfContract

end FormatError

/-- What a format cannot hold. -/
inductive Unwritable where
  | pdfLeavesInBinary
  | pdfLeavesInWagon
  | graphNodesInWagon
  | unitIndex (unit : UInt32)
  | leafInTree (leaf : LeafKind) (tree : WagonKind)
  deriving DecidableEq, Repr

/-- The wording of what cannot be held. -/
def Unwritable.message : Unwritable → String
  | pdfLeavesInBinary => "pdf leaves in the binary format"
  | pdfLeavesInWagon => "pdf leaves in wagon trees"
  | graphNodesInWagon => "graph nodes in wagon trees"
  | unitIndex unit => "unit index " ++ toString unit.toNat ++ " beyond the int range"
  | leafInTree leaf tree => leaf.typeName ++ " in a " ++ tree.name ++ " tree"

/-- Why a tree cannot be written. -/
inductive WriteError where
  | stream (e : StreamError)
  | unsupported (what : Unwritable)
  | symbolTable (e : SymbolTableError)
  deriving DecidableEq, Repr

/-- The wording of an error. -/
def WriteError.message : WriteError → String
  | stream e => "I/O error: " ++ e.message
  | unsupported what => "cannot write " ++ what.message
  | symbolTable e => e.message

/-- Bytes of a stream as an answer of writing a tree. -/
def WriteError.ofStream {α : Type} : Except StreamError α → Except WriteError α :=
  Except.mapError .stream

end FeatureTree
