/-
Trees that predict strings from a symbol table of their own.

The weighted entries of a leaf are indices into the table; the prediction for a
vector is the symbol whose weight is greatest.
-/
import FeatureTree.Symbol.Table
import FeatureTree.Tree.Cart

namespace FeatureTree

/-- A tree with the symbols that its leaves refer to. -/
structure StringTree where
  tree : Cart
  symbols : List String

namespace StringTree

variable (t : StringTree)

/-- The header line of the symbols. -/
def header : Except SymbolTableError String := SymbolTable.render t.symbols

/-- The symbol with an index, if the table has one. -/
def symbol? (index : Int32) : Option String :=
  if 0 ≤ index.toInt then t.symbols[index.toInt.toNat]? else none

/-- The symbol of greatest weight in the leaf that a vector reaches.  `none` when
the way ends in an empty slot, no entry has a comparable weight, or the index is
outside the table. -/
def predict (v : FeatureVector) : Except Fault (Option String) := do
  match ← t.tree.nodeFor v 0 with
  | none => return none
  | some id =>
    match (← t.tree.arena.node id).payload? with
    | none => return none
    | some p =>
      match p.weighted? with
      | none => .error (.unweightedLeaf p.kind)
      | some w => return w.mostProbable.bind fun e => t.symbol? e.1

end StringTree

end FeatureTree
