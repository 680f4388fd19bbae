/-
The kinds of trees that the bracketed line format can hold.
-/
import FeatureTree.Leaf.Kind

namespace FeatureTree

/-- What the leaves of a bracketed tree are. -/
inductive WagonKind where
  | classification
  | extendedClassification
  | regression
  | topLevel
  | stringCart
  deriving DecidableEq, Repr, Inhabited

namespace WagonKind

/-- The kind of the leaves. -/
def leafKind : WagonKind → LeafKind
  | classification => .indices
  | extendedClassification => .weightedIndices
  | regression => .gaussian
  | topLevel => .featureVectors
  | stringCart => .weightedSymbols

/-- The name of a kind. -/
def name : WagonKind → String
  | classification => "Classification"
  | extendedClassification => "ExtendedClassification"
  | regression => "Regression"
  | topLevel => "TopLevel"
  | stringCart => "StringCart"

end WagonKind

end FeatureTree
