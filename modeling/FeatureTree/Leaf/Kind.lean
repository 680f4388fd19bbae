/-
The kinds of leaves, with the tags and type names that formats use for them.
-/

namespace FeatureTree

/-- What a leaf holds. -/
inductive LeafKind where
  | indices
  | gaussian
  | weightedIndices
  | weightedSymbols
  | featureVectors
  | pdf
  deriving DecidableEq, Repr, Inhabited

namespace LeafKind

/-- The number of a kind in binary streams. -/
def tag : LeafKind → Int
  | indices => 0
  | gaussian => 1
  | weightedIndices => 2
  | weightedSymbols => 3
  | featureVectors => 4
  | pdf => 5

/-- The kind with a tag, if there is one. -/
def ofTag? (t : Int) : Option LeafKind :=
  [indices, gaussian, weightedIndices, weightedSymbols, featureVectors, pdf].find? (·.tag == t)

/-- The type name of a kind in textual dumps and messages. -/
def typeName : LeafKind → String
  | indices => "IntArrayLeafNode"
  | gaussian => "FloatLeafNode"
  | weightedIndices => "IntAndFloatArrayLeafNode"
  | weightedSymbols => "StringAndFloatLeafNode"
  | featureVectors => "FeatureVectorLeafNode"
  | pdf => "PdfLeafNode"

/-- The name of a kind. -/
def name : LeafKind → String
  | indices => "Indices"
  | gaussian => "Gaussian"
  | weightedIndices => "WeightedIndices"
  | weightedSymbols => "WeightedSymbols"
  | featureVectors => "FeatureVectors"
  | pdf => "Pdf"

end LeafKind

end FeatureTree
