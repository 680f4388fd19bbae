/-
Faults: calls outside the contract of an operation.

An error says that some input is wrong and is an ordinary answer.  A fault says
that the call itself should not have been made, such as looking up a node that
the arena does not hold; no answer is defined for it.
-/
import FeatureTree.Leaf.Kind

namespace FeatureTree

/-- What payloads can be put together: lists of indices or lists of vectors. -/
inductive CollectionKind where
  | indices
  | featureVectors
  deriving DecidableEq, Repr

/-- A call outside the contract of an operation. -/
inductive Fault where
  /-- The arena has no node of this number. -/
  | noNode (id : Nat)
  /-- The vector has no feature of the wanted kind at this index. -/
  | noFeature (index : Nat)
  /-- The lists of indices and of weights differ in length. -/
  | unequalWeights (indices weights : Nat)
  /-- A payload of this kind cannot join the collection. -/
  | mixedPayloads (kind : LeafKind) (collection : CollectionKind)
  /-- A symbol was asked of a leaf that has no weighted entries. -/
  | unweightedLeaf (kind : LeafKind)
  /-- The way, down to the children or up to the parents, runs in a circle. -/
  | endless
  /-- A table of this many slots cannot be addressed. -/
  | tooManySlots (slots : Nat)
  /-- A compared value lies outside the tolerance. -/
  | notClose
  deriving DecidableEq, Repr

/-- The wording of a fault, for those that are reported in words. -/
def Fault.message? : Fault → Option String
  | mixedPayloads kind .indices =>
    some ("cannot concatenate " ++ kind.typeName ++ " leaf payload with index payload")
  | mixedPayloads kind .featureVectors =>
    some ("cannot concatenate " ++ kind.typeName ++ " leaf payload with feature-vector payload")
  | unweightedLeaf kind =>
    some ("symbol prediction requires a weighted leaf, found Some(" ++ kind.name ++ ")")
  | _ => none

end FeatureTree
