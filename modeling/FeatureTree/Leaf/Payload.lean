/-
Payloads: what a leaf holds.

* `Payload` — one constructor per kind of leaf;
* `WeightedIndices.mostProbable` — the first of the entries whose weight is
  greatest;
* `Payload.collect` — the payloads of several leaves as one list.

Design: indices and their weights are one list of pairs, so that they cannot
differ in length.
-/
import FeatureTree.Fault
import FeatureTree.Schema.Vector

namespace FeatureTree

/-- Standard deviation and mean of a regression leaf. -/
structure Gaussian where
  stddev : Single
  mean : Single
  deriving DecidableEq, Repr, Inhabited

/-- Indices with their weights. -/
structure WeightedIndices where
  entries : List (Int32 × Single)
  deriving DecidableEq, Repr, Inhabited

namespace WeightedIndices

/-- No entries. -/
def empty : WeightedIndices := ⟨[]⟩

/-- The entries of two lists of the same length. -/
def ofLists (indices : List Int32) (weights : List Single) : Except Fault WeightedIndices :=
  if indices.length = weights.length then .ok ⟨indices.zip weights⟩
  else .error (.unequalWeights indices.length weights.length)

variable (w : WeightedIndices)

/-- The indices alone. -/
def indices : List Int32 := w.entries.map (·.1)

/-- The weights alone. -/
def weights : List Single := w.entries.map (·.2)

/-- One step of the search for the greatest weight: a later entry has to be
strictly greater than the best one so far. -/
def better (best : Option (Int32 × Single)) (entry : Int32 × Single) : Option (Int32 × Single) :=
  let bar : Single := (best.map (·.2)).getD (Floating.infinity true)
  if bar.lt entry.2 then some entry else best

/-- The first entry whose weight is the greatest.  Entries that weigh nothing
comparable or minus infinity are never chosen. -/
def mostProbable : Option (Int32 × Single) := w.entries.foldl better none

end WeightedIndices

/-- Weighted symbols: indices into the values of a feature, if one is known. -/
structure SymbolWeights where
  entries : WeightedIndices
  feature : Option Nat
  deriving DecidableEq, Repr, Inhabited

/-- The density of a state: the number of the leaf, the means and variances, and
the weight of the voiced part where there is one. -/
structure PdfLeaf where
  id : Nat
  mean : List Double := []
  variance : List Double := []
  voicedWeight : Option Double := none
  deriving DecidableEq, Repr, Inhabited

/-- What a leaf holds. -/
inductive Payload where
  | indices (data : List Int32)
  | gaussian (g : Gaussian)
  | weightedIndices (w : WeightedIndices)
  | weightedSymbols (s : SymbolWeights)
  | featureVectors (vectors : List FeatureVector)
  | pdf (p : PdfLeaf)
  deriving DecidableEq, Repr, Inhabited

namespace Payload

/-- The payload of a kind that holds nothing; numbers are zero. -/
def empty : LeafKind → Payload
  | .indices => indices []
  | .gaussian => gaussian ⟨Floating.zero, Floating.zero⟩
  | .weightedIndices => weightedIndices .empty
  | .weightedSymbols => weightedSymbols ⟨.empty, none⟩
  | .featureVectors => featureVectors []
  | .pdf => pdf { id := 0 }

/-- The kind of a payload. -/
def kind : Payload → LeafKind
  | indices _ => .indices
  | gaussian _ => .gaussian
  | weightedIndices _ => .weightedIndices
  | weightedSymbols _ => .weightedSymbols
  | featureVectors _ => .featureVectors
  | pdf _ => .pdf

/-- Number of data points: the length of a list, one for a distribution. -/
def dataCount : Payload → Nat
  | indices data => data.length
  | gaussian _ => 1
  | weightedIndices w => w.entries.length
  | weightedSymbols s => s.entries.entries.length
  | featureVectors vectors => vectors.length
  | pdf _ => 1

/-- Whether a payload holds no data; distributions always hold some. -/
def isEmpty (p : Payload) : Bool := p.dataCount == 0

/-- The indices of the payloads that have some. -/
def indices? : Payload → Option (List Int32)
  | indices data => some data
  | weightedIndices w => some w.indices
  | weightedSymbols s => some s.entries.indices
  | _ => none

/-- The weighted entries of the payloads that have some. -/
def weighted? : Payload → Option WeightedIndices
  | weightedIndices w => some w
  | weightedSymbols s => some s.entries
  | _ => none

/-- The index of greatest weight. -/
def mostProbableIndex? (p : Payload) : Option Int32 :=
  p.weighted?.bind fun w => w.mostProbable.map (·.1)

end Payload

/-- The payloads of several leaves put together. -/
inductive Collection where
  | indices (data : List Int32)
  | featureVectors (vectors : List FeatureVector)
  deriving DecidableEq, Repr

namespace Collection

/-- Number of elements. -/
def length : Collection → Nat
  | indices data => data.length
  | featureVectors vectors => vectors.length

/-- An empty collection for payloads like this one; distributions cannot be
collected. -/
def like? : Payload → Option Collection
  | .featureVectors _ => some (featureVectors [])
  | p => p.indices?.map fun _ => indices []

/-- The collection with the elements of one more payload at its end. -/
def append : Collection → Payload → Except Fault Collection
  | featureVectors vectors, .featureVectors more => .ok (featureVectors (vectors ++ more))
  | featureVectors _, p => .error (.mixedPayloads p.kind .featureVectors)
  | indices data, p =>
    match p.indices? with
    | some more => .ok (indices (data ++ more))
    | none => .error (.mixedPayloads p.kind .indices)

end Collection

namespace Payload

/-- The elements of a list of payloads in order, `none` if the list is empty or
its first payload cannot be collected. -/
def collect : List Payload → Except Fault (Option Collection)
  | [] => .ok none
  | first :: rest =>
    match Collection.like? first with
    | none => .ok none
    | some start => do
      let all ← (first :: rest).foldlM Collection.append start
      return some all

end Payload

end FeatureTree
