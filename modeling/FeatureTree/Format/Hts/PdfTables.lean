/-
Tables of densities for the leaves of state trees.

A table starts with three words, a flag, the number of streams and the size of
the vectors, and goes on with the number of densities of every state and the
densities themselves.  What a density consists of depends on the format.

* `PdfTables.read` — a table from a stream;
* `PdfTables.leaf?` — the density for a leaf of a state.
-/
import FeatureTree.Leaf.Payload
import FeatureTree.Stream.Reader

namespace FeatureTree

/-- What a table of densities is for. -/
inductive PdfFormat where
  | dur
  | join
  | lf0
  | mgc
  | str
  | mag
  deriving DecidableEq, Repr, Inhabited

namespace PdfFormat

/-- The name of a format. -/
def name : PdfFormat → String
  | dur => "dur"
  | join => "join"
  | lf0 => "lf0"
  | mgc => "mgc"
  | str => "str"
  | mag => "mag"

/-- The format with a name, if there is one. -/
def ofName? (s : String) : Option PdfFormat :=
  [dur, join, lf0, mgc, str, mag].find? (·.name == s)

end PdfFormat

/-- The densities of every state, by the number of the leaf less one. -/
structure PdfTables where
  format : PdfFormat
  vectorSize : Nat
  states : Array (Array PdfLeaf)
  deriving DecidableEq, Repr

namespace PdfTables

/-- A number of 32 bits as one of 64. -/
def readDouble : Reader Double := do return (← Reader.single).convert .double

/-- A mean and a variance. -/
def readMoments : Reader (Double × Double) := do
  let mean ← readDouble
  let variance ← readDouble
  return (mean, variance)

/-- The density of leaf `index + 1`: a mean and a variance for every dimension. -/
def readPlain (dimensions index : Nat) : Reader PdfLeaf := do
  let moments ← Reader.repeated dimensions readMoments
  return { id := index + 1, mean := moments.map (·.1), variance := moments.map (·.2) }

/-- The least sum of the two weights of a stream. -/
def leastWeightSum : Double := Floating.ofDecimal false ⟨99, -2⟩

/-- The greatest sum of the two weights of a stream. -/
def greatestWeightSum : Double := Floating.ofDecimal false ⟨101, -2⟩

/-- Whether the weights of the voiced and the unvoiced part of a stream are not
negative and add up to one, roughly. -/
def weightsAgree (voiced unvoiced : Double) : Bool :=
  let sum := voiced.add unvoiced
  !voiced.lt Floating.zero && !unvoiced.lt Floating.zero
    && leastWeightSum.le sum && sum.le greatestWeightSum

/-- A mean, a variance and the weight of the voiced part of a stream. -/
def readVoicedStream : Reader ((Double × Double) × Double) := do
  let moments ← readMoments
  let voiced ← readDouble
  let unvoiced ← readDouble
  if weightsAgree voiced unvoiced then return (moments, voiced)
  else
    Reader.fail
      (.invalidValue "voiced/unvoiced weights" (voiced.render ++ " + " ++ unvoiced.render))

/-- The density of leaf `index + 1` with the weights of its voiced parts, of which
the first one is kept. -/
def readVoiced (streams index : Nat) : Reader PdfLeaf := do
  let parts ← Reader.repeated streams readVoicedStream
  return {
    id := index + 1
    mean := parts.map (·.1.1)
    variance := parts.map (·.1.2)
    voicedWeight := parts.head?.map (·.2) }

/-- The densities of one state. -/
def readState (leaf : Nat → Reader PdfLeaf) (count : Nat) : Reader (Array PdfLeaf) := do
  return (← Reader.indexed count leaf).toArray

/-- The densities of states whose numbers of densities are given. -/
def readStates (leaf : Nat → Reader PdfLeaf) : List Nat → Reader (List (Array PdfLeaf))
  | [] => return []
  | count :: rest => do
    let state ← readState leaf count
    return state :: (← readStates leaf rest)

/-- Reads a table. The two formats for durations and joins have a single state,
the others the given number. -/
def read (format : PdfFormat) (numStates : Nat) : Reader PdfTables := do
  let _ ← Reader.int32
  let streams ← Reader.count "stream count"
  let vectorSize ← Reader.count "vector size"
  let single := format = .dur ∨ format = .join
  let counts ← Reader.repeated (if single then 1 else numStates) (Reader.count "pdf count")
  let leaf := if single then readPlain streams
    else if format = .lf0 then readVoiced streams
    else readPlain vectorSize
  let states ← readStates leaf counts
  return { format, vectorSize, states := states.toArray }

/-- The table at the front of a byte sequence. -/
def ofBytes (format : PdfFormat) (numStates : Nat) (bytes : List UInt8) :
    Except FormatError PdfTables :=
  (read format numStates bytes).map (·.1)

variable (t : PdfTables)

/-- Number of densities of a state. -/
def count (state : Nat) : Nat := (t.states[state]?.map Array.size).getD 0

/-- The density for leaf `id` of a state; leaves are counted from one. -/
def leaf? (state id : Nat) : Option PdfLeaf :=
  if id = 0 then none else t.states[state]?.bind fun leaves => leaves[id - 1]?

end PdfTables

end FeatureTree
