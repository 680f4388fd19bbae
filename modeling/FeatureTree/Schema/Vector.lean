/-
Feature vectors: one value per feature of a schema.

A `FeatureVector` keeps the values by kind, in the order of the schema's
features, so that a feature's index addresses the three sequences one after the
other.

* `Schema.vector`, `Schema.encode`, `Schema.parseVector` — the ways to build a
  vector for a schema: from values by kind, from value names, from a line of
  ordinals and numbers;
* `FeatureVector.byte?`, `FeatureVector.short?`, `FeatureVector.continuous?` —
  the value at an index, if the index addresses a feature of that kind.
-/
import FeatureTree.Numeric.Integer
import FeatureTree.Schema.Basic
import FeatureTree.Text.Blank

namespace FeatureTree

/-- The number of the unit that is described, and the values of its features by
kind. -/
structure FeatureVector where
  unit : UInt32
  bytes : Array UInt8
  shorts : Array Int16
  floats : Array Single
  deriving DecidableEq, Repr, Inhabited

namespace FeatureVector

variable (v : FeatureVector)

/-- Number of features. -/
def size : Nat := v.bytes.size + v.shorts.size + v.floats.size

/-- Number of features of each kind. -/
def shape : Nat × Nat × Nat := (v.bytes.size, v.shorts.size, v.floats.size)

/-- Whether an index addresses a byte-valued feature. -/
def isByte (index : Nat) : Bool := index < v.bytes.size

/-- Whether an index addresses a short-valued feature. -/
def isShort (index : Nat) : Bool :=
  v.bytes.size ≤ index && index < v.bytes.size + v.shorts.size

/-- The ordinal of the byte-valued feature at an index. -/
def byte? (index : Nat) : Option UInt8 := v.bytes[index]?

/-- The ordinal of the short-valued feature at an index. -/
def short? (index : Nat) : Option Int16 :=
  if v.bytes.size ≤ index then v.shorts[index - v.bytes.size]? else none

/-- The number of the continuous feature at an index. -/
def continuous? (index : Nat) : Option Single :=
  if v.bytes.size + v.shorts.size ≤ index then
    v.floats[index - v.bytes.size - v.shorts.size]?
  else none

/-- The ordinal of the discrete feature at an index. -/
def ordinal? (index : Nat) : Option Int :=
  if v.isByte index then (v.byte? index).map fun b => (b.toNat : Int)
  else (v.short? index).map Int16.toInt

/-- The value at an index as a number, whatever the kind. -/
def number? (index : Nat) : Option Single :=
  if v.isByte index then (v.byte? index).map fun b => Floating.ofInt b.toNat
  else if v.isShort index then (v.short? index).map fun x => Floating.ofInt x.toInt
  else v.continuous? index

end FeatureVector

/-- The value of one feature as it is stored. -/
inductive FeatureValue where
  | byte (ordinal : UInt8)
  | short (ordinal : Int16)
  | continuous (number : Single)
  deriving DecidableEq, Repr

namespace FeatureValue

/-- Reads a stored value: an ordinal, or a number for a continuous feature. -/
def parse? (kind : FeatureKind) (s : String) : Option FeatureValue :=
  match kind with
  | .byte => (Numeral.uint8? s).map byte
  | .short => (Numeral.int16? s).map short
  | .continuous => (Floating.parse? s).map continuous

/-- The vector that holds the given values, each kind in the order given. -/
def collect (unit : UInt32) (values : List FeatureValue) : FeatureVector where
  unit := unit
  bytes := (values.filterMap fun | byte b => some b | _ => none).toArray
  shorts := (values.filterMap fun | short x => some x | _ => none).toArray
  floats := (values.filterMap fun | continuous x => some x | _ => none).toArray

end FeatureValue

namespace Schema

variable (s : Schema)

/-- Whether a vector has as many values of each kind as the schema has features. -/
def Fits (v : FeatureVector) : Prop := v.shape = s.shape

instance (v : FeatureVector) : Decidable (s.Fits v) := inferInstanceAs (Decidable (_ = _))

/-- A vector of the given values by kind, if it fits the schema. -/
def vector (v : FeatureVector) : Except SchemaError FeatureVector :=
  if s.Fits v then .ok v else .error (.vectorShape s.shape v.shape)

/-- Reads one value per feature with `read` and collects them. -/
def readValues (read : Nat → FeatureMeta → String → Except SchemaError FeatureValue)
    (unit : UInt32) (values : List String) : Except SchemaError FeatureVector := do
  if values.length ≠ s.size then .error (.vectorShape s.shape (values.length, 0, 0))
  else
    let read ← (s.features.toList.zip values).zipIdx.mapM fun ((m, value), i) => read i m value
    return FeatureValue.collect unit read

/-- A vector from a line of ordinals and numbers, one per feature, with blanks
between them. -/
def parseVector (unit : UInt32) (line : String) : Except SchemaError FeatureVector :=
  s.readValues (fun _ m token =>
    match FeatureValue.parse? m.kind token with
    | some value => .ok value
    | none => .error (.invalidNumber m.name token)) unit (Text.wordsOf line)

/-- A vector from one text per feature: the value's name for a discrete feature,
a number for a continuous one. -/
def encode (unit : UInt32) (values : List String) : Except SchemaError FeatureVector :=
  s.readValues (fun i m value =>
    match m.kind with
    | .byte => (s.byteValue i value).map .byte
    | .short => (s.shortValue i value).map .short
    | .continuous =>
      match Floating.parse? value with
      | some x => .ok (.continuous x)
      | none => .error (.invalidNumber m.name value)) unit values

/-- The value of a vector at an index as text: the value's name, or the number.
`none` when the index addresses no value of the feature's kind in the vector. -/
def renderValue (v : FeatureVector) (index : Nat) : Option (Except SchemaError String) :=
  match s.feature index with
  | .error e => some (.error e)
  | .ok m =>
    if m.kind.isDiscrete then (v.ordinal? index).map (s.valueName index)
    else (v.continuous? index).map fun x => .ok x.render

end Schema

end FeatureTree
