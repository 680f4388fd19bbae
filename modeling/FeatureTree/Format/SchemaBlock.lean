/-
Schemas in binary streams.

One section for each kind of feature, byte-valued, short-valued and continuous:
the number of features, then for each its weight, its name and its values.  A
continuous feature has its weighting function before the name, empty for none.

* `SchemaBlock.read` — a schema from a stream;
* `SchemaBlock.bytes` — the bytes of a schema.
-/
import FeatureTree.Stream.Reader
import FeatureTree.Stream.Writer

namespace FeatureTree.SchemaBlock

/-- Reads a byte-valued feature. -/
def readByteFeature : Reader FeatureMeta := do
  let weight ← Reader.single
  let name ← Reader.string
  let values ← Reader.repeated (← Reader.uint8).toNat Reader.string
  return { FeatureMeta.byte name values.toArray with weight }

/-- Reads a short-valued feature. -/
def readShortFeature : Reader FeatureMeta := do
  let weight ← Reader.single
  let name ← Reader.string
  let n := (← Reader.int16).toInt
  if n < 0 then Reader.fail (.invalidValue "short feature value count" (toString n))
  else
    let values ← Reader.repeated n.toNat Reader.string
    return { FeatureMeta.short name values.toArray with weight }

/-- Reads a continuous feature. -/
def readContinuousFeature : Reader FeatureMeta := do
  let weight ← Reader.single
  let function ← Reader.string
  let name ← Reader.string
  let weightFunction := if function.isEmpty then none else some function
  return { FeatureMeta.continuous name with weight, weightFunction }

/-- Reads a schema. -/
def read : Reader Schema := do
  let bytes ← Reader.repeated (← Reader.count "byte feature count") readByteFeature
  let shorts ← Reader.repeated (← Reader.count "short feature count") readShortFeature
  let floats ← Reader.repeated (← Reader.count "continuous feature count") readContinuousFeature
  Reader.ofExcept (FormatError.ofSchema (Schema.ofFeatures? (bytes ++ shorts ++ floats)))

/-- The bytes of one feature. The value counts fit their fields, by the limits of
the schema. -/
def featureBytes (m : FeatureMeta) : Stream.Encoded :=
  let weight : Stream.Encoded := .ok (Stream.singleBytes m.weight)
  match m.kind with
  | .byte =>
    Stream.concat [weight, Stream.stringBytes m.name, .ok (Stream.bigEndian 1 m.values.size),
      Stream.stringsBytes m.values.toList]
  | .short =>
    Stream.concat [weight, Stream.stringBytes m.name, .ok (Stream.bigEndian 2 m.values.size),
      Stream.stringsBytes m.values.toList]
  | .continuous =>
    Stream.concat [weight, Stream.stringBytes (m.weightFunction.getD ""),
      Stream.stringBytes m.name]

/-- The bytes of the features of one kind, their number in front. -/
def sectionBytes (s : Schema) (kind : FeatureKind) : Stream.Encoded :=
  let features := Schema.ofKind kind s.features.toList
  Stream.concat (Stream.lengthBytes features.length :: features.map featureBytes)

/-- The bytes of a schema. -/
def bytes (s : Schema) : Stream.Encoded :=
  Stream.concat [sectionBytes s .byte, sectionBytes s .short, sectionBytes s .continuous]

end FeatureTree.SchemaBlock
