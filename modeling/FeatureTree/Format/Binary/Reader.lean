/-
Reading trees from binary streams.

After the header come the properties, the schema, the decisions and the leaves.
A decision names its children by reference: `-1`, `-2`, … are the decisions and
`1`, `2`, … the leaves in their order in the stream, and `0` is an empty slot.
The first decision is the root; without decisions a sole leaf is.

* `Binary.read` — a tree from a stream;
* `Binary.ofBytes` — the tree at the front of a byte sequence.
-/
import FeatureTree.Format.Header
import FeatureTree.Format.PropertyText
import FeatureTree.Format.SchemaBlock
import FeatureTree.Tree.Cart

namespace FeatureTree.Binary

/-- A decision of a stream, with the references to its children. -/
structure DecisionRecord where
  decision : Decision
  references : List Int32

/-- Reads the index of a feature of the schema. -/
def readFeature (s : Schema) : Reader Nat := do
  let raw := (← Reader.int32).toInt
  if 0 ≤ raw ∧ raw.toNat < s.size then return raw.toNat
  else Reader.fail (.invalidValue "feature index" (toString raw))

/-- Reads the number of slots of a many-way decision, which is the number of
values of its feature. -/
def readSlots (s : Schema) (node feature : Nat) : Reader Nat := do
  let declared := (← Reader.int32).toInt
  let m ← Reader.ofExcept (FormatError.ofSchema (s.feature feature))
  if declared = m.values.size then return m.values.size
  else Reader.fail (.childCountMismatch node m.name m.values.size declared.toNat)

/-- Reads the test of a decision and gives the decision with empty slots. -/
def readTest (s : Schema) (node feature : Nat) : Reader Decision := do
  let tag ← Reader.int32
  if tag = 0 then
    let raw := (← Reader.int32).toInt
    if 0 ≤ raw ∧ raw < 0x100 then return .byteEquals feature (UInt8.ofNat raw.toNat)
    else Reader.fail (.invalidValue "byte criterion" (toString raw))
  else if tag = 1 then
    let raw := (← Reader.int32).toInt
    if -0x8000 ≤ raw ∧ raw < 0x8000 then return .shortEquals feature (Int16.ofInt raw)
    else Reader.fail (.invalidValue "short criterion" (toString raw))
  else if tag = 2 then return .below feature (← Reader.single)
  else if tag = 3 then return .byteOf feature (← readSlots s node feature)
  else if tag = 4 then return .shortOf feature (← readSlots s node feature)
  else Reader.fail (.unknownDecisionTag tag)

/-- Reads a decision. -/
def readDecision (s : Schema) (node : Nat) : Reader DecisionRecord := do
  let feature ← readFeature s
  let decision ← readTest s node feature
  let references ← Reader.repeated decision.children.size Reader.int32
  return { decision, references }

/-- Reads an index and its weight. -/
def readPair : Reader (Int32 × Single) := do
  let index ← Reader.int32
  let weight ← Reader.single
  return (index, weight)

/-- Reads indices with their weights. -/
def readPairs : Reader WeightedIndices := do
  return ⟨← Reader.repeated (← Reader.count "leaf pair count") readPair⟩

/-- Reads a leaf. Symbol leaves refer to the given feature. -/
def readLeaf (symbolFeature : Option Nat) : Reader Payload := do
  let tag ← Reader.int32
  match LeafKind.ofTag? tag.toInt with
  | none => Reader.fail (.unknownLeafTag tag)
  | some .indices =>
    return .indices (← Reader.repeated (← Reader.count "leaf data count") Reader.int32)
  | some .gaussian =>
    let stddev ← Reader.single
    let mean ← Reader.single
    return .gaussian ⟨stddev, mean⟩
  | some .weightedIndices => return .weightedIndices (← readPairs)
  | some .weightedSymbols => return .weightedSymbols ⟨← readPairs, symbolFeature⟩
  | some kind => Reader.fail (.unsupportedLeaf kind)

/-- The node that a reference names when the leaves follow the decisions. -/
def resolve (decisions leaves : Nat) (reference : Int32) : Except FormatError (Option NodeId) :=
  let r := reference.toInt
  if r = 0 then .ok none
  else if r < 0 ∧ (-r).toNat ≤ decisions then .ok (some ((-r).toNat - 1))
  else if 0 < r ∧ r.toNat ≤ leaves then .ok (some (decisions + (r.toNat - 1)))
  else .error (.danglingReference r decisions leaves)

/-- Attaches the children of one decision. -/
def linkRecord (decisions leaves : Nat) (b : Builder) (record : DecisionRecord × NodeId) :
    Except FormatError Builder :=
  record.1.references.zipIdx.foldlM (fun b (reference, slot) => do
    let child ← resolve decisions leaves reference
    FormatError.ofGraph (b.setChild record.2 slot child)) b

/-- The arena of the decisions and leaves of a stream. -/
def assemble (s : Schema) (records : List DecisionRecord) (leaves : List Payload) :
    Except FormatError Builder := do
  let b := records.foldl (fun b r => (b.addDecision r.decision).1) (Builder.empty s)
  let b := leaves.foldl (fun b p => (b.addLeaf p).1) b
  let b ← records.zipIdx.foldlM (linkRecord records.length leaves.length) b
  if records.isEmpty && leaves.length != 1 then return Builder.empty s
  else return b.setRoot 0

/-- Reads a tree.  `symbolFeature` names the feature whose values the indices of
symbol leaves stand for. -/
def read (symbolFeature : Option String) : Reader Cart := do
  Header.expect .carts
  let properties ← PropertyText.readBlock
  let s ← SchemaBlock.read
  let symbol ← Reader.ofExcept (FormatError.ofSchema (symbolFeature.mapM s.featureIndex))
  let records ← Reader.indexed (← Reader.count "decision node count") (readDecision s)
  let leaves ← Reader.repeated (← Reader.count "leaf count") (readLeaf symbol)
  let b ← Reader.ofExcept (assemble s records leaves)
  Reader.ofExcept (FormatError.ofGraph
    (Cart.ofBuilder? (b.setProperties (properties.getD .empty))))

/-- The tree at the front of a byte sequence. -/
def ofBytes (symbolFeature : Option String) (bytes : List UInt8) : Except FormatError Cart :=
  (read symbolFeature bytes).map (·.1)

end FeatureTree.Binary
