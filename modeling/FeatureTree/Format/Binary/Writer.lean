/-
Writing trees to binary streams, and dumping them as text.

Decisions and leaves are numbered in traversal order; a leaf without data gets
no number and is read back as an empty slot.  A leaf of feature vectors is
written as the list of its unit numbers.

* `Binary.Numbering.ofArena` — the numbers;
* `Binary.toBytes` — the bytes of a tree;
* `Binary.dump` — the same content as text.
-/
import FeatureTree.Format.Binary.Reader
import FeatureTree.Tree.Traversal

namespace FeatureTree.Binary

/-- The decisions and the leaves with data in traversal order, and the reference
of every node: negative for a decision, positive for a leaf, zero for a leaf
without data. -/
structure Numbering where
  references : Array Int
  decisions : Array Decision := #[]
  leaves : Array Payload := #[]

namespace Numbering

/-- The numbering with one more node. -/
def add (x : Numbering) (node : NodeId × Node) : Numbering :=
  match node.2.content with
  | .decision d =>
    { x with
      decisions := x.decisions.push d
      references := x.references.setIfInBounds node.1 (-(x.decisions.size + 1 : Nat)) }
  | .leaf p =>
    if p.isEmpty then x
    else
      { x with
        leaves := x.leaves.push p
        references := x.references.setIfInBounds node.1 (x.leaves.size + 1 : Nat) }
  | .graph _ => x

/-- The numbering of the nodes of an arena. -/
def ofArena (a : Arena) : Numbering :=
  (a.preorder a.root).nodes.foldl add { references := Array.replicate a.size 0 }

/-- The reference to what a child slot holds. -/
def reference (x : Numbering) : Option NodeId → Int
  | none => 0
  | some id => x.references[id]?.getD 0

end Numbering

/-- Refuses trees with leaves that the format does not hold. -/
def checkLeaves (t : Cart) : Except WriteError Unit :=
  let leaves := (t.arena.select t.arena.root .leavesOnly).nodes.filterMap fun p => p.2.payload?
  if leaves.any fun p => p.kind == .pdf then .error (.unsupported .pdfLeavesInBinary) else .ok ()

/-- The bytes of the criterion of a test. -/
def criterionBytes (d : Decision) : Stream.Encoded :=
  match d.test with
  | .byteEquals v => .ok (Stream.int32Bytes (Int32.ofNat v.toNat))
  | .shortEquals v => .ok (Stream.int32Bytes v.toInt32)
  | .below t => .ok (Stream.singleBytes t)
  | .byteOf => Stream.lengthBytes d.children.size
  | .shortOf => Stream.lengthBytes d.children.size

/-- The bytes of a decision. -/
def decisionBytes (x : Numbering) (d : Decision) : Stream.Encoded := do
  let references := d.children.toList.flatMap fun c =>
    Stream.int32Bytes (Int32.ofInt (x.reference c))
  return Stream.bigEndian 4 d.feature ++ Stream.int32Bytes (Int32.ofInt d.test.tag)
    ++ (← criterionBytes d) ++ references

/-- The kind under which a payload is stored. -/
def storedKind : Payload → LeafKind
  | .featureVectors _ => .indices
  | p => p.kind

/-- A unit number as a signed word. -/
def unitBytes (v : FeatureVector) : Except WriteError (List UInt8) :=
  if v.unit.toNat < 0x80000000 then .ok (Stream.uint32Bytes v.unit)
  else .error (.unsupported (.unitIndex v.unit))

/-- The bytes of indices with their weights. -/
def pairsBytes (w : WeightedIndices) : Stream.Encoded := do
  let entries := w.entries.flatMap fun e => Stream.int32Bytes e.1 ++ Stream.singleBytes e.2
  return (← Stream.lengthBytes w.entries.length) ++ entries

/-- The bytes of what a leaf holds. -/
def dataBytes : Payload → Except WriteError (List UInt8)
  | .indices data => do
    let count ← WriteError.ofStream (Stream.lengthBytes data.length)
    return count ++ data.flatMap Stream.int32Bytes
  | .gaussian g => .ok (Stream.singleBytes g.stddev ++ Stream.singleBytes g.mean)
  | .weightedIndices w => WriteError.ofStream (pairsBytes w)
  | .weightedSymbols s => WriteError.ofStream (pairsBytes s.entries)
  | .featureVectors vectors => do
    let count ← WriteError.ofStream (Stream.lengthBytes vectors.length)
    return count ++ (← vectors.mapM unitBytes).flatten
  | .pdf _ => .error (.unsupported .pdfLeavesInBinary)

/-- The bytes of a leaf. -/
def leafBytes (p : Payload) : Except WriteError (List UInt8) := do
  return Stream.int32Bytes (Int32.ofInt (storedKind p).tag) ++ (← dataBytes p)

/-- The bytes of a tree. -/
def toBytes (t : Cart) : Except WriteError (List UInt8) := do
  checkLeaves t
  let x := Numbering.ofArena t.arena
  let front ← WriteError.ofStream (Stream.concat
    [.ok (Header.bytes .carts), PropertyText.blockBytes t.arena.properties,
      SchemaBlock.bytes t.arena.schema])
  let decisions ← WriteError.ofStream (Stream.concat
    (Stream.lengthBytes x.decisions.size :: x.decisions.toList.map (decisionBytes x)))
  let leafCount ← WriteError.ofStream (Stream.lengthBytes x.leaves.size)
  let leaves ← x.leaves.toList.mapM leafBytes
  return front ++ decisions ++ leafCount ++ leaves.flatten

/-- A reference in a dump: decisions by number, leaves and empty slots marked. -/
def dumpReference (r : Int) : String := if r < 0 then " " ++ toString r else " id" ++ toString r

/-- The line of a decision. -/
def dumpDecision (s : Schema) (x : Numbering) (index : Nat) (d : Decision) : String :=
  "-" ++ toString (index + 1) ++ " " ++ d.describe s
    ++ String.join (d.children.toList.map fun c => dumpReference (x.reference c)) ++ "\n"

/-- The value name that a symbol index stands for, or the index. -/
def symbolLabel (s : Schema) (feature : Option Nat) (index : Int32) : String :=
  match feature.map fun f => s.valueName f index.toInt with
  | some (.ok name) => name
  | _ => toString index.toInt

/-- The data of weighted entries. -/
def dumpPairs (label : Int32 → String) (w : WeightedIndices) : String :=
  " " ++ toString w.entries.length
    ++ String.join (w.entries.map fun e => " " ++ label e.1 ++ " " ++ e.2.renderLower)

/-- The data of a leaf. -/
def dumpData (s : Schema) : Payload → String
  | .indices data =>
    " " ++ toString data.length ++ String.join (data.map fun i => " " ++ toString i.toInt)
  | .gaussian g => " 1 " ++ g.stddev.renderLower ++ " " ++ g.mean.renderLower
  | .weightedIndices w => dumpPairs (fun i => toString i.toInt) w
  | .weightedSymbols p => dumpPairs (symbolLabel s p.feature) p.entries
  | .featureVectors vectors =>
    " " ++ toString vectors.length
      ++ String.join (vectors.map fun v => " " ++ toString v.unit.toNat)
  | .pdf _ => ""

/-- The line of a leaf. -/
def dumpLeaf (s : Schema) (index : Nat) (p : Payload) : String :=
  "id" ++ toString (index + 1) ++ " " ++ (storedKind p).typeName ++ dumpData s p ++ "\n"

/-- The content of the binary form of a tree as text. -/
def dump (t : Cart) : Except WriteError String := do
  checkLeaves t
  let s := t.arena.schema
  let x := Numbering.ofArena t.arena
  return "Num decision nodes= " ++ toString x.decisions.size ++ "  Num leaf nodes= "
    ++ toString x.leaves.size ++ "\n"
    ++ String.join (x.decisions.toList.zipIdx.map fun (d, i) => dumpDecision s x i d)
    ++ "\n----------------\n\n"
    ++ String.join (x.leaves.toList.zipIdx.map fun (p, i) => dumpLeaf s i p)

end FeatureTree.Binary
