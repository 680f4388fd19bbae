/-
Decision nodes: a test on one feature and a child slot for every outcome.

* `DecisionTest` — the tests;
* `Decision.slot` — the slot that a vector selects;
* `Decision.describe`, `Decision.describeBranch` — the test and its outcomes in
  words.

The two-way tests have two slots, the first for the case that the test holds.
The many-way tests have one slot per value and select by ordinal.
-/
import FeatureTree.Fault
import FeatureTree.Schema.Vector

namespace FeatureTree

/-- Number of a node in its arena. -/
abbrev NodeId := Nat

/-- What a decision node asks about its feature: whether the ordinal equals a
value, whether the number is below a threshold, or which ordinal it is. -/
inductive DecisionTest where
  | byteEquals (value : UInt8)
  | shortEquals (value : Int16)
  | below (threshold : Single)
  | byteOf
  | shortOf
  deriving DecidableEq, Repr

namespace DecisionTest

/-- The number of a test in binary streams. -/
def tag : DecisionTest → Int
  | byteEquals _ => 0
  | shortEquals _ => 1
  | below _ => 2
  | byteOf => 3
  | shortOf => 4

/-- Whether a test has two outcomes. -/
def isBinary : DecisionTest → Bool
  | byteOf => false
  | shortOf => false
  | _ => true

/-- The kind of feature a test needs; thresholds apply to every kind. -/
def neededKind? : DecisionTest → Option FeatureKind
  | byteEquals _ => some .byte
  | shortEquals _ => some .short
  | below _ => none
  | byteOf => some .byte
  | shortOf => some .short

end DecisionTest

/-- A test on a feature, with the child in every slot. -/
structure Decision where
  feature : Nat
  test : DecisionTest
  children : Array (Option NodeId)
  deriving DecidableEq, Repr

namespace Decision

/-- A decision node with this many empty slots. -/
def ofSlots (feature : Nat) (test : DecisionTest) (slots : Nat) : Decision :=
  ⟨feature, test, Array.replicate slots none⟩

/-- The most slots of a decision.  A slot takes eight bytes, and a table of slots
has fewer than `2 ^ 63`. -/
def maxSlots : Nat := 0xFFFFFFFFFFFFFFF

/-- A number of slots, unless a table of that size cannot be addressed. -/
def checkSlots (slots : Nat) : Except Fault Nat :=
  if slots ≤ maxSlots then .ok slots else .error (.tooManySlots slots)

/-- Whether the ordinal of a byte-valued feature equals a value. -/
def byteEquals (feature : Nat) (value : UInt8) : Decision := ofSlots feature (.byteEquals value) 2

/-- Whether the ordinal of a short-valued feature equals a value. -/
def shortEquals (feature : Nat) (value : Int16) : Decision :=
  ofSlots feature (.shortEquals value) 2

/-- Whether the value of a feature is below a threshold. -/
def below (feature : Nat) (threshold : Single) : Decision := ofSlots feature (.below threshold) 2

/-- Which ordinal a byte-valued feature has. -/
def byteOf (feature : Nat) (slots : Nat) : Decision := ofSlots feature .byteOf slots

/-- Which ordinal a short-valued feature has. -/
def shortOf (feature : Nat) (slots : Nat) : Decision := ofSlots feature .shortOf slots

variable (d : Decision)

/-- The child in a slot; `none` for an empty slot and beyond the last one. -/
def child? (slot : Nat) : Option NodeId := d.children[slot]?.join

/-- A looked-up value; its absence is a fault of the vector. -/
def require {α : Type} (index : Nat) : Option α → Except Fault α
  | some a => .ok a
  | none => .error (.noFeature index)

/-- The slot of a two-way test: the first one if it holds. -/
def binarySlot (holds : Bool) : Nat := if holds then 0 else 1

/-- The slot that a vector selects.  A negative ordinal selects none. -/
def slot (v : FeatureVector) : Except Fault (Option Nat) :=
  match d.test with
  | .byteEquals value => do
    let b ← require d.feature (v.byte? d.feature)
    return some (binarySlot (b == value))
  | .shortEquals value => do
    let x ← require d.feature (v.short? d.feature)
    return some (binarySlot (x == value))
  | .below threshold => do
    let x ← require d.feature (v.number? d.feature)
    return some (binarySlot (x.lt threshold))
  | .byteOf => do
    let b ← require d.feature (v.byte? d.feature)
    return some b.toNat
  | .shortOf => do
    let x ← require d.feature (v.short? d.feature)
    return if x.toInt < 0 then none else some x.toInt.toNat

/-- The child that a vector selects; `none` when it selects an empty slot or no
slot at all. -/
def next? (v : FeatureVector) : Except Fault (Option NodeId) := do
  return (← d.slot v).bind d.child?

/-- The name of a feature, or its index where the schema has none. -/
def featureLabel (s : Schema) (feature : Nat) : String :=
  match s.feature feature with
  | .ok m => m.name
  | .error _ => "#" ++ toString feature

/-- The name of a value, or its ordinal where the schema has none. -/
def valueLabel (s : Schema) (feature : Nat) (ordinal : Int) : String :=
  match s.valueName feature ordinal with
  | .ok name => name
  | .error _ => toString ordinal

/-- The test in words, such as `color is red` or `dur < 0.5`. -/
def describe (s : Schema) : String :=
  let name := featureLabel s d.feature
  match d.test with
  | .byteEquals v => name ++ " is " ++ valueLabel s d.feature v.toNat
  | .shortEquals v => name ++ " is " ++ valueLabel s d.feature v.toInt
  | .below t => name ++ " < " ++ t.render
  | .byteOf => name ++ " isByteOf " ++ toString d.children.size
  | .shortOf => name ++ " isShortOf " ++ toString d.children.size

/-- The outcome that leads into a slot, such as `color!=red`.  Slots are named
by the value whose ordinal they are, taken as a number of 32 bits. -/
def describeBranch (s : Schema) (slot : Nat) : String :=
  let name := featureLabel s d.feature
  let equality := if slot = 0 then "==" else "!="
  match d.test with
  | .byteEquals v => name ++ equality ++ valueLabel s d.feature v.toNat
  | .shortEquals v => name ++ equality ++ valueLabel s d.feature v.toInt
  | .below t => name ++ (if slot = 0 then "<" else ">=") ++ t.render
  | .byteOf => name ++ "==" ++ valueLabel s d.feature (Int.bmod slot 0x100000000)
  | .shortOf => name ++ "==" ++ valueLabel s d.feature (Int.bmod slot 0x100000000)

end Decision

end FeatureTree
