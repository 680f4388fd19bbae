/-
Numbers as bytes, the most significant byte first.

`bigEndian` writes a natural number into a given number of bytes and
`ofBigEndian` reads it back; the fixed-width words are built on the two.
-/
import FeatureTree.Numeric.Floating

namespace FeatureTree.Stream

/-- The last `width` bytes of a number, the most significant first. -/
def bigEndian : Nat → Nat → List UInt8
  | 0, _ => []
  | width + 1, n => bigEndian width (n / 256) ++ [UInt8.ofNat (n % 256)]

/-- The number that bytes write, the most significant first. -/
def ofBigEndian (bytes : List UInt8) : Nat := bytes.foldl (fun n b => n * 256 + b.toNat) 0

@[simp] theorem length_bigEndian (width n : Nat) : (bigEndian width n).length = width := by
  induction width generalizing n with
  | zero => rfl
  | succ width ih => simp [bigEndian, ih]

/-- The bytes of an unsigned word of 16 bits. -/
def uint16Bytes (n : UInt16) : List UInt8 := bigEndian 2 n.toNat

/-- The bytes of a signed word of 16 bits. -/
def int16Bytes (n : Int16) : List UInt8 := uint16Bytes n.toUInt16

/-- The bytes of an unsigned word of 32 bits. -/
def uint32Bytes (n : UInt32) : List UInt8 := bigEndian 4 n.toNat

/-- The bytes of a signed word of 32 bits. -/
def int32Bytes (n : Int32) : List UInt8 := uint32Bytes n.toUInt32

/-- The bytes of a floating-point word of 32 bits. -/
def singleBytes (x : Single) : List UInt8 := bigEndian 4 x.bits.toNat

end FeatureTree.Stream
