/-
The modified byte encoding of text used inside binary streams.

Each 16-bit code unit is encoded by itself in one to three bytes.  The unit zero
takes two bytes, so the encoding holds no zero byte, and a character outside the
Basic Multilingual Plane takes two groups of three bytes.
-/
import FeatureTree.Text.Utf16

namespace FeatureTree.Text.ModifiedUtf8

/-- The bytes of one code unit. -/
def encodeUnit (u : UInt16) : List UInt8 :=
  let n := u.toNat
  if 1 ≤ n ∧ n ≤ 0x7F then [UInt8.ofNat n]
  else if n ≤ 0x7FF then [UInt8.ofNat (0xC0 + n / 64), UInt8.ofNat (0x80 + n % 64)]
  else
    [UInt8.ofNat (0xE0 + n / 4096), UInt8.ofNat (0x80 + n / 64 % 64),
     UInt8.ofNat (0x80 + n % 64)]

/-- The bytes of a text. -/
def encode (s : String) : List UInt8 := (Utf16.encode s).flatMap encodeUnit

/-- Whether a byte can continue the group of a code unit. -/
def continues (b : UInt8) : Bool := b.toNat / 64 == 2

/-- The loop of `decodeUnits?`; `out` is what was decoded, in reverse. -/
def decodeLoop (out : List UInt16) : List UInt8 → Option (List UInt16)
  | [] => some out.reverse
  | a :: rest =>
    let lead := a.toNat / 16
    if lead ≤ 7 then decodeLoop (UInt16.ofNat a.toNat :: out) rest
    else if lead = 12 ∨ lead = 13 then
      match rest with
      | b :: rest' =>
        if continues b then
          decodeLoop (UInt16.ofNat (a.toNat % 32 * 64 + b.toNat % 64) :: out) rest'
        else none
      | [] => none
    else if lead = 14 then
      match rest with
      | b :: c :: rest' =>
        if continues b && continues c then
          decodeLoop
            (UInt16.ofNat (a.toNat % 16 * 4096 + b.toNat % 64 * 64 + c.toNat % 64) :: out) rest'
        else none
      | _ => none
    else none

/-- The code units that the bytes encode. -/
def decodeUnits? (bytes : List UInt8) : Option (List UInt16) := decodeLoop [] bytes

/-- The text that the bytes encode: every group is complete and no surrogate
stands alone. -/
def decode? (bytes : List UInt8) : Option String :=
  (decodeUnits? bytes).bind Utf16.decode?

end FeatureTree.Text.ModifiedUtf8
