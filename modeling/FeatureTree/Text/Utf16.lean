/-
Text as sequences of 16-bit code units.

A character of the Basic Multilingual Plane is one unit, any other a pair of
surrogates, high before low.  `Utf16.decode?` refuses a surrogate that is not
part of such a pair.
-/

namespace FeatureTree.Text.Utf16

/-- The units of one character. -/
def encodeChar (c : Char) : List UInt16 :=
  let n := c.toNat
  if n < 0x10000 then [UInt16.ofNat n]
  else
    [UInt16.ofNat (0xD800 + (n - 0x10000) / 0x400),
     UInt16.ofNat (0xDC00 + (n - 0x10000) % 0x400)]

/-- The units of a text. -/
def encode (s : String) : List UInt16 := s.toList.flatMap encodeChar

/-- Whether a unit is the first half of a pair. -/
def isHigh (u : UInt16) : Bool := 0xD800 ≤ u && u ≤ 0xDBFF

/-- Whether a unit is the second half of a pair. -/
def isLow (u : UInt16) : Bool := 0xDC00 ≤ u && u ≤ 0xDFFF

/-- The character of a surrogate pair. -/
def joinPair (high low : UInt16) : Char :=
  Char.ofNat (0x10000 + (high.toNat - 0xD800) * 0x400 + (low.toNat - 0xDC00))

/-- The loop of `decode?`; `out` is what was decoded, in reverse. -/
def decodeLoop (out : List Char) : List UInt16 → Option (List Char)
  | [] => some out.reverse
  | u :: rest =>
    if isHigh u then
      match rest with
      | v :: rest' => if isLow v then decodeLoop (joinPair u v :: out) rest' else none
      | [] => none
    else if isLow u then none
    else decodeLoop (Char.ofNat u.toNat :: out) rest

/-- The text of a unit sequence, unless a surrogate stands alone. -/
def decode? (units : List UInt16) : Option String :=
  (decodeLoop [] units).map String.ofList

end FeatureTree.Text.Utf16
