/-
Writing strings and lengths into byte streams.

Words of fixed width can always be written (`Stream.BigEndian`); what is written
here may not fit its length field.
-/
import FeatureTree.Stream.BigEndian
import FeatureTree.Stream.Error
import FeatureTree.Text.ModifiedUtf8

namespace FeatureTree.Stream

/-- The bytes of a written value, or why it cannot be written. -/
abbrev Encoded := Except StreamError (List UInt8)

/-- A length as a signed word of 32 bits. -/
def lengthBytes (n : Nat) : Encoded :=
  if n < 0x80000000 then .ok (bigEndian 4 n) else .error (.lengthTooLarge n)

/-- A string with the number of its encoded bytes in front, as a word of 16 bits. -/
def stringBytes (s : String) : Encoded :=
  let encoded := Text.ModifiedUtf8.encode s
  if encoded.length < 0x10000 then .ok (bigEndian 2 encoded.length ++ encoded)
  else .error (.stringTooLong encoded.length)

/-- A string as code units of 16 bits, without a length. -/
def charBytes (s : String) : List UInt8 := (Text.Utf16.encode s).flatMap uint16Bytes

/-- The bytes of several values one after the other, or the first error. -/
def concat (parts : List Encoded) : Encoded := (parts.mapM id).map List.flatten

/-- Several strings one after the other. -/
def stringsBytes (strings : List String) : Encoded := concat (strings.map stringBytes)

end FeatureTree.Stream
