/-
Errors of byte streams themselves, whatever they carry.
-/

namespace FeatureTree

/-- What can go wrong with a stream, or with writing a value into one. -/
inductive StreamError where
  /-- There is no file of the wanted name. -/
  | notFound
  /-- A line is not the encoding of a text. -/
  | invalidText
  /-- The encoding of a string has more bytes than its length field can hold. -/
  | stringTooLong (bytes : Nat)
  /-- A length is beyond the range of its field. -/
  | lengthTooLarge (length : Nat)
  /-- A block of properties has more bytes than its length field can hold. -/
  | propertyBlockTooLong (bytes : Nat)
  deriving DecidableEq, Repr

/-- The wording of an error. -/
def StreamError.message : StreamError → String
  | notFound => "No such file or directory (os error 2)"
  | invalidText => "stream did not contain valid UTF-8"
  | stringTooLong bytes => "encoded string too long: " ++ toString bytes ++ " bytes"
  | lengthTooLarge length => "length " ++ toString length ++ " exceeds int range"
  | propertyBlockTooLong bytes => "property block too long: " ++ toString bytes ++ " bytes"

end FeatureTree
