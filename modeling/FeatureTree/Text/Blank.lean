/-
Blank characters and what is delimited by them.

`isBlank` is the White_Space property of Unicode.  `words` are the maximal runs
of other characters, `trim` strips blanks from both ends.
-/
import FeatureTree.Text.Ranges

namespace FeatureTree.Text

/-- The characters with the White_Space property. -/
def blankRanges : List (Nat × Nat) :=
  [(0x9, 0xD), (0x20, 0x20), (0x85, 0x85), (0xA0, 0xA0), (0x1680, 0x1680), (0x2000, 0x200A),
   (0x2028, 0x2029), (0x202F, 0x202F), (0x205F, 0x205F), (0x3000, 0x3000)]

/-- Whether a character is white space. -/
def isBlank (c : Char) : Bool := inRanges blankRanges c

/-- The maximal runs of characters that are not blank. -/
def words (cs : List Char) : List (List Char) := (splitOn isBlank cs).filter (!·.isEmpty)

/-- The words of a string, as strings. -/
def wordsOf (s : String) : List String := (words s.toList).map String.ofList

/-- A text without blanks at either end. -/
def trim (s : String) : String := String.ofList (trimBy isBlank s.toList)

/-- Whether a text holds nothing but blanks. -/
def allBlank (s : String) : Bool := s.toList.all isBlank

end FeatureTree.Text
