/-
Sets of characters given as ranges of code points.

A property of characters is a list of closed ranges in ascending order;
`inRanges` is membership.  `splitOn` cuts a text at the characters of a set and
`trimBy` strips them from both ends.
-/

namespace FeatureTree.Text

/-- Whether the code point of a character lies in one of the closed ranges. -/
def inRanges (ranges : List (Nat × Nat)) (c : Char) : Bool :=
  ranges.any fun r => r.1 ≤ c.toNat && c.toNat ≤ r.2

/-- The loop of `splitOn`: `piece` is the current piece and `pieces` the
finished ones, both in reverse. -/
def splitLoop (p : Char → Bool) : List Char → List Char → List (List Char) → List (List Char)
  | [], piece, pieces => (piece.reverse :: pieces).reverse
  | c :: rest, piece, pieces =>
    if p c then splitLoop p rest [] (piece.reverse :: pieces)
    else splitLoop p rest (c :: piece) pieces

/-- The pieces between the characters that satisfy `p`; a text without such a
character is one piece. -/
def splitOn (p : Char → Bool) (cs : List Char) : List (List Char) := splitLoop p cs [] []

/-- A text without the characters of `p` at its end. -/
def trimEndBy (p : Char → Bool) (cs : List Char) : List Char :=
  (cs.reverse.dropWhile p).reverse

/-- A text without the characters of `p` at either end. -/
def trimBy (p : Char → Bool) (cs : List Char) : List Char :=
  trimEndBy p (cs.dropWhile p)

/-- The pieces of a text with `separator` between them. -/
def joinWith (separator : String) (pieces : List String) : String :=
  separator.intercalate pieces

end FeatureTree.Text
