/-
Lines of a text and of a byte stream.

A line ends at a line feed; a carriage return right before that line feed
belongs to the line end, and a last line without a line feed is a line as it
stands.  `lines` cuts a text, `byteLines` cuts bytes.
-/
import FeatureTree.Text.Ranges

namespace FeatureTree.Text

/-- A line without the carriage return at its end. -/
def dropReturn {α : Type} [DecidableEq α] (cr : α) (line : List α) : List α :=
  if line.getLast? = some cr then line.dropLast else line

/-- The loop of `cutLines`: `line` is the current line and `done` the finished
ones, both in reverse. -/
def cutLinesLoop {α : Type} [DecidableEq α] (lf cr : α) :
    List α → List α → List (List α) → List (List α)
  | [], line, done => (if line.isEmpty then done else line.reverse :: done).reverse
  | x :: rest, line, done =>
    if x = lf then cutLinesLoop lf cr rest [] (dropReturn cr line.reverse :: done)
    else cutLinesLoop lf cr rest (x :: line) done

/-- The lines of a sequence, for the given line feed and carriage return. -/
def cutLines {α : Type} [DecidableEq α] (lf cr : α) (xs : List α) : List (List α) :=
  cutLinesLoop lf cr xs [] []

/-- The lines of a text. -/
def lines (s : String) : List String := (cutLines '\n' '\r' s.toList).map String.ofList

/-- The lines of a byte stream, still encoded. -/
def byteLines (bytes : List UInt8) : List (List UInt8) := cutLines 10 13 bytes

end FeatureTree.Text
