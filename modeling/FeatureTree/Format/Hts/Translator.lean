/-
Symbols as the questions of state trees write them.

Some values cannot stand in a question and are replaced there by a name.  A
`Translator` gives back the value: punctuation marks and tone marks by a fixed
rule, phones by a table.
-/
import FeatureTree.Format.Error
import FeatureTree.Text.Blank
import FeatureTree.Text.Lines
import FeatureTree.Text.Search
import FeatureTree.Text.Utf8

namespace FeatureTree.Hts

open Text

/-- The phones that questions write under another name: pairs of that name and the
phone, of which the first one for a name counts. -/
structure Translator where
  phones : List (String × String)
  deriving DecidableEq, Repr, Inhabited

namespace Translator

/-- No phone has another name. -/
def empty : Translator := ⟨[]⟩

/-- The translator with one more name for a phone. -/
def add (t : Translator) (phone name : String) : Translator := ⟨(name, phone) :: t.phones⟩

/-- The usual names of phones. -/
def standard : Translator :=
  [("6", "ER6"), ("2:", "EU2"), ("9", "EU9"), ("9~", "UM9"), ("e~", "IMe"), ("a~", "ANa"),
    ("o~", "ONo"), ("?", "gstop"), ("r=", "rr")].foldl (fun t p => t.add p.1 p.2) empty

/-- Reads a line of a table: a phone and its name; blank lines and comments hold
none. -/
def addLine (t : Translator) (line : List UInt8 × Nat) : Except FormatError Translator :=
  match Utf8.decode? line.1 with
  | none => .error (.stream .invalidText)
  | some text =>
    match wordsOf text with
    | [] => .ok t
    | first :: rest =>
      if startsWith ['#'] first.toList then .ok t
      else
        match rest with
        | [name] => .ok (t.add first name)
        | _ => .error (.invalidLine line.2 .phonePair)

/-- The translator of a table, one phone per line. -/
def ofTable (bytes : List UInt8) : Except FormatError Translator :=
  ((byteLines bytes).zipIdx 1).foldlM addLine empty

/-- The punctuation mark that a name stands for. -/
def punctuation : String → String
  | "pt" => "."
  | "cm" => ","
  | "op" => "("
  | "cp" => ")"
  | "in" => "?"
  | "qt" => "\""
  | other => other

/-- The tone marks with their special characters. -/
def toneMarks (value : String) : String :=
  replaceIn (replaceIn (replaceIn value "st" "*") "pc" "%") "ht" "^"

/-- The value of a feature that a question writes under the given name. -/
def translate (t : Translator) (feature value : String) : String :=
  if feature = "sentence_punc" ∨ feature = "prev_punctuation" ∨ feature = "next_punctuation" then
    punctuation value
  else if holds "tobi_".toList feature.toList then toneMarks value
  else if holds "phone".toList feature.toList then (t.phones.lookup value).getD value
  else value

end Translator

end FeatureTree.Hts
