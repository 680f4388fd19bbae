/-
Schemas as text.

Three sections, each with its title on a line of its own, list the byte-valued,
the short-valued and the continuous features, one per line: the name, then the
values.  With weights, every line has the weight, perhaps with a weighting
function, and a bar in front.  Empty lines and lines that start with `#` do not
count, except that an empty line ends the last section.

* `SchemaText.parse` — the schema of a text;
* `SchemaText.render` — the text of a schema.
-/
import FeatureTree.Format.Error
import FeatureTree.Text.Blank
import FeatureTree.Text.Lines
import FeatureTree.Text.Search

namespace FeatureTree.SchemaText

open Text

/-- The title of the section for a kind of feature. -/
def title : FeatureKind → String
  | .byte => "ByteValuedFeatureProcessors"
  | .short => "ShortValuedFeatureProcessors"
  | .continuous => "ContinuousFeatureProcessors"

/-- The title of the part that follows the features and is not read. -/
def similarityTitle : String := "FeatureSimilarity"

/-- Whether a line is empty or a comment. -/
def isSkipped (line : String) : Bool := line.isEmpty || line.toList.head? == some '#'

/-- The lines that describe features, with the kinds of their sections, and the
section in which the text ended. -/
def gather (current : FeatureKind) :
    List (Nat × String) → List (FeatureKind × Nat × String) × FeatureKind
  | [] => ([], current)
  | (number, line) :: rest =>
    if current = .byte ∧ line = title .short then gather .short rest
    else if current = .short ∧ line = title .continuous then gather .continuous rest
    else if current = .continuous ∧ (line = "" ∨ line = similarityTitle) then ([], current)
    else if isSkipped line then gather current rest
    else
      let (lines, last) := gather current rest
      ((current, number, line) :: lines, last)

/-- Reads the part of a line before the bar: a weight and the words of a weighting
function. -/
def parseWeight (number : Nat) (cs : List Char) : Except FormatError (Single × String) := do
  let parts := (words cs).map String.ofList
  let raw := parts.headD ""
  match Floating.parse? raw with
  | none => .error (.invalidValue "feature weight" raw)
  | some weight =>
    if weight.lt Floating.zero then .error (.invalidLine number (.negativeWeight weight))
    else return (weight, joinWith " " (parts.drop 1))

/-- Reads the name and the values of a feature. -/
def parseDefinition (number : Nat) (kind : FeatureKind) (cs : List Char) :
    Except FormatError FeatureMeta :=
  match (words cs).map String.ofList with
  | [] => .error (.invalidLine number .noFeatureName)
  | name :: values =>
    match kind with
    | .byte => .ok (.byte name values.toArray)
    | .short => .ok (.short name values.toArray)
    | .continuous => .ok (.continuous name)

/-- Reads a line that describes a feature. -/
def parseLine (weighted : Bool) (kind : FeatureKind) (number : Nat) (line : String) :
    Except FormatError FeatureMeta := do
  if weighted then
    match splitOnce? (· == '|') line.toList with
    | none => .error (.invalidLine number .noWeightSeparator)
    | some (before, after) =>
      let (weight, function) ← parseWeight number before
      let m ← parseDefinition number kind after
      let weightFunction := if kind = .continuous ∧ !function.isEmpty then some function else none
      return { m with weight, weightFunction }
  else parseDefinition number kind line.toList

/-- The features with their weights divided by the sum of all, if that is
positive. -/
def normalize (features : List FeatureMeta) : List FeatureMeta :=
  let total : Single := (features.map (·.weight)).foldl Floating.add Floating.zero
  if Floating.zero.lt total then
    features.map fun m => { m with weight := m.weight.div total }
  else features

/-- The schema of a text. -/
def parse (text : String) (weighted : Bool) : Except FormatError Schema := do
  let numbered := (lines text).zipIdx.map fun (line, i) => (i + 1, trim line)
  match numbered.dropWhile fun l => isSkipped l.2 with
  | [] => .error (.truncated "schema text")
  | (number, first) :: rest =>
    if first ≠ title .byte then
      .error (.invalidLine number (.wrongSection (title .byte) first))
    else
      let (described, last) := gather .byte rest
      if last ≠ .continuous then .error (.truncated "schema text sections")
      else
        let features ← described.mapM fun (kind, number, line) =>
          parseLine weighted kind number line
        FormatError.ofSchema
          (Schema.ofFeatures? (if weighted then normalize features else features))

/-- The line of a feature. -/
def renderLine (weighted : Bool) (m : FeatureMeta) : String :=
  let function := match m.weightFunction with
    | some function => " " ++ function
    | none => ""
  let weight := if weighted then m.weight.render ++ function ++ " | " else ""
  weight ++ joinWith " " (m.name :: m.values.toList) ++ "\n"

/-- The lines of the section for a kind of feature. -/
def renderSection (weighted : Bool) (s : Schema) (kind : FeatureKind) : String :=
  title kind ++ "\n"
    ++ String.join ((Schema.ofKind kind s.features.toList).map (renderLine weighted))

/-- The text of a schema. -/
def render (s : Schema) (weighted : Bool) : String :=
  renderSection weighted s .byte ++ renderSection weighted s .short
    ++ renderSection weighted s .continuous

end FeatureTree.SchemaText
