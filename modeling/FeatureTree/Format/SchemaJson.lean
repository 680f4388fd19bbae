/-
Schemas as JSON values.

A schema is an array of features.  A feature is an object with the fields
`name`, `kind`, `values`, `weight` and `weight_function`, of which the last three
may be absent, or an array of these in their order, which may end after the kind.
Other fields do not count.

* `JsonValue` — a JSON value, numbers kept as the decimals they are written as;
* `JsonValue.feature?` — the feature of a value;
* `JsonValue.schema?` — the schema of a value, if it has one and is faultless.
-/
import FeatureTree.Schema.Basic

namespace FeatureTree

/-- A JSON value.  The fields of an object have distinct names. -/
inductive JsonValue where
  | null
  | bool (value : Bool)
  | number (negative : Bool) (magnitude : Decimal)
  | string (text : String)
  | array (items : List JsonValue)
  | object (fields : List (String × JsonValue))
  deriving Inhabited

namespace JsonValue

/-- The text of a string. -/
def text? : JsonValue → Option String
  | string text => some text
  | _ => none

/-- The texts of an array of strings. -/
def texts? : JsonValue → Option (Array String)
  | array items => (items.mapM text?).map List.toArray
  | _ => none

/-- The text of a string, or no text where `null` stands. -/
def nullableText? : JsonValue → Option (Option String)
  | null => some none
  | v => v.text?.map some

/-- Whether a number is written without a fraction and fits a word of 64 bits,
signed if it is negative. -/
def isWord (negative : Bool) (magnitude : Decimal) : Bool :=
  magnitude.exponent == 0
    && magnitude.significand ≤ if negative then 0x8000000000000000 else 0xFFFFFFFFFFFFFFFF

/-- The nearest word of single precision to a number.  Only whole numbers of 64
bits are rounded once; all others are rounded to double precision first. -/
def single? : JsonValue → Option Single
  | number negative magnitude =>
    if isWord negative magnitude then some (Floating.ofDecimal negative magnitude)
    else some ((Floating.ofDecimal negative magnitude : Double).convert .single)
  | _ => none

/-- The kind with a name. -/
def kindOfName? : String → Option FeatureKind
  | "Byte" => some .byte
  | "Short" => some .short
  | "Continuous" => some .continuous
  | _ => none

/-- The kind of a feature: its name, or an object with that name as its only
field and nothing in it. -/
def kind? : JsonValue → Option FeatureKind
  | string name => kindOfName? name
  | object [(name, null)] => kindOfName? name
  | _ => none

/-- The names of the fields of a feature, in their order. -/
def featureFields : List String := ["name", "kind", "values", "weight", "weight_function"]

/-- The fields of a feature by name: those of an object, or those of an array
that is no longer than a feature. -/
def fields? : JsonValue → Option (List (String × JsonValue))
  | object fields => some fields
  | array items =>
    if items.length ≤ featureFields.length then some (featureFields.zip items) else none
  | _ => none

/-- The feature of a value. -/
def feature? (v : JsonValue) : Option FeatureMeta := do
  let fields ← v.fields?
  let optional {α : Type} (read : JsonValue → Option α) (absent : α) (name : String) :
      Option α :=
    match fields.lookup name with
    | some v => read v
    | none => some absent
  return {
    name := ← (← fields.lookup "name").text?
    kind := ← (← fields.lookup "kind").kind?
    values := ← optional texts? #[] "values"
    weight := ← optional single? Floating.zero "weight"
    weightFunction := ← optional nullableText? none "weight_function" }

/-- The schema of a value, if it has one and is faultless. -/
def schema? : JsonValue → Option Schema
  | array items => do
    let features ← items.mapM feature?
    (Schema.ofFeatures? features).toOption
  | _ => none

end JsonValue

end FeatureTree
