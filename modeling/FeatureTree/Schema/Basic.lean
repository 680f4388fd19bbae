/-
Feature schemas: which features a tree may test.

A feature has a name, a kind and, if it is discrete, a table of value names.  A
`Schema` lists the byte-valued features first, then the short-valued and then
the continuous ones; a feature's position in that list is its index.  Beside the
list a schema keeps how many features of a kind there are and tables in which
names are looked up, so that no list is searched.

* `Schema.tables?` — fills these tables feature by feature, or says what is wrong;
* `Schema.ofFeatures?` — arranges a list of features and fills the tables;
* `Schema.featureIndex?`, `Schema.valueOrdinal`, `Schema.valueName` — names and
  ordinals, both ways;
* `SchemaError` — what can be wrong, with its wording in `SchemaError.message`.

Design: the two facts that every schema satisfies, that its features are in the
order of the kinds and that its tables were filled from them, are fields of the
type.
-/
import FeatureTree.Numeric.Decimal
import FeatureTree.Schema.NameTable

namespace FeatureTree

/-- How the values of a feature are stored: as an ordinal of eight bits, as an
ordinal of sixteen bits, or as a number. -/
inductive FeatureKind where
  | byte
  | short
  | continuous
  deriving DecidableEq, Repr, Inhabited

namespace FeatureKind

/-- The most values a feature of this kind may declare. -/
def maxValues : FeatureKind → Nat
  | byte => 255
  | short => 32767
  | continuous => 0

/-- Whether values are named and counted. -/
def isDiscrete : FeatureKind → Bool
  | continuous => false
  | _ => true

/-- The kind in words. -/
def describe : FeatureKind → String
  | byte => "byte-valued"
  | short => "short-valued"
  | continuous => "continuous"

end FeatureKind

/-- A feature: its name, its kind, the names of its values by ordinal, and the
weight and weighting function for consumers that measure distances. -/
structure FeatureMeta where
  name : String
  kind : FeatureKind
  values : Array String := #[]
  weight : Single := Floating.zero
  weightFunction : Option String := none
  deriving DecidableEq, Repr, Inhabited

namespace FeatureMeta

/-- A byte-valued feature with the given value names. -/
def byte (name : String) (values : Array String) : FeatureMeta := { name, kind := .byte, values }

/-- A short-valued feature with the given value names. -/
def short (name : String) (values : Array String) : FeatureMeta := { name, kind := .short, values }

/-- A continuous feature. -/
def continuous (name : String) : FeatureMeta := { name, kind := .continuous }

/-- Whether two features are equal, their weights compared as numbers. -/
def agrees (a b : FeatureMeta) : Bool :=
  a.name == b.name && a.kind == b.kind && a.values == b.values && a.weight.eq b.weight
    && a.weightFunction == b.weightFunction

end FeatureMeta

/-- What can be wrong with a schema, or with a name, an index or a vector that
is resolved against it. -/
inductive SchemaError where
  | unknownFeature (name : String)
  | indexOutOfRange (index : Nat)
  | unknownValue (feature value : String)
  | ordinalOutOfRange (feature : String) (ordinal : Int)
  | wrongKind (feature : String) (expected actual : FeatureKind)
  | duplicateFeature (name : String)
  | tooManyValues (feature : String) (count max : Nat)
  | vectorShape (expected actual : Nat × Nat × Nat)
  | invalidNumber (feature value : String)
  deriving DecidableEq, Repr

/-- A triple of counts as it stands in messages. -/
def renderShape (s : Nat × Nat × Nat) : String :=
  "(" ++ toString s.1 ++ ", " ++ toString s.2.1 ++ ", " ++ toString s.2.2 ++ ")"

/-- The wording of an error. -/
def SchemaError.message : SchemaError → String
  | unknownFeature name => "unknown feature: " ++ name
  | indexOutOfRange index => "feature index " ++ toString index ++ " out of range"
  | unknownValue feature value => "illegal value '" ++ value ++ "' for feature " ++ feature
  | ordinalOutOfRange feature ordinal =>
    "ordinal " ++ toString ordinal ++ " out of range for feature " ++ feature
  | wrongKind feature expected actual =>
    "feature " ++ feature ++ " is " ++ actual.describe ++ ", expected " ++ expected.describe
  | duplicateFeature name => "duplicate feature name: " ++ name
  | tooManyValues feature count max =>
    "feature " ++ feature ++ " declares " ++ toString count ++ " values, at most "
      ++ toString max ++ " allowed"
  | vectorShape expected actual =>
    "feature vector shape mismatch: expected " ++ renderShape expected ++ ", got "
      ++ renderShape actual
  | invalidNumber feature value => "invalid number '" ++ value ++ "' for feature " ++ feature

namespace Schema

/-- The features of one kind, in their order. -/
def ofKind (kind : FeatureKind) (features : List FeatureMeta) : List FeatureMeta :=
  features.filter fun m => m.kind == kind

/-- Byte-valued features first, then short-valued, then continuous ones, each
group in the order given. -/
def arrange (features : List FeatureMeta) : List FeatureMeta :=
  ofKind .byte features ++ ofKind .short features ++ ofKind .continuous features

/-- What a schema keeps besides its features: how many there are of the first two
kinds, the index of every name, and for every feature the ordinal of every value. -/
structure Tables where
  byteCount : Nat
  shortCount : Nat
  names : NameTable
  ordinals : Array NameTable
  deriving DecidableEq, Repr

/-- Gives values their ordinals, from `ordinal` on.  A value that occurs again keeps
the one it has. -/
def addValues (ordinal : Nat) (t : NameTable) : List String → NameTable
  | [] => t
  | value :: rest => addValues (ordinal + 1) (t.insertIfNew value ordinal) rest

/-- The ordinals of the values of a feature. -/
def ordinalTable (values : Array String) : NameTable := addValues 0 .empty values.toList

/-- Gives features their indices, from `index` on, and their values ordinals.  Stops
at the first fault: a name that has an index, or more values than the kind
allows. -/
def addFeatures (index : Nat) (names : NameTable) (ordinals : Array NameTable) :
    List FeatureMeta → Except SchemaError (NameTable × Array NameTable)
  | [] => .ok (names, ordinals)
  | m :: rest =>
    let added := names.insert m.name index
    if added.1.isSome then .error (.duplicateFeature m.name)
    else if m.kind.isDiscrete && m.kind.maxValues < m.values.size then
      .error (.tooManyValues m.name m.values.size m.kind.maxValues)
    else addFeatures (index + 1) added.2 (ordinals.push (ordinalTable m.values)) rest

/-- The tables of a list of features, or its first fault. -/
def tables? (features : List FeatureMeta) : Except SchemaError Tables :=
  (addFeatures 0 .empty #[] features).map fun added =>
    { byteCount := features.countP fun m => m.kind == .byte
      shortCount := features.countP fun m => m.kind == .short
      names := added.1
      ordinals := added.2 }

theorem arrange_arrange (features : List FeatureMeta) :
    arrange (arrange features) = arrange features := by
  have same (k : FeatureKind) (l : List FeatureMeta) :
      ofKind k (ofKind k l) = ofKind k l := by simp [ofKind]
  have other {j k : FeatureKind} (h : j ≠ k) (l : List FeatureMeta) :
      ofKind j (ofKind k l) = [] := by
    simp only [ofKind, List.filter_filter, List.filter_eq_nil_iff]
    intro m _
    simp only [Bool.and_eq_true, beq_iff_eq, not_and]
    rintro rfl hk
    exact h hk
  have split (k : FeatureKind) (l m : List FeatureMeta) :
      ofKind k (l ++ m) = ofKind k l ++ ofKind k m := by simp [ofKind]
  simp [arrange, split, same, other]

end Schema

/-- The features a tree may test, arranged by kind, with the tables filled from
them. -/
structure Schema extends Schema.Tables where
  features : Array FeatureMeta
  arranged : Schema.arrange features.toList = features.toList
  tabled : Schema.tables? features.toList = .ok toTables

namespace Schema

/-- The features determine the rest. -/
theorem ext_features {s t : Schema} (h : s.features = t.features) : s = t := by
  obtain ⟨tables, features, arranged, tabled⟩ := s
  obtain ⟨tables', features', arranged', tabled'⟩ := t
  obtain rfl : features = features' := h
  obtain rfl : tables = tables' := Except.ok.inj (tabled.symm.trans tabled')
  rfl

instance : DecidableEq Schema := fun a b =>
  if h : a.features = b.features then .isTrue (ext_features h)
  else .isFalse fun e => h (by rw [e])

/-- The schema without features. -/
def empty : Schema where
  byteCount := 0
  shortCount := 0
  names := .empty
  ordinals := #[]
  features := #[]
  arranged := rfl
  tabled := rfl

instance : Inhabited Schema := ⟨empty⟩

/-- The schema of the given features, or the first fault of the arranged list. -/
def ofFeatures? (features : List FeatureMeta) : Except SchemaError Schema :=
  match h : tables? (arrange features) with
  | .error e => .error e
  | .ok t =>
    .ok { t with
      features := (arrange features).toArray
      arranged := arrange_arrange features
      tabled := h }

/-- The schema of features that are arranged and have no fault. -/
def ofArranged (features : Array FeatureMeta)
    (arranged : arrange features.toList = features.toList)
    (faultless : (tables? features.toList).toOption.isSome = true) : Schema where
  toTables := (tables? features.toList).toOption.get faultless
  features := features
  arranged := arranged
  tabled := by
    revert faultless
    cases tables? features.toList with
    | error e => exact fun h => nomatch h
    | ok t => exact fun _ => rfl

variable (s : Schema)

/-- Whether two schemas list equal features, weights compared as numbers. -/
def agrees (t : Schema) : Bool :=
  s.features.size == t.features.size
    && (s.features.zip t.features).all fun p => p.1.agrees p.2

/-- Number of features. -/
def size : Nat := s.features.size

/-- Number of features of one kind; the continuous ones are the rest. -/
def count : FeatureKind → Nat
  | .byte => s.byteCount
  | .short => s.shortCount
  | .continuous => s.size - s.byteCount - s.shortCount

/-- Number of features of each kind. -/
def shape : Nat × Nat × Nat := (s.count .byte, s.count .short, s.count .continuous)

/-- Whether an index addresses a byte-valued feature. -/
def isByte (index : Nat) : Bool := index < s.count .byte

/-- Whether an index addresses a short-valued feature. -/
def isShort (index : Nat) : Bool :=
  s.count .byte ≤ index && index < s.count .byte + s.count .short

/-- Whether an index addresses a continuous feature. -/
def isContinuous (index : Nat) : Bool :=
  s.count .byte + s.count .short ≤ index && index < s.size

/-- The feature at an index, if there is one. -/
def get? (index : Nat) : Option FeatureMeta := s.features[index]?

/-- The feature at an index. -/
def feature (index : Nat) : Except SchemaError FeatureMeta :=
  match s.get? index with
  | some m => .ok m
  | none => .error (.indexOutOfRange index)

/-- The index of the feature with a name, if there is one. -/
def featureIndex? (name : String) : Option Nat := s.names.get? name

/-- The index of the feature with a name. -/
def featureIndex (name : String) : Except SchemaError Nat :=
  match s.featureIndex? name with
  | some i => .ok i
  | none => .error (.unknownFeature name)

/-- The discrete feature at an index. -/
def discreteFeature (index : Nat) : Except SchemaError FeatureMeta := do
  let m ← s.feature index
  if m.kind.isDiscrete then .ok m else .error (.wrongKind m.name .byte m.kind)

/-- The value name of an ordinal of the discrete feature at an index. -/
def valueName (index : Nat) (ordinal : Int) : Except SchemaError String := do
  let m ← s.discreteFeature index
  match if 0 ≤ ordinal then m.values[ordinal.toNat]? else none with
  | some name => .ok name
  | none => .error (.ordinalOutOfRange m.name ordinal)

/-- The ordinal of a value name of the discrete feature at an index. -/
def valueOrdinal (index : Nat) (value : String) : Except SchemaError Nat := do
  let m ← s.discreteFeature index
  match s.ordinals[index]?.bind (·.get? value) with
  | some ordinal => .ok ordinal
  | none => .error (.unknownValue m.name value)

/-- Checks the kind of the feature at an index. -/
def expectKind (index : Nat) (expected : FeatureKind) : Except SchemaError Unit := do
  let m ← s.feature index
  if m.kind = expected then .ok () else .error (.wrongKind m.name expected m.kind)

/-- The ordinal of a value name of the byte-valued feature at an index.  It fits
eight bits, since such a feature has at most 255 values. -/
def byteValue (index : Nat) (value : String) : Except SchemaError UInt8 := do
  s.expectKind index .byte
  return UInt8.ofNat (← s.valueOrdinal index value)

/-- The ordinal of a value name of the short-valued feature at an index. It fits
sixteen bits, since such a feature has at most 32767 values. -/
def shortValue (index : Nat) (value : String) : Except SchemaError Int16 := do
  s.expectKind index .short
  return Int16.ofNat (← s.valueOrdinal index value)

end Schema

end FeatureTree
