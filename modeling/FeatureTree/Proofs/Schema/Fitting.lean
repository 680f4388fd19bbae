/-
Vectors fit their schema, and a feature's index finds its value in them.

The features of a schema stand by kind, and so do the values of a vector, so the kind
of a feature tells between which bounds its index lies.

* `Schema.lt_count_of_byte`, `Schema.bounds_of_short`, `Schema.count_le_of_continuous` —
  these bounds;
* `Schema.Builds`, `Schema.Builds.fits` — the vectors that are built for a schema, which
  all fit it;
* `Schema.Fits.exists_number` — a value for every feature;
* `Schema.declared_of_joinable` — equal schemas declare the same features, so the same
  vectors fit them.
-/
import FeatureTree.Proofs.Schema.Names
import FeatureTree.Proofs.Stream.Reads
import FeatureTree.Tree.Cart

namespace FeatureTree

/-- The kind of feature that a value belongs to. -/
def FeatureValue.kind : FeatureValue → FeatureKind
  | byte _ => .byte
  | short _ => .short
  | continuous _ => .continuous

/-- Number of values of each kind, among the kinds of some values. -/
def shapeOfKinds (kinds : List FeatureKind) : Nat × Nat × Nat :=
  (kinds.count .byte, kinds.count .short, kinds.count .continuous)

theorem FeatureValue.shape_collect (unit : UInt32) (values : List FeatureValue) :
    (collect unit values).shape = shapeOfKinds (values.map kind) := by
  simp only [FeatureVector.shape, collect, shapeOfKinds, List.size_toArray, Prod.mk.injEq]
  induction values with
  | nil => simp
  | cons value values ih =>
    obtain ⟨hbytes, hshorts, hfloats⟩ := ih
    cases value <;> simp [kind, hbytes, hshorts, hfloats]

theorem FeatureValue.kind_of_parse? {kind : FeatureKind} {text : String} {value : FeatureValue}
    (h : parse? kind text = some value) : value.kind = kind := by
  cases kind <;> obtain ⟨_, -, rfl⟩ := Option.map_eq_some_iff.mp h <;> rfl

namespace Schema

variable {s t : Schema} {i : Nat} {m : FeatureMeta} {v : FeatureVector}

/-! ### Where the features of a kind stand -/

/-- The three groups of features, one after the other. -/
theorem get?_eq_append (s : Schema) (i : Nat) :
    s.get? i = (ofKind .byte s.features.toList ++ ofKind .short s.features.toList ++
      ofKind .continuous s.features.toList)[i]? := by
  show s.features[i]? = (arrange s.features.toList)[i]?
  rw [s.arranged, Array.getElem?_toList]

/-- The group in which an index lies is that of the feature's kind. -/
theorem get?_cases (h : s.get? i = some m) :
    (i < s.count .byte ∧ m.kind = .byte) ∨
      (s.count .byte ≤ i ∧ i < s.count .byte + s.count .short ∧ m.kind = .short) ∨
      (s.count .byte + s.count .short ≤ i ∧
        i < s.count .byte + s.count .short + s.count .continuous ∧ m.kind = .continuous) := by
  rw [get?_eq_append, List.append_assoc] at h
  have hmem {kind : FeatureKind} {j : Nat}
      (hj : (ofKind kind s.features.toList)[j]? = some m) : m.kind = kind :=
    (mem_ofKind_iff.mp (List.mem_of_getElem? hj)).2
  by_cases hbyte : i < s.count .byte
  · rw [List.getElem?_append_left (by rwa [length_ofKind])] at h
    exact .inl ⟨hbyte, hmem h⟩
  · rw [List.getElem?_append_right (by rw [length_ofKind]; omega), length_ofKind] at h
    by_cases hshort : i < s.count .byte + s.count .short
    · rw [List.getElem?_append_left (by rw [length_ofKind]; omega)] at h
      exact .inr (.inl ⟨by omega, hshort, hmem h⟩)
    · rw [List.getElem?_append_right (by rw [length_ofKind]; omega), length_ofKind] at h
      have hlt := (List.getElem?_eq_some_iff.mp h).1
      rw [length_ofKind] at hlt
      exact .inr (.inr ⟨by omega, by omega, hmem h⟩)

theorem lt_count_of_byte (h : s.get? i = some m) (hm : m.kind = .byte) : i < s.count .byte := by
  rcases get?_cases h with ⟨hi, -⟩ | ⟨-, -, hk⟩ | ⟨-, -, hk⟩
  · exact hi
  · simp [hm] at hk
  · simp [hm] at hk

theorem bounds_of_short (h : s.get? i = some m) (hm : m.kind = .short) :
    s.count .byte ≤ i ∧ i < s.count .byte + s.count .short := by
  rcases get?_cases h with ⟨-, hk⟩ | ⟨hlow, hhigh, -⟩ | ⟨-, -, hk⟩
  · simp [hm] at hk
  · exact ⟨hlow, hhigh⟩
  · simp [hm] at hk

theorem count_le_of_continuous (h : s.get? i = some m) (hm : m.kind = .continuous) :
    s.count .byte + s.count .short ≤ i ∧
      i < s.count .byte + s.count .short + s.count .continuous := by
  rcases get?_cases h with ⟨-, hk⟩ | ⟨-, -, hk⟩ | ⟨hlow, hhigh, -⟩
  · simp [hm] at hk
  · simp [hm] at hk
  · exact ⟨hlow, hhigh⟩

/-! ### Values of vectors that fit -/

theorem Fits.sizes (hv : s.Fits v) :
    v.bytes.size = s.count .byte ∧ v.shorts.size = s.count .short ∧
      v.floats.size = s.count .continuous := by
  simpa [Fits, FeatureVector.shape, shape] using hv

theorem Fits.exists_byte (hv : s.Fits v) (h : s.get? i = some m) (hm : m.kind = .byte) :
    ∃ b, v.byte? i = some b := by
  have hi : i < v.bytes.size := hv.sizes.1.symm ▸ lt_count_of_byte h hm
  exact ⟨v.bytes[i], Array.getElem?_eq_getElem hi⟩

theorem Fits.exists_short (hv : s.Fits v) (h : s.get? i = some m) (hm : m.kind = .short) :
    ∃ x, v.short? i = some x := by
  obtain ⟨hbytes, hshorts, -⟩ := hv.sizes
  have hbounds := bounds_of_short h hm
  have hi : i - v.bytes.size < v.shorts.size := by omega
  rw [FeatureVector.short?, if_pos (by omega)]
  exact ⟨_, Array.getElem?_eq_getElem hi⟩

theorem Fits.exists_continuous (hv : s.Fits v) (h : s.get? i = some m)
    (hm : m.kind = .continuous) : ∃ x, v.continuous? i = some x := by
  obtain ⟨hbytes, hshorts, hfloats⟩ := hv.sizes
  have hbounds := count_le_of_continuous h hm
  have hi : i - v.bytes.size - v.shorts.size < v.floats.size := by omega
  rw [FeatureVector.continuous?, if_pos (by omega)]
  exact ⟨_, Array.getElem?_eq_getElem hi⟩

theorem Fits.isByte_iff (hv : s.Fits v) (h : s.get? i = some m) :
    v.isByte i = true ↔ m.kind = .byte := by
  obtain ⟨hbytes, -, -⟩ := hv.sizes
  rw [FeatureVector.isByte, decide_eq_true_iff, hbytes]
  rcases get?_cases h with ⟨hi, hk⟩ | ⟨hlow, -, hk⟩ | ⟨hlow, -, hk⟩
  · exact ⟨fun _ => hk, fun _ => hi⟩
  · simp only [hk, reduceCtorEq, iff_false]
    omega
  · simp only [hk, reduceCtorEq, iff_false]
    omega

theorem Fits.isShort_iff (hv : s.Fits v) (h : s.get? i = some m) :
    v.isShort i = true ↔ m.kind = .short := by
  obtain ⟨hbytes, hshorts, -⟩ := hv.sizes
  simp only [FeatureVector.isShort, Bool.and_eq_true, decide_eq_true_iff, hbytes, hshorts]
  rcases get?_cases h with ⟨hi, hk⟩ | ⟨hlow, hhigh, hk⟩ | ⟨hlow, -, hk⟩
  · simp only [hk, reduceCtorEq, iff_false]
    omega
  · exact ⟨fun _ => hk, fun _ => ⟨hlow, hhigh⟩⟩
  · simp only [hk, reduceCtorEq, iff_false]
    omega

/-- The ordinal of a byte-valued feature is its byte. -/
theorem Fits.ordinal?_of_byte (hv : s.Fits v) (h : s.get? i = some m) (hm : m.kind = .byte) :
    v.ordinal? i = (v.byte? i).map fun b => (b.toNat : Int) :=
  if_pos ((hv.isByte_iff h).mpr hm)

/-- The ordinal of a short-valued feature is its word. -/
theorem Fits.ordinal?_of_short (hv : s.Fits v) (h : s.get? i = some m) (hm : m.kind = .short) :
    v.ordinal? i = (v.short? i).map Int16.toInt :=
  if_neg (by rw [hv.isByte_iff h, hm]; decide)

/-- Every feature has a value, which a threshold takes as a number whatever its kind. -/
theorem Fits.exists_number (hv : s.Fits v) (h : s.get? i = some m) : ∃ x, v.number? i = some x := by
  have hbyte := hv.isByte_iff h
  have hshort := hv.isShort_iff h
  rw [FeatureVector.number?]
  cases hm : m.kind with
  | byte =>
    obtain ⟨b, hb⟩ := hv.exists_byte h hm
    exact ⟨_, by rw [if_pos (hbyte.mpr hm), hb, Option.map_some]⟩
  | short =>
    obtain ⟨x, hx⟩ := hv.exists_short h hm
    rw [if_neg (by rw [hbyte, hm]; simp), if_pos (hshort.mpr hm), hx, Option.map_some]
    exact ⟨_, rfl⟩
  | continuous =>
    rw [if_neg (by rw [hbyte, hm]; simp), if_neg (by rw [hshort, hm]; simp)]
    exact hv.exists_continuous h hm

/-! ### Vectors that are built for a schema -/

/-- The vectors that are built for a schema: from values by kind, from value names, or
from a line of ordinals and numbers. -/
inductive Builds (s : Schema) (v : FeatureVector) : Prop
  | vector {w : FeatureVector} : s.vector w = .ok v → Builds s v
  | encode {unit : UInt32} {values : List String} : s.encode unit values = .ok v → Builds s v
  | parseVector {unit : UInt32} {line : String} : s.parseVector unit line = .ok v → Builds s v

theorem shape_eq_shapeOfKinds (s : Schema) :
    s.shape = shapeOfKinds (s.features.toList.map (·.kind)) := by
  have hcount (kind : FeatureKind) :
      s.count kind = (s.features.toList.map (·.kind)).count kind := by
    rw [count_eq_countP, ← Array.countP_toList, List.count_eq_countP, List.countP_map]
    rfl
  simp only [shape, shapeOfKinds, hcount]

/-- Values that are read feature by feature are of the features' kinds. -/
theorem map_kind_of_mapM {read : Nat → FeatureMeta → String → Except SchemaError FeatureValue}
    (hread : ∀ i m text value, read i m text = .ok value → value.kind = m.kind) :
    ∀ {features : List FeatureMeta} {texts : List String} {k : Nat} {values : List FeatureValue},
      texts.length = features.length →
      ((features.zip texts).zipIdx k).mapM (fun p => read p.2 p.1.1 p.1.2) = .ok values →
      values.map FeatureValue.kind = features.map (·.kind) := by
  intro features
  induction features with
  | nil =>
    intro texts k values _ h
    obtain rfl : [] = values := Except.ok.inj h
    rfl
  | cons m features ih =>
    intro texts k values hlength h
    cases texts with
    | nil => simp at hlength
    | cons text texts =>
      rw [List.zip_cons_cons, List.zipIdx_cons, mapM_cons_eq_ok_iff] at h
      obtain ⟨value, values, hvalue, hrest, rfl⟩ := h
      rw [List.map_cons, List.map_cons, hread k m text value hvalue,
        ih (by simpa using hlength) hrest]

/-- Values are read if there is a text for every feature. -/
theorem readValues_eq_ok_iff
    {read : Nat → FeatureMeta → String → Except SchemaError FeatureValue} {unit : UInt32}
    {texts : List String} :
    s.readValues read unit texts = .ok v ↔ texts.length = s.size ∧ ∃ values,
      ((s.features.toList.zip texts).zipIdx).mapM (fun p => read p.2 p.1.1 p.1.2) = .ok values ∧
        v = FeatureValue.collect unit values := by
  rw [readValues]
  split
  · next hlength => simp [hlength]
  · next hlength =>
    simp only [Decidable.not_not.mp hlength, true_and]
    constructor
    · intro h
      obtain ⟨values, hvalues, hv⟩ := bind_eq_ok_iff.mp h
      exact ⟨values, hvalues, (Except.ok.inj hv).symm⟩
    · rintro ⟨values, hvalues, rfl⟩
      exact bind_eq_ok_iff.mpr ⟨values, hvalues, rfl⟩

theorem fits_of_readValues
    {read : Nat → FeatureMeta → String → Except SchemaError FeatureValue}
    (hread : ∀ i m text value, read i m text = .ok value → value.kind = m.kind)
    {unit : UInt32} {texts : List String} (h : s.readValues read unit texts = .ok v) :
    s.Fits v := by
  obtain ⟨hlength, values, hvalues, rfl⟩ := readValues_eq_ok_iff.mp h
  have hkinds := map_kind_of_mapM hread (by simpa [size] using hlength) hvalues
  rw [Fits, FeatureValue.shape_collect, hkinds, shape_eq_shapeOfKinds]

/-- Reads the value of a feature from its name, or from a number. -/
def readName (s : Schema) (i : Nat) (m : FeatureMeta) (value : String) :
    Except SchemaError FeatureValue :=
  match m.kind with
  | .byte => (s.byteValue i value).map .byte
  | .short => (s.shortValue i value).map .short
  | .continuous =>
    match Floating.parse? value with
    | some x => .ok (.continuous x)
    | none => .error (.invalidNumber m.name value)

theorem encode_eq_readValues (s : Schema) (unit : UInt32) (values : List String) :
    s.encode unit values = s.readValues s.readName unit values := rfl

theorem kind_of_readName {text : String} {value : FeatureValue}
    (h : s.readName i m text = .ok value) : value.kind = m.kind := by
  rw [readName] at h
  cases hm : m.kind with
  | byte =>
    simp only [hm, map_eq_ok_iff] at h
    obtain ⟨b, -, rfl⟩ := h
    rfl
  | short =>
    simp only [hm, map_eq_ok_iff] at h
    obtain ⟨x, -, rfl⟩ := h
    rfl
  | continuous =>
    simp only [hm] at h
    split at h
    · rw [← Except.ok.inj h]
      rfl
    · simp at h

/-- However a vector was built for a schema, it has a value for every feature. -/
theorem Builds.fits (h : s.Builds v) : s.Fits v := by
  cases h with
  | @vector w h =>
    rw [Schema.vector] at h
    split at h
    · next hw => exact Except.ok.inj h ▸ hw
    · simp at h
  | @encode unit values h =>
    rw [encode_eq_readValues] at h
    exact fits_of_readValues (fun _ _ _ _ hvalue => kind_of_readName hvalue) h
  | @parseVector unit line h =>
    refine fits_of_readValues (fun i m text value hvalue => ?_) h
    split at hvalue
    · next hparse => exact FeatureValue.kind_of_parse? (Except.ok.inj hvalue ▸ hparse)
    · simp at hvalue

/-! ### Equal schemas -/

/-- What a schema says about a feature to those who only look values up in it. -/
def declared (s : Schema) : List (String × FeatureKind × Array String) :=
  s.features.toList.map fun m => (m.name, m.kind, m.values)

theorem getElem?_declared (s : Schema) (i : Nat) :
    s.declared[i]? = (s.get? i).map fun m => (m.name, m.kind, m.values) := by
  rw [declared, List.getElem?_map, Array.getElem?_toList]
  rfl

/-- At an index both of two schemas that declare the same features have none, or they have
features that are declared alike. -/
theorem get?_cases_of_declared (h : s.declared = t.declared) (i : Nat) :
    s.get? i = none ∧ t.get? i = none ∨
      ∃ m m', s.get? i = some m ∧ t.get? i = some m' ∧
        m.name = m'.name ∧ m.kind = m'.kind ∧ m.values = m'.values := by
  have hget := s.getElem?_declared i
  rw [h, getElem?_declared] at hget
  cases hs : s.get? i with
  | none =>
    rw [hs, Option.map_none, Option.map_eq_none_iff] at hget
    exact .inl ⟨rfl, hget⟩
  | some m =>
    rw [hs] at hget
    obtain ⟨m', ht, heq⟩ := Option.map_eq_some_iff.mp hget
    obtain ⟨hname, hkind, hvalues⟩ : m'.name = m.name ∧ m'.kind = m.kind ∧
      m'.values = m.values := by simpa using heq
    exact .inr ⟨m, m', rfl, ht, hname.symm, hkind.symm, hvalues.symm⟩

theorem declared_of_agrees (h : s.agrees t = true) : s.declared = t.declared := by
  rw [agrees, Bool.and_eq_true, beq_iff_eq, Array.all_eq_true] at h
  obtain ⟨hsize, hall⟩ := h
  refine List.ext_getElem (by simpa [declared] using hsize) fun i hi hi' => ?_
  have hm := hall i (by simpa [declared, hsize] using hi)
  simp only [Array.getElem_zip, FeatureMeta.agrees, Bool.and_eq_true, beq_iff_eq] at hm
  obtain ⟨⟨⟨⟨hname, hkind⟩, hvalues⟩, -⟩, -⟩ := hm
  simp [declared, hname, hkind, hvalues]

/-- Schemas over which trees may be joined declare the same features. -/
theorem declared_of_joinable {shared : Bool} (h : Cart.joinable shared s t = true) :
    s.declared = t.declared := by
  rw [Cart.joinable, Bool.or_eq_true, Bool.and_eq_true, beq_iff_eq] at h
  rcases h with ⟨-, rfl⟩ | h
  · rfl
  · exact declared_of_agrees h

theorem Fits.of_declared (hv : s.Fits v) (h : s.declared = t.declared) : t.Fits v := by
  have hkinds (r : Schema) : r.features.toList.map (·.kind) = r.declared.map (·.2.1) := by
    simp [declared]
  rw [Fits, hv, shape_eq_shapeOfKinds, shape_eq_shapeOfKinds, hkinds, hkinds, h]

end Schema

end FeatureTree
