/-
A schema agrees with the features that it is made from.

The features are arranged by kind, and what else a schema keeps of them agrees with the
arranged list: the counts with the bounds between the kinds, the table of names with the
indices, the tables of values with the ordinals.

* `Schema.Arranges`, `Schema.arranges_arrange` — the order of the features;
* `Schema.faultless_arrange_iff` — which lists of features have no fault;
* `Schema.Resolves`, `Schema.resolves` — what the counts and the look-ups give;
* `Schema.ofFeatures?_arranges` — which features make a schema, and which one.
-/
import FeatureTree.Proofs.Schema.Lookup

namespace FeatureTree

/-- The place of a kind among the kinds. -/
def FeatureKind.rank : FeatureKind → Nat
  | byte => 0
  | short => 1
  | continuous => 2

namespace Schema

variable {s : Schema} {features : List FeatureMeta} {kind : FeatureKind} {i : Nat} {m : FeatureMeta}
  {value : String}

/-! ### The order of the features -/

/-- A stable arrangement by kind: the same features, byte-valued ones before short-valued
before continuous ones, and those of one kind in the order that they had. -/
structure Arranges (features arranged : List FeatureMeta) : Prop where
  perm : arranged.Perm features
  ordered : arranged.Pairwise fun a b => a.kind.rank ≤ b.kind.rank
  stable : ∀ kind, ofKind kind arranged = ofKind kind features

theorem ofKind_cons (kind : FeatureKind) (m : FeatureMeta) (rest : List FeatureMeta) :
    ofKind kind (m :: rest) =
      if m.kind = kind then m :: ofKind kind rest else ofKind kind rest := by
  rw [ofKind, List.filter_cons]
  simp only [beq_iff_eq]
  rfl

theorem perm_arrange (features : List FeatureMeta) : (arrange features).Perm features := by
  induction features with
  | nil => exact .refl _
  | cons m rest ih =>
    refine .trans ?_ (ih.cons m)
    simp only [arrange, ofKind_cons]
    -- the feature goes in front of the others of its kind
    cases hm : m.kind with
    | byte => simp
    | short => simp [List.perm_middle]
    | continuous =>
      simp only [reduceCtorEq, if_false, if_true]
      exact List.perm_middle

/-- Features of kinds up to one stand before features of kinds from that one on. -/
theorem ordered_arrange (features : List FeatureMeta) :
    (arrange features).Pairwise fun a b => a.kind.rank ≤ b.kind.rank := by
  have hkind : ∀ {kind m}, m ∈ ofKind kind features → m.kind = kind :=
    fun hm => (mem_ofKind_iff.mp hm).2
  have hsame : ∀ kind, (ofKind kind features).Pairwise fun a b => a.kind.rank ≤ b.kind.rank :=
    fun kind => List.pairwise_of_forall_mem_list fun a ha b hb =>
      Nat.le_of_eq (congrArg FeatureKind.rank ((hkind ha).trans (hkind hb).symm))
  rw [arrange, List.pairwise_append, List.pairwise_append]
  refine ⟨⟨hsame _, hsame _, fun a ha b hb => ?_⟩, hsame _, fun a ha b hb => ?_⟩
  · rw [hkind ha, hkind hb]
    decide
  · rw [hkind hb]
    rcases List.mem_append.mp ha with ha | ha
    · rw [hkind ha]
      decide
    · rw [hkind ha]
      decide

theorem ofKind_ofKind (kind other : FeatureKind) (features : List FeatureMeta) :
    ofKind kind (ofKind other features) = if kind = other then ofKind kind features else [] := by
  split
  · next h =>
    subst h
    exact List.filter_eq_self.mpr fun m hm => by simp [(mem_ofKind_iff.mp hm).2]
  · next h =>
    refine List.filter_eq_nil_iff.mpr fun m hm hkind => h ?_
    rw [← (mem_ofKind_iff.mp hm).2, beq_iff_eq.mp hkind]

theorem arranges_arrange (features : List FeatureMeta) : Arranges features (arrange features) where
  perm := perm_arrange features
  ordered := ordered_arrange features
  stable kind := by
    have happend (l l' : List FeatureMeta) :
        ofKind kind (l ++ l') = ofKind kind l ++ ofKind kind l' := List.filter_append ..
    rw [arrange, happend, happend, ofKind_ofKind, ofKind_ofKind, ofKind_ofKind]
    cases kind <;> simp

/-! ### Lists of features without a fault -/

/-- The number of values that a feature may have, by its kind. -/
theorem size_le_maxValues_iff :
    (m.kind.isDiscrete = true → m.values.size ≤ m.kind.maxValues) ↔
      (m.kind = .byte → m.values.size ≤ 255) ∧ (m.kind = .short → m.values.size ≤ 32767) := by
  cases m.kind <;> simp [FeatureKind.isDiscrete, FeatureKind.maxValues]

theorem faultless_arrange_iff (features : List FeatureMeta) :
    Faultless (arrange features) ↔
      (features.map (·.name)).Nodup ∧ ∀ m ∈ features,
        (m.kind = .byte → m.values.size ≤ 255) ∧ (m.kind = .short → m.values.size ≤ 32767) := by
  have hperm := perm_arrange features
  have hnames : ((arrange features).map (·.name)).Nodup ↔ (features.map (·.name)).Nodup :=
    (hperm.map (·.name)).nodup_iff
  constructor
  · rintro ⟨hnodup, hsize⟩
    exact ⟨hnames.mp hnodup,
      fun m hm => size_le_maxValues_iff.mp (hsize m (hperm.mem_iff.mpr hm))⟩
  · rintro ⟨hnodup, hsize⟩
    exact ⟨hnames.mpr hnodup,
      fun m hm => size_le_maxValues_iff.mpr (hsize m (hperm.mem_iff.mp hm))⟩

/-! ### What the look-ups give -/

theorem size_eq_counts (s : Schema) :
    s.size = s.count .byte + s.count .short + s.count .continuous := by
  rw [size, ← Array.length_toList, ← s.arranged, arrange, List.length_append, List.length_append,
    length_ofKind, length_ofKind, length_ofKind]

/-- Whether an index addresses a feature of a kind. -/
def isOfKind (s : Schema) : FeatureKind → Nat → Bool
  | .byte => s.isByte
  | .short => s.isShort
  | .continuous => s.isContinuous

/-- The bounds between the kinds are where the kinds change. -/
theorem isOfKind_iff (kind : FeatureKind) :
    s.isOfKind kind i = true ↔ ∃ m, s.get? i = some m ∧ m.kind = kind := by
  have hsize := s.size_eq_counts
  cases hm : s.get? i with
  | none =>
    have hi : s.size ≤ i := Array.getElem?_eq_none_iff.mp hm
    cases kind <;> simp [isOfKind, isByte, isShort, isContinuous] <;> omega
  | some m =>
    have hi : i < s.size := (Array.getElem?_eq_some_iff.mp hm).1
    rcases get?_cases hm with ⟨hlt, hk⟩ | ⟨hlow, hhigh, hk⟩ | ⟨hlow, -, hk⟩
    · cases kind <;> simp [isOfKind, isByte, isShort, isContinuous, hk] <;> omega
    · cases kind <;> simp [isOfKind, isByte, isShort, isContinuous, hk] <;> omega
    · cases kind <;> simp [isOfKind, isByte, isShort, isContinuous, hk] <;> omega

theorem featureIndex_eq_ok_iff_name {name : String} :
    s.featureIndex name = .ok i ↔ ∃ m, s.get? i = some m ∧ m.name = name := by
  constructor
  · intro h
    rw [featureIndex_eq_ok_iff, featureIndex?_eq_findIdx?] at h
    obtain ⟨hi, hname, -⟩ := Array.findIdx?_eq_some_iff_getElem.mp h
    exact ⟨_, Array.getElem?_eq_getElem hi, by simpa using hname⟩
  · rintro ⟨m, hm, rfl⟩
    exact featureIndex_name hm

theorem valueOrdinal_eq_ok_iff (h : s.get? i = some m) (hdiscrete : m.kind.isDiscrete = true)
    {n : Nat} : s.valueOrdinal i value = .ok n ↔
      m.values[n]? = some value ∧ ∀ k < n, m.values[k]? ≠ some value :=
  ⟨first_of_valueOrdinal h, fun ⟨hvalue, hfirst⟩ => valueOrdinal_eq h hdiscrete hvalue hfirst⟩

/-- Every declared value has an ordinal. -/
theorem exists_valueOrdinal (h : s.get? i = some m) (hdiscrete : m.kind.isDiscrete = true)
    (hvalue : value ∈ m.values) : ∃ n, s.valueOrdinal i value = .ok n := by
  rw [valueOrdinal_eq_findIdx? h hdiscrete]
  cases hn : m.values.findIdx? (· == value) with
  | none => simpa using Array.findIdx?_eq_none_iff.mp hn value hvalue
  | some n => exact ⟨n, rfl⟩

theorem valueOrdinal_eq_error_iff (h : s.get? i = some m) (hdiscrete : m.kind.isDiscrete = true)
    {e : SchemaError} : s.valueOrdinal i value = .error e ↔
      value ∉ m.values ∧ e = .unknownValue m.name value := by
  constructor
  · intro he
    have hvalue : value ∉ m.values := fun hmem => by
      obtain ⟨n, hn⟩ := exists_valueOrdinal h hdiscrete hmem
      simp [hn] at he
    have hnone : ∀ j : Nat, m.values[j]? ≠ some value := fun j hj =>
      hvalue (Array.mem_of_getElem? hj)
    rw [valueOrdinal_eq_error h hdiscrete hnone] at he
    exact ⟨hvalue, (Except.error.inj he).symm⟩
  · rintro ⟨hvalue, rfl⟩
    exact valueOrdinal_eq_error h hdiscrete fun j hj => hvalue (Array.mem_of_getElem? hj)

/-- An ordinal keeps its value in eight bits. -/
theorem map_toNat_byteValue (h : s.get? i = some m) (hkind : m.kind = .byte) (value : String) :
    (s.byteValue i value).map UInt8.toNat = s.valueOrdinal i value := by
  have hexpect : s.expectKind i .byte = .ok () := expectKind_eq_ok_iff.mpr ⟨m, h, hkind⟩
  rw [byteValue, hexpect]
  cases hn : s.valueOrdinal i value with
  | error e => simp [bind, Except.bind, Except.map]
  | ok n =>
    have hlt : n < 256 := by
      have := valueOrdinal_lt_maxValues hn h
      rw [hkind, FeatureKind.maxValues] at this
      omega
    simp only [bind, Except.bind, pure, Except.pure, Except.map]
    rw [UInt8.toNat_ofNat_of_lt' hlt]

/-- An ordinal keeps its value in sixteen bits with a sign. -/
theorem map_toInt_shortValue (h : s.get? i = some m) (hkind : m.kind = .short)
    (value : String) :
    (s.shortValue i value).map Int16.toInt = (s.valueOrdinal i value).map Int.ofNat := by
  have hexpect : s.expectKind i .short = .ok () := expectKind_eq_ok_iff.mpr ⟨m, h, hkind⟩
  rw [shortValue, hexpect]
  cases hn : s.valueOrdinal i value with
  | error e => simp [bind, Except.bind, Except.map]
  | ok n =>
    have hlt : n < 2 ^ 15 := by
      have := valueOrdinal_lt_maxValues hn h
      rw [hkind, FeatureKind.maxValues] at this
      omega
    simp only [bind, Except.bind, pure, Except.pure, Except.map]
    rw [Int16.toInt_ofNat_of_lt hlt]
    rfl

/-- What a schema keeps besides its features agrees with them.  The counts are the numbers of
features of a kind, and an index addresses the kind of the feature that stands there; a name is
looked up to the index of the feature that has it; every feature has a table of its values, in
which a value is looked up to the lowest ordinal at which it stands, and is refused exactly if
the feature does not declare it; the ordinal is the same when it is stored as a word. -/
structure Resolves (s : Schema) : Prop where
  count : ∀ kind, s.count kind = (ofKind kind s.features.toList).length
  isByte : ∀ i, s.isByte i = true ↔ ∃ m, s.get? i = some m ∧ m.kind = .byte
  isShort : ∀ i, s.isShort i = true ↔ ∃ m, s.get? i = some m ∧ m.kind = .short
  isContinuous : ∀ i, s.isContinuous i = true ↔ ∃ m, s.get? i = some m ∧ m.kind = .continuous
  index : ∀ name i, s.featureIndex name = .ok i ↔ ∃ m, s.get? i = some m ∧ m.name = name
  tabled : s.ordinals.size = s.size
  ordinal : ∀ i m, s.get? i = some m → m.kind.isDiscrete = true → ∀ value n,
    s.valueOrdinal i value = .ok n ↔
      m.values[n]? = some value ∧ ∀ k < n, m.values[k]? ≠ some value
  undeclared : ∀ i m, s.get? i = some m → m.kind.isDiscrete = true → ∀ value e,
    s.valueOrdinal i value = .error e ↔ value ∉ m.values ∧ e = .unknownValue m.name value
  byteValue : ∀ i m, s.get? i = some m → m.kind = .byte → ∀ value,
    (s.byteValue i value).map UInt8.toNat = s.valueOrdinal i value
  shortValue : ∀ i m, s.get? i = some m → m.kind = .short → ∀ value,
    (s.shortValue i value).map Int16.toInt = (s.valueOrdinal i value).map Int.ofNat

theorem resolves (s : Schema) : s.Resolves where
  count kind := (s.length_ofKind kind).symm
  isByte _ := isOfKind_iff .byte
  isShort _ := isOfKind_iff .short
  isContinuous _ := isOfKind_iff .continuous
  index _ _ := featureIndex_eq_ok_iff_name
  tabled := s.size_ordinals
  ordinal _ _ hm hd _ _ := valueOrdinal_eq_ok_iff hm hd
  undeclared _ _ hm hd _ _ := valueOrdinal_eq_error_iff hm hd
  byteValue _ _ hm hkind := map_toNat_byteValue hm hkind
  shortValue _ _ hm hkind := map_toInt_shortValue hm hkind

/-- Features make a schema exactly if their names are distinct and no feature has more
values than its kind can number.  The schema has the features in a stable arrangement by
kind, and its look-ups agree with them. -/
theorem ofFeatures?_arranges (features : List FeatureMeta) :
    ((∃ s, ofFeatures? features = .ok s) ↔
      (features.map (·.name)).Nodup ∧ ∀ m ∈ features,
        (m.kind = .byte → m.values.size ≤ 255) ∧ (m.kind = .short → m.values.size ≤ 32767)) ∧
    ∀ s, ofFeatures? features = .ok s → Arranges features s.features.toList ∧ s.Resolves := by
  refine ⟨exists_ofFeatures?_iff.trans (faultless_arrange_iff features),
    fun s h => ⟨?_, s.resolves⟩⟩
  rw [features_of_ofFeatures? h]
  exact arranges_arrange features

/-- Features that are not arranged, one of which has the same name for two values. -/
def scattered : List FeatureMeta :=
  [.continuous "dur", .short "pos" #["0", "n", "0"], .byte "phone" #["a", "e"], .byte "tone" #[]]

/-- The value that is named twice has the lower one of its ordinals. -/
theorem ofFeatures?_arranges_scattered :
    ∃ s, ofFeatures? scattered = .ok s ∧ Arranges scattered s.features.toList ∧
      s.valueOrdinal 2 "0" = .ok 0 := by
  obtain ⟨s, hs⟩ := (ofFeatures?_arranges scattered).1.mpr (by decide)
  obtain ⟨harranges, hresolves⟩ := (ofFeatures?_arranges scattered).2 s hs
  have hget : s.get? 2 = some (.short "pos" #["0", "n", "0"]) := by
    rw [get?_eq_append, harranges.stable, harranges.stable, harranges.stable]
    decide
  exact ⟨s, hs, harranges, (hresolves.ordinal 2 _ hget rfl "0" 0).mpr (by decide)⟩

end Schema

end FeatureTree
