/-
Names of features and of values.

The names of a schema are distinct, so a feature is found under its own name; a value
is found under its name unless a lower ordinal has the same one.

* `Schema.featureIndex_name`, `Schema.mapM_featureIndex` — the index of a feature's own
  name, and of a name that may be absent;
* `Schema.valueOrdinal_eq` — the ordinal of a value that no lower one is named like;
* `Schema.valueOrdinal_eq_error`, `Schema.first_of_valueOrdinal` — names without an ordinal, and
  the ordinal of any other name;
* `Schema.features_of_ofFeatures?`, `Schema.exists_ofFeatures?_iff` — the features of a schema
  that is made, and which lists of features make one;
* `Schema.Refits`, `Schema.ofFeatures?_refit` — the same features with other contents.
-/
import FeatureTree.Proofs.Schema.Tables

namespace FeatureTree

theorem FeatureKind.isDiscrete_eq_false_iff {kind : FeatureKind} :
    kind.isDiscrete = false ↔ kind = .continuous := by
  cases kind <;> simp [isDiscrete]

namespace Schema

variable {s : Schema} {i j : Nat} {m : FeatureMeta}

/-- No two features have one name. -/
theorem index_unique {m' : FeatureMeta} (hi : s.get? i = some m) (hj : s.get? j = some m')
    (h : m.name = m'.name) : i = j := by
  have hnodup := s.faultless.nodup
  have hname : ∀ {k : Nat} {x : FeatureMeta}, s.get? k = some x →
      (s.features.toList.map (·.name))[k]? = some x.name := by
    intro k x hk
    rw [List.getElem?_map, Array.getElem?_toList, show s.features[k]? = some x from hk]
    rfl
  have hlt : i < (s.features.toList.map (·.name)).length :=
    (List.getElem?_eq_some_iff.mp (hname hi)).1
  refine (List.getElem?_inj hlt hnodup).mp ?_
  rw [hname hi, hname hj, h]

theorem featureIndex_name (h : s.get? i = some m) : s.featureIndex m.name = .ok i := by
  obtain ⟨hi, rfl⟩ := Array.getElem?_eq_some_iff.mp h
  have hmem : s.features[i] ∈ s.features := Array.getElem_mem hi
  obtain ⟨k, hk⟩ : ∃ k, s.features.findIdx? (fun x => x.name == s.features[i].name) = some k := by
    rw [← Option.ne_none_iff_exists']
    intro hnone
    have := Array.findIdx?_eq_none_iff.mp hnone _ hmem
    simp at this
  obtain ⟨hlt, hname, -⟩ := Array.findIdx?_eq_some_iff_getElem.mp hk
  have hsame : k = i := index_unique (Array.getElem?_eq_getElem hlt) h (by simpa using hname)
  rw [featureIndex, featureIndex?_eq_findIdx?, hk, hsame]

/-- A name that may be absent, and is in the schema if it is there. -/
theorem mapM_featureIndex {name : Option String}
    (h : ∀ n, name = some n → ∃ i, s.featureIndex? n = some i) :
    name.mapM s.featureIndex = .ok (name.bind s.featureIndex?) := by
  cases name with
  | none => rfl
  | some n =>
    obtain ⟨i, hi⟩ := h n rfl
    have hn : s.featureIndex n = .ok i := by rw [featureIndex, hi]
    show some <$> s.featureIndex n = .ok (s.featureIndex? n)
    rw [hn, hi]
    rfl

/-- The ordinal of a value that no lower one is named like. -/
theorem valueOrdinal_eq {value : String} (h : s.get? i = some m)
    (hdiscrete : m.kind.isDiscrete = true) (hvalue : m.values[j]? = some value)
    (hfirst : ∀ k < j, m.values[k]? ≠ some value) : s.valueOrdinal i value = .ok j := by
  have hfind : m.values.findIdx? (· == value) = some j := by
    obtain ⟨hj, heq⟩ := Array.getElem?_eq_some_iff.mp hvalue
    refine Array.findIdx?_eq_some_iff_getElem.mpr ⟨hj, by simpa using heq, fun k hk => ?_⟩
    have hne := hfirst k hk
    rw [Array.getElem?_eq_getElem (Nat.lt_trans hk hj)] at hne
    simpa using hne
  rw [valueOrdinal_eq_findIdx? h hdiscrete, hfind]
  rfl

/-- A name that no value has is refused. -/
theorem valueOrdinal_eq_error {value : String} (h : s.get? i = some m)
    (hdiscrete : m.kind.isDiscrete = true) (hvalue : ∀ j : Nat, m.values[j]? ≠ some value) :
    s.valueOrdinal i value = .error (.unknownValue m.name value) := by
  have hfind : m.values.findIdx? (· == value) = none := by
    refine Array.findIdx?_eq_none_iff.mpr fun x hx => ?_
    obtain ⟨j, hj⟩ := Array.mem_iff_getElem?.mp hx
    rw [beq_eq_false_iff_ne]
    rintro rfl
    exact hvalue j hj
  rw [valueOrdinal_eq_findIdx? h hdiscrete, hfind]
  rfl

/-- A name that is found stands at the lowest ordinal with this name. -/
theorem first_of_valueOrdinal {value : String} (h : s.get? i = some m)
    (hj : s.valueOrdinal i value = .ok j) :
    m.values[j]? = some value ∧ ∀ k < j, m.values[k]? ≠ some value := by
  have hdiscrete : m.kind.isDiscrete = true := by
    cases hkind : m.kind.isDiscrete with
    | true => rfl
    | false =>
      rw [valueOrdinal, discreteFeature, feature, h] at hj
      simp [bind, Except.bind, hkind] at hj
  rw [valueOrdinal_eq_findIdx? h hdiscrete] at hj
  cases hfind : m.values.findIdx? (· == value) with
  | none =>
    rw [hfind] at hj
    cases hj
  | some n =>
    rw [hfind] at hj
    obtain rfl := Except.ok.inj hj
    obtain ⟨hlt, heq, hfirst⟩ := Array.findIdx?_eq_some_iff_getElem.mp hfind
    refine ⟨Array.getElem?_eq_some_iff.mpr ⟨hlt, by simpa using heq⟩, fun k hk hvalue => ?_⟩
    obtain ⟨hlt', rfl⟩ := Array.getElem?_eq_some_iff.mp hvalue
    simpa using hfirst k hk

theorem valueName_eq {value : String} (h : s.get? i = some m)
    (hdiscrete : m.kind.isDiscrete = true) (hvalue : m.values[j]? = some value) :
    s.valueName i j = .ok value := by
  rw [valueName, discreteFeature, feature, h]
  simp [bind, Except.bind, hdiscrete, hvalue]

/-! ### Features of one kind -/

theorem mem_ofKind_iff {kind : FeatureKind} {features : List FeatureMeta} :
    m ∈ ofKind kind features ↔ m ∈ features ∧ m.kind = kind := by
  rw [ofKind, List.mem_filter, beq_iff_eq]

/-! ### Features with other contents -/

/-- The features keep their names and kinds and, where they are discrete, the number of their
values. -/
structure Refits (f : FeatureMeta → FeatureMeta) : Prop where
  name : ∀ m, (f m).name = m.name
  kind : ∀ m, (f m).kind = m.kind
  size : ∀ m, m.kind.isDiscrete = true → (f m).values.size = m.values.size

section

variable {f : FeatureMeta → FeatureMeta} (hf : Refits f)
include hf

theorem Refits.ofKind_map (kind : FeatureKind) (features : List FeatureMeta) :
    ofKind kind (features.map f) = (ofKind kind features).map f := by
  rw [ofKind, ofKind, List.filter_map]
  refine congrArg _ (List.filter_congr fun m _ => ?_)
  rw [Function.comp, hf.kind]

theorem Refits.arrange_map (features : List FeatureMeta) :
    arrange (features.map f) = (arrange features).map f := by
  rw [arrange, arrange, hf.ofKind_map, hf.ofKind_map, hf.ofKind_map, List.map_append,
    List.map_append]

theorem Refits.faultless_map {features : List FeatureMeta} (h : Faultless features) :
    Faultless (features.map f) where
  nodup := by
    rw [List.map_map]
    exact (List.map_congr_left fun m _ => hf.name m) ▸ h.nodup
  size_le := by
    intro m' hm' hdiscrete
    obtain ⟨m, hm, rfl⟩ := List.mem_map.mp hm'
    rw [hf.kind] at hdiscrete ⊢
    rw [hf.size m hdiscrete]
    exact h.size_le m hm hdiscrete

end

/-- The schema of the features with other contents. -/
def refit (s : Schema) (f : FeatureMeta → FeatureMeta) (hf : Refits f) : Schema :=
  .ofArranged (s.features.map f)
    (by rw [Array.toList_map, hf.arrange_map, s.arranged])
    (by
      rw [Array.toList_map, isSome_tables?_iff]
      exact hf.faultless_map s.faultless)

theorem toList_features_refit {f : FeatureMeta → FeatureMeta} (hf : Refits f) :
    (s.refit f hf).features.toList = s.features.toList.map f :=
  Array.toList_map ..

theorem get?_refit {f : FeatureMeta → FeatureMeta} (hf : Refits f) (i : Nat) :
    (s.refit f hf).get? i = (s.get? i).map f :=
  Array.getElem?_map ..

theorem features_of_ofFeatures? {features : List FeatureMeta} (h : ofFeatures? features = .ok s) :
    s.features.toList = arrange features := by
  unfold ofFeatures? at h
  split at h
  · cases h
  · rw [← Except.ok.inj h]

theorem exists_ofFeatures?_iff {features : List FeatureMeta} :
    (∃ s, ofFeatures? features = .ok s) ↔ Faultless (arrange features) := by
  rw [← exists_tables?_iff]
  unfold ofFeatures?
  split
  · next e he => simp [he]
  · next t ht => simp [ht]

theorem ofFeatures?_toList (s : Schema) : ofFeatures? s.features.toList = .ok s := by
  obtain ⟨t, ht⟩ := exists_ofFeatures?_iff.mpr (s.arranged.symm ▸ s.faultless)
  rw [ht]
  have hfeatures : t.features.toList = s.features.toList :=
    (features_of_ofFeatures? ht).trans s.arranged
  exact congrArg Except.ok (ext_features (Array.toList_inj.mp hfeatures))

/-- The features of a schema, kind by kind and with other contents, make a schema again. -/
theorem ofFeatures?_refit (s : Schema) {f : FeatureMeta → FeatureMeta} (hf : Refits f) :
    ofFeatures? ((ofKind .byte s.features.toList).map f ++
        (ofKind .short s.features.toList).map f ++
      (ofKind .continuous s.features.toList).map f) = .ok (s.refit f hf) := by
  have hall : (arrange s.features.toList).map f = (s.refit f hf).features.toList := by
    rw [s.arranged, toList_features_refit]
  rw [← List.map_append, ← List.map_append, ← arrange, hall, ofFeatures?_toList]

end Schema

end FeatureTree
