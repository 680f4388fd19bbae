/-
Looking up features and values, and what the tests ask that are built from them.

The ordinal of a value counts the values before it, so it stays below the number of values
that the kind of the feature allows and fits the word in which it is stored.

* `Schema.feature_eq_ok_iff`, `Schema.featureIndex_eq_ok_iff`,
  `Schema.discreteFeature_eq_ok_iff` — features by index and by name;
* `Schema.exists_of_valueOrdinal`, `Schema.valueOrdinal_lt_maxValues` — the bounds of an
  ordinal;
* `Schema.byteValue_eq_ok_iff`, `Schema.shortValue_eq_ok_iff` — ordinals as words;
* `Schema.suits_of_byteValue`, `Schema.suits_of_shortValue` — a test with such a word suits
  the schema;
* `Schema.Asks`, `Schema.asks_of_byteValue`, `Schema.asks_of_shortValue` — what an equality
  test with such a word asks.
-/
import FeatureTree.Proofs.Schema.Fitting
import FeatureTree.Proofs.Tree.WellFormed

namespace FeatureTree.Schema

variable {s : Schema} {i n : Nat} {m : FeatureMeta} {v : FeatureVector} {value : String}

theorem feature_eq_ok_iff : s.feature i = .ok m ↔ s.get? i = some m := by
  rw [feature]
  cases s.get? i <;> simp

theorem featureIndex_eq_ok_iff {name : String} :
    s.featureIndex name = .ok i ↔ s.featureIndex? name = some i := by
  rw [featureIndex]
  cases s.featureIndex? name <;> simp

theorem discreteFeature_eq_ok_iff :
    s.discreteFeature i = .ok m ↔ s.get? i = some m ∧ m.kind.isDiscrete = true := by
  rw [discreteFeature, bind_eq_ok_iff]
  constructor
  · rintro ⟨m', hm', h⟩
    split at h
    · next hkind =>
      obtain rfl := Except.ok.inj h
      exact ⟨feature_eq_ok_iff.mp hm', hkind⟩
    · exact absurd h (by simp)
  · rintro ⟨hm, hkind⟩
    exact ⟨m, feature_eq_ok_iff.mpr hm, by rw [if_pos hkind]⟩

/-- The ordinal of a value counts the values before it. -/
theorem exists_of_valueOrdinal (h : s.valueOrdinal i value = .ok n) :
    ∃ m, s.get? i = some m ∧ m.kind.isDiscrete = true ∧ n < m.values.size := by
  obtain ⟨m, hm, -⟩ := bind_eq_ok_iff.mp h
  obtain ⟨hm, hkind⟩ := discreteFeature_eq_ok_iff.mp hm
  exact ⟨m, hm, hkind, (Array.getElem?_eq_some_iff.mp (first_of_valueOrdinal hm h).1).1⟩

theorem valueOrdinal_lt_maxValues (h : s.valueOrdinal i value = .ok n) (hm : s.get? i = some m) :
    n < m.kind.maxValues := by
  obtain ⟨m', hm', hdiscrete, hlt⟩ := exists_of_valueOrdinal h
  obtain rfl : m = m' := Option.some_inj.mp (hm.symm.trans hm')
  have hmem : m ∈ s.features.toList := Array.mem_toList_iff.mpr (Array.mem_of_getElem? hm)
  exact Nat.lt_of_lt_of_le hlt (s.faultless.size_le m hmem hdiscrete)

/-- A test asks whether a feature has an ordinal: it selects the first slot of the
vectors that have it, and the second slot of the others. -/
def Asks (s : Schema) (feature ordinal : Nat) (test : DecisionTest) : Prop :=
  ∀ (children : Array (Option NodeId)) (v : FeatureVector), s.Fits v →
    Decision.slot ⟨feature, test, children⟩ v =
      .ok (some (if v.ordinal? feature = some (ordinal : Int) then 0 else 1))

theorem expectKind_eq_ok_iff {kind : FeatureKind} :
    s.expectKind i kind = .ok () ↔ ∃ m, s.get? i = some m ∧ m.kind = kind := by
  rw [expectKind, bind_eq_ok_iff]
  constructor
  · rintro ⟨m, hm, h⟩
    split at h
    · next hk => exact ⟨m, feature_eq_ok_iff.mp hm, hk⟩
    · exact absurd h (by simp)
  · rintro ⟨m, hm, hk⟩
    exact ⟨m, feature_eq_ok_iff.mpr hm, by rw [if_pos hk]⟩

theorem byteValue_eq_ok_iff {b : UInt8} :
    s.byteValue i value = .ok b ↔ ∃ m n, s.get? i = some m ∧ m.kind = .byte ∧
      s.valueOrdinal i value = .ok n ∧ UInt8.ofNat n = b := by
  rw [byteValue, bind_eq_ok_iff]
  constructor
  · rintro ⟨_, hkind, h⟩
    obtain ⟨m, hm, hbyte⟩ := expectKind_eq_ok_iff.mp hkind
    obtain ⟨n, hn, hb⟩ := bind_eq_ok_iff.mp h
    exact ⟨m, n, hm, hbyte, hn, Except.ok.inj hb⟩
  · rintro ⟨m, n, hm, hbyte, hn, rfl⟩
    exact ⟨(), expectKind_eq_ok_iff.mpr ⟨m, hm, hbyte⟩, bind_eq_ok_iff.mpr ⟨n, hn, rfl⟩⟩

theorem shortValue_eq_ok_iff {x : Int16} :
    s.shortValue i value = .ok x ↔ ∃ m n, s.get? i = some m ∧ m.kind = .short ∧
      s.valueOrdinal i value = .ok n ∧ Int16.ofNat n = x := by
  rw [shortValue, bind_eq_ok_iff]
  constructor
  · rintro ⟨_, hkind, h⟩
    obtain ⟨m, hm, hshort⟩ := expectKind_eq_ok_iff.mp hkind
    obtain ⟨n, hn, hx⟩ := bind_eq_ok_iff.mp h
    exact ⟨m, n, hm, hshort, hn, Except.ok.inj hx⟩
  · rintro ⟨m, n, hm, hshort, hn, rfl⟩
    exact ⟨(), expectKind_eq_ok_iff.mpr ⟨m, hm, hshort⟩, bind_eq_ok_iff.mpr ⟨n, hn, rfl⟩⟩

theorem suits_of_byteValue {b : UInt8} (h : s.byteValue i value = .ok b) :
    (Decision.byteEquals i b).Suits s := by
  obtain ⟨m, -, hm, hbyte, -, -⟩ := byteValue_eq_ok_iff.mp h
  exact ⟨m, hm, fun kind hkind => hbyte.trans (Option.some_inj.mp hkind), rfl⟩

theorem suits_of_shortValue {x : Int16} (h : s.shortValue i value = .ok x) :
    (Decision.shortEquals i x).Suits s := by
  obtain ⟨m, -, hm, hshort, -, -⟩ := shortValue_eq_ok_iff.mp h
  exact ⟨m, hm, fun kind hkind => hshort.trans (Option.some_inj.mp hkind), rfl⟩

/-- The ordinals of a byte-valued feature fit a byte, so that equal bytes are equal
ordinals. -/
theorem asks_of_byteValue {b : UInt8} (h : s.byteValue i value = .ok b) :
    ∃ n, s.valueOrdinal i value = .ok n ∧ s.Asks i n (.byteEquals b) := by
  obtain ⟨m, n, hm, hbyte, hn, rfl⟩ := byteValue_eq_ok_iff.mp h
  refine ⟨n, hn, fun children v hv => ?_⟩
  have hlt : n < 256 := by
    have hmax := valueOrdinal_lt_maxValues hn hm
    rw [hbyte] at hmax
    exact Nat.lt_of_lt_of_le hmax (by decide)
  obtain ⟨x, hx⟩ := hv.exists_byte hm hbyte
  have heq : (x == UInt8.ofNat n) = decide ((x.toNat : Int) = n) := by
    rw [Bool.eq_iff_iff, beq_iff_eq, decide_eq_true_iff, ← UInt8.toNat_inj,
      UInt8.toNat_ofNat_of_lt' hlt, Int.ofNat_inj]
  rw [Decision.slot, hv.ordinal?_of_byte hm hbyte]
  simp only [hx, Option.map_some, Option.some_inj]
  show Except.ok (some (Decision.binarySlot (x == UInt8.ofNat n))) = _
  rw [heq, Decision.binarySlot]
  by_cases h : (x.toNat : Int) = n <;> simp [h]

/-- The ordinals of a short-valued feature fit sixteen bits. -/
theorem asks_of_shortValue {x : Int16} (h : s.shortValue i value = .ok x) :
    ∃ n, s.valueOrdinal i value = .ok n ∧ s.Asks i n (.shortEquals x) := by
  obtain ⟨m, n, hm, hshort, hn, rfl⟩ := shortValue_eq_ok_iff.mp h
  refine ⟨n, hn, fun children v hv => ?_⟩
  have hlt : n < 2 ^ 15 := by
    have hmax := valueOrdinal_lt_maxValues hn hm
    rw [hshort] at hmax
    exact Nat.lt_of_lt_of_le hmax (by decide)
  obtain ⟨y, hy⟩ := hv.exists_short hm hshort
  have heq : (y == Int16.ofNat n) = decide (y.toInt = n) := by
    rw [Bool.eq_iff_iff, beq_iff_eq, decide_eq_true_iff, ← Int16.toInt_inj,
      Int16.toInt_ofNat_of_lt hlt]
  rw [Decision.slot, hv.ordinal?_of_short hm hshort]
  simp only [hy, Option.map_some, Option.some_inj]
  show Except.ok (some (Decision.binarySlot (y == Int16.ofNat n))) = _
  rw [heq, Decision.binarySlot]
  by_cases h : y.toInt = n <;> simp [h]

end FeatureTree.Schema
