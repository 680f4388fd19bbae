/-
A vector that is encoded from value names takes the branches of these names.

The values of a vector stand in three sequences, by kind; since the features of a schema
stand by kind too, the value of the feature at an index is found at that index.  A name
has one ordinal, and no other name has it, so that a test for a name holds of the vectors
that were encoded from this name.

* `FeatureVector.Holds`, `FeatureValue.holds_collect` — a value at an index of a vector;
* `Schema.exists_holds_of_readValues` — values that were read stand at their features;
* `Schema.ordinal?_of_encode` — the ordinal that a name is encoded to;
* `Schema.Equality`, `Schema.slot_of_equality`, `Schema.slot_branching` — the tests;
* `Schema.encode_selects` — the branches of an encoded vector.
-/
import FeatureTree.Proofs.Schema.Consistency

namespace FeatureTree

/-! ### The values of a vector by index -/

/-- A vector holds a value at an index, which addresses a feature of the value's kind. -/
def FeatureVector.Holds (v : FeatureVector) (i : Nat) : FeatureValue → Prop
  | .byte b => v.byte? i = some b
  | .short x => v.short? i = some x
  | .continuous x => v.continuous? i = some x

namespace FeatureValue

variable {unit : UInt32} {values : List FeatureValue} {i : Nat} {x : FeatureValue}

/-- Values whose kinds are arranged stand in three groups. -/
theorem exists_groups (h : (values.map kind).Pairwise fun a b => a.rank ≤ b.rank) :
    ∃ bytes shorts floats,
      values = List.map byte bytes ++ List.map short shorts ++ List.map continuous floats := by
  induction values with
  | nil => exact ⟨[], [], [], rfl⟩
  | cons value values ih =>
    rw [List.map_cons, List.pairwise_cons] at h
    obtain ⟨hfirst, hrest⟩ := h
    obtain ⟨bytes, shorts, floats, rfl⟩ := ih hrest
    simp only [List.map_append, List.map_map, List.mem_append, List.mem_map] at hfirst
    -- behind a value there is none of a lower kind
    cases value with
    | byte b => exact ⟨b :: bytes, shorts, floats, rfl⟩
    | short y =>
      obtain rfl : bytes = [] := List.eq_nil_iff_forall_not_mem.mpr fun b hb =>
        absurd (hfirst .byte (.inl (.inl ⟨b, hb, rfl⟩))) (by simp [kind, FeatureKind.rank])
      exact ⟨[], y :: shorts, floats, rfl⟩
    | continuous y =>
      obtain rfl : bytes = [] := List.eq_nil_iff_forall_not_mem.mpr fun b hb =>
        absurd (hfirst .byte (.inl (.inl ⟨b, hb, rfl⟩))) (by simp [kind, FeatureKind.rank])
      obtain rfl : shorts = [] := List.eq_nil_iff_forall_not_mem.mpr fun z hz =>
        absurd (hfirst .short (.inl (.inr ⟨z, hz, rfl⟩))) (by simp [kind, FeatureKind.rank])
      exact ⟨[], [], y :: floats, rfl⟩

theorem collect_groups (bytes : List UInt8) (shorts : List Int16) (floats : List Single) :
    collect unit (bytes.map byte ++ shorts.map short ++ floats.map continuous) =
      ⟨unit, bytes.toArray, shorts.toArray, floats.toArray⟩ := by
  simp [collect, List.filterMap_map]

/-- Every value is found at its own index. -/
theorem holds_collect (h : (values.map kind).Pairwise fun a b => a.rank ≤ b.rank)
    (hx : values[i]? = some x) : (collect unit values).Holds i x := by
  obtain ⟨bytes, shorts, floats, rfl⟩ := exists_groups h
  rw [collect_groups]
  rw [List.getElem?_append, List.getElem?_append] at hx
  simp only [List.length_append, List.length_map, List.getElem?_map] at hx
  split at hx
  · split at hx
    · obtain ⟨b, hb, rfl⟩ := Option.map_eq_some_iff.mp hx
      simpa [FeatureVector.Holds, FeatureVector.byte?] using hb
    · next hlow =>
      obtain ⟨y, hy, rfl⟩ := Option.map_eq_some_iff.mp hx
      simpa [FeatureVector.Holds, FeatureVector.short?, Nat.not_lt.mp hlow] using hy
  · next hlow =>
    obtain ⟨y, hy, rfl⟩ := Option.map_eq_some_iff.mp hx
    simpa [FeatureVector.Holds, FeatureVector.continuous?, Nat.not_lt.mp hlow,
      Nat.sub_sub] using hy

end FeatureValue

namespace Schema

variable {s : Schema} {v : FeatureVector} {unit : UInt32} {values : List String} {i n : Nat}
  {m : FeatureMeta} {value : String}

/-- The kinds of the features are arranged. -/
theorem pairwise_rank (s : Schema) :
    (s.features.toList.map (·.kind)).Pairwise fun a b => a.rank ≤ b.rank := by
  rw [List.pairwise_map, ← s.arranged]
  exact ordered_arrange s.features.toList

/-- What is read for a feature is found at the feature's index. -/
theorem exists_holds_of_readValues
    {read : Nat → FeatureMeta → String → Except SchemaError FeatureValue}
    (hread : ∀ i m text value, read i m text = .ok value → value.kind = m.kind)
    (h : s.readValues read unit values = .ok v) (hm : s.get? i = some m) :
    ∃ value x, values[i]? = some value ∧ read i m value = .ok x ∧ v.Holds i x := by
  obtain ⟨hlength, xs, hxs, rfl⟩ := readValues_eq_ok_iff.mp h
  have hi : i < s.size := (Array.getElem?_eq_some_iff.mp hm).1
  obtain ⟨value, hvalue⟩ : ∃ value, values[i]? = some value :=
    ⟨_, List.getElem?_eq_getElem (hlength ▸ hi)⟩
  have hzip : (s.features.toList.zip values)[i]? = some (m, value) :=
    List.getElem?_zip_eq_some.mpr ⟨(Array.getElem?_toList ..).trans hm, hvalue⟩
  have hpair : ((s.features.toList.zip values).zipIdx)[i]? = some ((m, value), i) := by
    rw [List.getElem?_zipIdx, hzip, Option.map_some, Nat.zero_add]
  obtain ⟨x, hx, hvalue'⟩ := exists_getElem?_of_mapM hxs hpair
  have hkinds := map_kind_of_mapM hread (by simpa [size] using hlength) hxs
  exact ⟨value, x, hvalue, hvalue', FeatureValue.holds_collect (hkinds ▸ s.pairwise_rank) hx⟩

/-- A discrete feature has the ordinal of the name that it was encoded from. -/
theorem ordinal?_of_encode (h : s.encode unit values = .ok v) (hm : s.get? i = some m)
    (hdiscrete : m.kind.isDiscrete = true) :
    ∃ value n, values[i]? = some value ∧ s.valueOrdinal i value = .ok n ∧
      v.ordinal? i = some (n : Int) := by
  have hfits : s.Fits v := Builds.fits (.encode h)
  rw [encode_eq_readValues] at h
  obtain ⟨value, x, hvalue, hx, hholds⟩ :=
    exists_holds_of_readValues (fun _ _ _ _ => kind_of_readName) h hm
  refine ⟨value, ?_⟩
  rw [readName] at hx
  cases hkind : m.kind with
  | byte =>
    simp only [hkind] at hx
    obtain ⟨b, hb, rfl⟩ := map_eq_ok_iff.mp hx
    have hn := map_toNat_byteValue hm hkind value
    rw [hb] at hn
    refine ⟨b.toNat, hvalue, hn.symm, ?_⟩
    rw [hfits.ordinal?_of_byte hm hkind, show v.byte? i = some b from hholds]
    rfl
  | short =>
    simp only [hkind] at hx
    obtain ⟨y, hy, rfl⟩ := map_eq_ok_iff.mp hx
    have hn := map_toInt_shortValue hm hkind value
    rw [hy] at hn
    obtain ⟨n, hn, hny⟩ := map_eq_ok_iff.mp hn.symm
    refine ⟨n, hvalue, hn, ?_⟩
    rw [hfits.ordinal?_of_short hm hkind, show v.short? i = some y from hholds, Option.map_some,
      ← hny]
    rfl
  | continuous => simp [hkind, FeatureKind.isDiscrete] at hdiscrete

/-! ### The tests for values -/

/-- The equality nodes for a value of a feature. -/
inductive Equality (s : Schema) (i : Nat) (value : String) : Decision → Prop
  | byte {b : UInt8} : s.byteValue i value = .ok b → Equality s i value (.byteEquals i b)
  | short {x : Int16} : s.shortValue i value = .ok x → Equality s i value (.shortEquals i x)

/-- The node with a slot for every value of a discrete feature. -/
def branching (m : FeatureMeta) (i : Nat) : Decision :=
  if m.kind = .short then .shortOf i m.values.size else .byteOf i m.values.size

/-- There is an equality node for every declared value. -/
theorem exists_equality (hm : s.get? i = some m) (hdiscrete : m.kind.isDiscrete = true)
    (hvalue : value ∈ m.values) : ∃ d, s.Equality i value d := by
  obtain ⟨n, hn⟩ := exists_valueOrdinal hm hdiscrete hvalue
  cases hkind : m.kind with
  | byte => exact ⟨_, .byte (byteValue_eq_ok_iff.mpr ⟨m, n, hm, hkind, hn, rfl⟩)⟩
  | short => exact ⟨_, .short (shortValue_eq_ok_iff.mpr ⟨m, n, hm, hkind, hn, rfl⟩)⟩
  | continuous => simp [hkind, FeatureKind.isDiscrete] at hdiscrete

/-- Names with one ordinal are one name. -/
theorem valueOrdinal_inj {other : String} (hm : s.get? i = some m)
    (h : s.valueOrdinal i value = .ok n) (h' : s.valueOrdinal i other = .ok n) : value = other :=
  Option.some_inj.mp ((first_of_valueOrdinal hm h).1.symm.trans (first_of_valueOrdinal hm h').1)

/-- An equality node for a name holds of the vectors with the ordinal of this name. -/
theorem slot_of_equality {d : Decision} {other : String} (hv : s.Fits v) (hm : s.get? i = some m)
    (hn : s.valueOrdinal i value = .ok n) (hordinal : v.ordinal? i = some (n : Int))
    (hd : s.Equality i other d) : d.slot v = .ok (some (if other = value then 0 else 1)) := by
  obtain ⟨k, hk, hslot⟩ : ∃ k, s.valueOrdinal i other = .ok k ∧
      d.slot v = .ok (some (if v.ordinal? i = some (k : Int) then 0 else 1)) := by
    cases hd with
    | byte hb =>
      obtain ⟨k, hk, hasks⟩ := asks_of_byteValue hb
      exact ⟨k, hk, hasks _ v hv⟩
    | short hx =>
      obtain ⟨k, hk, hasks⟩ := asks_of_shortValue hx
      exact ⟨k, hk, hasks _ v hv⟩
  have hiff : v.ordinal? i = some (k : Int) ↔ other = value := by
    rw [hordinal, Option.some_inj, Int.ofNat_inj]
    constructor
    · rintro rfl
      exact valueOrdinal_inj hm hk hn
    · rintro rfl
      exact Except.ok.inj (hn.symm.trans hk)
  rw [hslot]
  simp only [hiff]

/-- A node with a slot for every value selects the one whose number is the ordinal. -/
theorem slot_branching (hv : s.Fits v) (hm : s.get? i = some m)
    (hdiscrete : m.kind.isDiscrete = true) (hordinal : v.ordinal? i = some (n : Int)) :
    (branching m i).slot v = .ok (some n) := by
  rw [branching]
  cases hkind : m.kind with
  | byte =>
    rw [hv.ordinal?_of_byte hm hkind] at hordinal
    obtain ⟨b, hb, hn⟩ := Option.map_eq_some_iff.mp hordinal
    rw [if_neg (by decide)]
    show (do let b ← Decision.require i (v.byte? i); return some b.toNat) = _
    rw [hb, ← Int.ofNat_inj.mp hn]
    rfl
  | short =>
    rw [hv.ordinal?_of_short hm hkind] at hordinal
    obtain ⟨x, hx, hn⟩ := Option.map_eq_some_iff.mp hordinal
    rw [if_pos rfl]
    show (do let x ← Decision.require i (v.short? i)
             return if x.toInt < 0 then none else some x.toInt.toNat) = _
    rw [hx]
    show Except.ok (if x.toInt < 0 then none else some x.toInt.toNat) = _
    rw [hn, if_neg (by omega), Int.toNat_natCast]
  | continuous => simp [hkind, FeatureKind.isDiscrete] at hdiscrete

/-- A vector that is encoded from names has as many values of each kind as the schema.  For
every discrete feature its value is shown as the name that was given; the equality node for
a declared value selects its first slot exactly if this is the name, and its second slot
otherwise; and the node with a slot for every value selects one that is there and whose
value has the name. -/
theorem encode_selects (h : s.encode unit values = .ok v) :
    v.shape = s.shape ∧
    ∀ i m, s.get? i = some m → m.kind.isDiscrete = true → ∃ value, values[i]? = some value ∧
      s.renderValue v i = some (.ok value) ∧
      (∀ other ∈ m.values, (∃ d, s.Equality i other d) ∧
        ∀ d, s.Equality i other d → d.slot v = .ok (some (if other = value then 0 else 1))) ∧
      ∃ k < (branching m i).children.size,
        (branching m i).slot v = .ok (some k) ∧ s.valueName i k = .ok value := by
  have hfits : s.Fits v := Builds.fits (.encode h)
  refine ⟨hfits, fun i m hm hdiscrete => ?_⟩
  obtain ⟨value, n, hvalue, hn, hordinal⟩ := ordinal?_of_encode h hm hdiscrete
  have hname := (first_of_valueOrdinal hm hn).1
  have hsize : (branching m i).children.size = m.values.size := by
    rw [branching]
    split <;> exact Array.size_replicate
  have hvalueName : s.valueName i n = .ok value := valueName_eq hm hdiscrete hname
  have hrender : s.renderValue v i = some (.ok value) := by
    rw [renderValue, feature_eq_ok_iff.mpr hm]
    dsimp only
    rw [if_pos hdiscrete, hordinal, Option.map_some, hvalueName]
  have hlt : n < (branching m i).children.size := by
    rw [hsize]
    exact (Array.getElem?_eq_some_iff.mp hname).1
  refine ⟨value, hvalue, hrender, fun other hother => ?_, n, hlt, ?_, hvalueName⟩
  · exact ⟨exists_equality hm hdiscrete hother,
      fun d hd => slot_of_equality hfits hm hn hordinal hd⟩
  · exact slot_branching hfits hm hdiscrete hordinal

/-- A schema with a feature of every kind and a value that is named twice. -/
def doubled : Schema :=
  .ofArranged #[.byte "phone" #["a", "e"], .short "pos" #["0", "n", "0"], .continuous "dur"]
    (by decide) (by decide)

/-- The name that two values have is encoded to one of them, and shown as it was given. -/
theorem encode_selects_doubled :
    ∃ v, doubled.encode 7 ["e", "0", "0.5"] = .ok v ∧ v.shape = (1, 1, 1) ∧
      doubled.renderValue v 1 = some (.ok "0") ∧
      ∀ d, doubled.Equality 1 "n" d → d.slot v = .ok (some 1) := by
  have hisOk : (doubled.encode 7 ["e", "0", "0.5"]).toOption.isSome = true := by
    decide +kernel
  cases hv : doubled.encode 7 ["e", "0", "0.5"] with
  | error e => simp [hv, Except.toOption] at hisOk
  | ok v =>
    obtain ⟨hshape, hfeatures⟩ := encode_selects hv
    obtain ⟨value, hvalue, hrender, hequality, -⟩ := hfeatures 1 _ rfl rfl
    obtain rfl : "0" = value := Option.some_inj.mp hvalue
    exact ⟨v, rfl, hshape, hrender, (hequality "n" (Array.mem_of_getElem? (i := 1) rfl)).2⟩

end Schema

end FeatureTree
