/-
The tables of a schema agree with its features.

The tables are filled while the features are gone through once.  A name that is entered is
new, since a second one is refused, and a value that occurs again keeps its ordinal.  So each
look-up finds what a search through the features or through the values finds first, and the
counts are those of the features.

* `Schema.get?_addValues`, `Schema.get?_ordinalTable` — the table of the values of a feature;
* `Schema.addFeatures_cons_eq_ok_iff`, `Schema.exists_addFeatures_iff`,
  `Schema.get?_of_addFeatures`, `Schema.ordinals_of_addFeatures` — one feature, and all of them;
* `Schema.Faultless`, `Schema.exists_tables?_iff` — the lists of features that have tables;
* `Schema.featureIndex?_eq_findIdx?`, `Schema.valueOrdinal_eq_findIdx?`,
  `Schema.count_eq_countP` — the look-ups and counts of a schema.
-/
import FeatureTree.Schema.Basic

namespace FeatureTree.Schema

variable {s : Schema} {features rest : List FeatureMeta} {i index : Nat} {m : FeatureMeta}
  {names : NameTable} {ordinals : Array NameTable} {added : NameTable × Array NameTable}

/-! ### The values of a feature -/

/-- A search whose count begins at `n`. -/
theorem map_findIdx?_cons {α : Type} (p : α → Bool) (x : α) (rest : List α) (n : Nat) :
    ((x :: rest).findIdx? p).map (n + ·) =
      if p x = true then some n else (rest.findIdx? p).map (n + 1 + ·) := by
  rw [List.findIdx?_cons]
  split
  · rfl
  · rw [Option.map_map]
    exact congrArg (Option.map · _) (funext fun k => (Nat.add_right_comm n 1 k).symm)

/-- A value that is in the table keeps its number; any other one gets that of the first place
at which it occurs. -/
theorem get?_addValues (value : String) (values : List String) :
    ∀ (ordinal : Nat) (t : NameTable), (addValues ordinal t values).get? value =
      (t.get? value).or ((values.findIdx? (· == value)).map (ordinal + ·)) := by
  induction values with
  | nil => exact fun _ _ => Option.or_none.symm
  | cons first rest ih =>
    intro ordinal t
    rw [addValues, ih, t.get?_insertIfNew, Option.or_assoc, map_findIdx?_cons]
    by_cases h : value = first
    · rw [if_pos h, if_pos (beq_iff_eq.mpr h.symm), Option.some_or]
    · rw [if_neg h, if_neg (by simpa using Ne.symm h), Option.none_or]

theorem get?_ordinalTable (values : Array String) (value : String) :
    (ordinalTable values).get? value = values.findIdx? (· == value) := by
  rw [ordinalTable, get?_addValues, NameTable.get?_empty, Option.none_or,
    ← List.findIdx?_toArray, Array.toArray_toList]
  simp only [Nat.zero_add, Option.map_id']

/-! ### One feature after the other -/

/-- Distinct names, and no more values than the kinds allow. -/
structure Faultless (features : List FeatureMeta) : Prop where
  nodup : (features.map (·.name)).Nodup
  size_le : ∀ m ∈ features, m.kind.isDiscrete = true → m.values.size ≤ m.kind.maxValues

theorem addFeatures_cons_eq_ok_iff :
    addFeatures index names ordinals (m :: rest) = .ok added ↔
      names.get? m.name = none ∧ (m.kind.isDiscrete = true → m.values.size ≤ m.kind.maxValues) ∧
        addFeatures (index + 1) (names.insert m.name index).2
          (ordinals.push (ordinalTable m.values)) rest = .ok added := by
  rw [addFeatures, NameTable.insert_fst]
  cases hname : names.get? m.name with
  | some old => simp
  | none =>
    simp only [Option.isSome_none, Bool.false_eq_true, if_false, Bool.and_eq_true,
      decide_eq_true_eq, true_and]
    by_cases hsize : m.kind.isDiscrete = true ∧ m.kind.maxValues < m.values.size
    · rw [if_pos hsize]
      constructor
      · intro h
        cases h
      · rintro ⟨hle, -⟩
        exact absurd (hle hsize.1) (Nat.not_le.mpr hsize.2)
    · rw [if_neg hsize]
      have hle : m.kind.isDiscrete = true → m.values.size ≤ m.kind.maxValues :=
        fun hdiscrete => Nat.le_of_not_lt fun hlt => hsize ⟨hdiscrete, hlt⟩
      exact ⟨fun h => ⟨hle, h⟩, fun h => h.2⟩

theorem faultless_cons_iff :
    Faultless (m :: rest) ↔ (∀ m' ∈ rest, m'.name ≠ m.name) ∧
      (m.kind.isDiscrete = true → m.values.size ≤ m.kind.maxValues) ∧ Faultless rest := by
  constructor
  · rintro ⟨hnodup, hsize⟩
    obtain ⟨hname, hnodup⟩ := List.nodup_cons.mp hnodup
    refine ⟨fun m' hm' heq => hname ?_, hsize m List.mem_cons_self, hnodup,
      fun m' hm' => hsize m' (List.mem_cons_of_mem _ hm')⟩
    exact List.mem_map.mpr ⟨m', hm', heq⟩
  · rintro ⟨hname, hsize, hnodup, hsizes⟩
    refine ⟨List.nodup_cons.mpr ⟨fun hmem => ?_, hnodup⟩, fun m' hm' => ?_⟩
    · obtain ⟨m', hm', heq⟩ := List.mem_map.mp hmem
      exact hname m' hm' heq
    · rcases List.mem_cons.mp hm' with rfl | hm'
      · exact hsize
      · exact hsizes m' hm'

/-- Features are added exactly if they have no fault and none of them has a name that was
entered before. -/
theorem exists_addFeatures_iff :
    (∃ added, addFeatures index names ordinals features = .ok added) ↔
      Faultless features ∧ ∀ m ∈ features, names.get? m.name = none := by
  induction features generalizing index names ordinals with
  | nil => exact ⟨fun _ => ⟨⟨.nil, by simp⟩, by simp⟩, fun _ => ⟨_, rfl⟩⟩
  | cons m rest ih =>
    simp only [addFeatures_cons_eq_ok_iff, exists_and_left, ih, faultless_cons_iff,
      NameTable.get?_insert_eq_none_iff, List.forall_mem_cons]
    constructor
    · rintro ⟨hname, hsize, hrest, hnew⟩
      exact ⟨⟨fun m' hm' => (hnew m' hm').1, hsize, hrest⟩, hname,
        fun m' hm' => (hnew m' hm').2⟩
    · rintro ⟨⟨hne, hsize, hrest⟩, hname, hnew⟩
      exact ⟨hname, hsize, hrest, fun m' hm' => ⟨hne m' hm', hnew m' hm'⟩⟩

/-- The names that were there keep their numbers, and the others get the index of the first
feature that has them. -/
theorem get?_of_addFeatures (h : addFeatures index names ordinals features = .ok added)
    (name : String) : added.1.get? name =
      (names.get? name).or ((features.findIdx? (·.name == name)).map (index + ·)) := by
  induction features generalizing index names ordinals with
  | nil =>
    obtain rfl := Except.ok.inj h
    exact Option.or_none.symm
  | cons m rest ih =>
    obtain ⟨hnew, -, hrest⟩ := addFeatures_cons_eq_ok_iff.mp h
    rw [ih hrest, NameTable.get?_insert, map_findIdx?_cons]
    by_cases heq : name = m.name
    · rw [if_pos heq, if_pos (beq_iff_eq.mpr heq.symm), heq, hnew, Option.some_or, Option.none_or]
    · rw [if_neg heq, if_neg (by simpa using Ne.symm heq)]

/-- Every feature gets a table of its own. -/
theorem ordinals_of_addFeatures (h : addFeatures index names ordinals features = .ok added) :
    added.2.toList = ordinals.toList ++ features.map fun m => ordinalTable m.values := by
  induction features generalizing index names ordinals with
  | nil =>
    obtain rfl := Except.ok.inj h
    exact (List.append_nil _).symm
  | cons m rest ih =>
    obtain ⟨-, -, hrest⟩ := addFeatures_cons_eq_ok_iff.mp h
    rw [ih hrest, Array.toList_push, List.append_assoc]
    rfl

/-! ### The tables of a schema -/

theorem exists_tables?_iff : (∃ t, tables? features = .ok t) ↔ Faultless features := by
  have hadd := @exists_addFeatures_iff features 0 .empty #[]
  simp only [NameTable.get?_empty, implies_true, and_true] at hadd
  rw [← hadd, tables?]
  cases addFeatures 0 .empty #[] features with
  | error e => simp [Except.map]
  | ok added => simp [Except.map]

theorem isSome_tables?_iff : (tables? features).toOption.isSome = true ↔ Faultless features := by
  rw [← exists_tables?_iff]
  cases tables? features <;> simp [Except.toOption]

/-- The tables of a schema come from going through its features. -/
theorem exists_addFeatures (s : Schema) :
    addFeatures 0 .empty #[] s.features.toList = .ok (s.names, s.ordinals) ∧
      s.byteCount = s.features.countP (fun m => m.kind == .byte) ∧
      s.shortCount = s.features.countP fun m => m.kind == .short := by
  have h := s.tabled
  rw [tables?] at h
  cases hadd : addFeatures 0 .empty #[] s.features.toList with
  | error e => simp [hadd, Except.map] at h
  | ok added =>
    rw [hadd] at h
    have htables := Except.ok.inj h
    refine ⟨?_, ?_, ?_⟩
    · rw [← htables]
    · rw [← htables, ← Array.countP_toList]
    · rw [← htables, ← Array.countP_toList]

theorem faultless (s : Schema) : Faultless s.features.toList :=
  exists_tables?_iff.mp ⟨_, s.tabled⟩

/-- A name is looked up to the first feature that has it. -/
theorem featureIndex?_eq_findIdx? (s : Schema) (name : String) :
    s.featureIndex? name = s.features.findIdx? fun m => m.name == name := by
  obtain ⟨hadd, -⟩ := s.exists_addFeatures
  have hget := get?_of_addFeatures hadd name
  rw [featureIndex?, hget, NameTable.get?_empty, Option.none_or, ← List.findIdx?_toArray,
    Array.toArray_toList]
  simp only [Nat.zero_add, Option.map_id']

theorem toList_ordinals (s : Schema) :
    s.ordinals.toList = s.features.toList.map fun m => ordinalTable m.values := by
  obtain ⟨hadd, -⟩ := s.exists_addFeatures
  exact ordinals_of_addFeatures hadd

theorem size_ordinals (s : Schema) : s.ordinals.size = s.size := by
  rw [← Array.length_toList, toList_ordinals, List.length_map, Array.length_toList, size]

theorem getElem?_ordinals (s : Schema) (i : Nat) :
    s.ordinals[i]? = (s.get? i).map fun m => ordinalTable m.values := by
  rw [← Array.getElem?_toList, toList_ordinals, List.getElem?_map, Array.getElem?_toList]
  rfl

/-- A value is looked up to the lowest ordinal at which it stands. -/
theorem valueOrdinal_eq_findIdx? (h : s.get? i = some m) (hdiscrete : m.kind.isDiscrete = true)
    (value : String) : s.valueOrdinal i value =
      (m.values.findIdx? (· == value)).elim (.error (.unknownValue m.name value)) .ok := by
  have hlookup : (s.ordinals[i]?).bind (·.get? value) = m.values.findIdx? (· == value) := by
    rw [getElem?_ordinals, h, Option.map_some, Option.bind_some, get?_ordinalTable]
  rw [valueOrdinal, discreteFeature, feature, h]
  simp only [bind, Except.bind, hdiscrete, if_true, hlookup]
  cases m.values.findIdx? (· == value) <;> rfl

theorem length_ofKind (s : Schema) (kind : FeatureKind) :
    (ofKind kind s.features.toList).length = s.count kind := by
  obtain ⟨-, hbyte, hshort⟩ := s.exists_addFeatures
  have hlength (kind : FeatureKind) : (ofKind kind s.features.toList).length =
      s.features.countP fun m => m.kind == kind := by
    rw [ofKind, ← List.countP_eq_length_filter, Array.countP_toList]
  have hsize : s.size = (ofKind .byte s.features.toList).length +
      (ofKind .short s.features.toList).length +
      (ofKind .continuous s.features.toList).length := by
    rw [← List.length_append, ← List.length_append, ← arrange, s.arranged, Array.length_toList,
      size]
  cases kind with
  | byte => rw [hlength, count, hbyte]
  | short => rw [hlength, count, hshort]
  | continuous =>
    rw [count, hbyte, hshort, ← hlength, ← hlength]
    omega

theorem count_eq_countP (s : Schema) (kind : FeatureKind) :
    s.count kind = s.features.countP fun m => m.kind == kind := by
  rw [← length_ofKind, ofKind, ← List.countP_eq_length_filter, Array.countP_toList]

end FeatureTree.Schema
