/-
Schemas can be read back from binary streams.

A stream keeps the names, kinds, weights and values of the features.  It has no
place for the weighting function of a discrete feature nor for values of a
continuous one, and an empty weighting function stands for none.

* `Schema.stored` — what a stream keeps of a schema;
* `SchemaBlock.reads_schema` — it is what is read;
* `SchemaBlock.exists_read_bytes` — the same, feature by feature.
-/
import FeatureTree.Format.SchemaBlock
import FeatureTree.Proofs.Schema.Names
import FeatureTree.Proofs.Stream.Reads

namespace FeatureTree

/-- What a stream keeps of a feature. -/
def FeatureMeta.stored (m : FeatureMeta) : FeatureMeta :=
  match m.kind with
  | .continuous =>
    { m with
      values := #[]
      weightFunction := if (m.weightFunction.getD "").isEmpty then none else m.weightFunction }
  | _ => { m with weightFunction := none }

namespace FeatureMeta

variable (m : FeatureMeta)

@[simp] theorem name_stored : m.stored.name = m.name := by
  obtain ⟨name, kind, values, weight, function⟩ := m
  cases kind <;> rfl

@[simp] theorem kind_stored : m.stored.kind = m.kind := by
  obtain ⟨name, kind, values, weight, function⟩ := m
  cases kind <;> rfl

@[simp] theorem weight_stored : m.stored.weight = m.weight := by
  obtain ⟨name, kind, values, weight, function⟩ := m
  cases kind <;> rfl

theorem values_stored (h : m.kind.isDiscrete = true) : m.stored.values = m.values := by
  rw [stored]
  cases hk : m.kind with
  | continuous => simp [hk, FeatureKind.isDiscrete] at h
  | _ => rfl

theorem weightFunction_stored (h : m.kind.isDiscrete = true) : m.stored.weightFunction = none := by
  rw [stored]
  cases hk : m.kind with
  | continuous => simp [hk, FeatureKind.isDiscrete] at h
  | _ => rfl

theorem stored_continuous (h : m.kind = .continuous) :
    m.stored.values = #[] ∧ m.stored.weightFunction = m.weightFunction.filter (!·.isEmpty) := by
  rw [stored, h]
  refine ⟨rfl, ?_⟩
  cases m.weightFunction with
  | none => rfl
  | some f => cases hf : f.isEmpty <;> simp [Option.filter, hf]

end FeatureMeta

namespace Schema

theorem refits_stored : Refits FeatureMeta.stored where
  name := FeatureMeta.name_stored
  kind := FeatureMeta.kind_stored
  size := fun m h => congrArg Array.size (m.values_stored h)

/-- What a stream keeps of a schema. -/
def stored (s : Schema) : Schema := s.refit FeatureMeta.stored refits_stored

variable (s : Schema)

theorem get?_stored (index : Nat) : s.stored.get? index = (s.get? index).map FeatureMeta.stored :=
  get?_refit refits_stored index

theorem featureIndex?_stored (name : String) :
    s.stored.featureIndex? name = s.featureIndex? name := by
  rw [featureIndex?_eq_findIdx?, featureIndex?_eq_findIdx?, show s.stored.features =
    s.features.map FeatureMeta.stored from rfl, Array.findIdx?_map]
  congr
  funext m
  rw [Function.comp, FeatureMeta.name_stored]

end Schema

namespace SchemaBlock

open FeatureTree.Stream Reader

variable {bytes : List UInt8} {m : FeatureMeta}

theorem reads_byteFeature (hkind : m.kind = .byte) (hsize : m.values.size ≤ 255)
    (h : featureBytes m = .ok bytes) : readByteFeature.Reads bytes m.stored := by
  rw [featureBytes, hkind] at h
  obtain ⟨_, _, hweight, h1, rfl⟩ := concat_cons_eq_ok_iff.mp h
  obtain ⟨_, _, hname, h2, rfl⟩ := concat_cons_eq_ok_iff.mp h1
  obtain ⟨_, _, hcount, h3, rfl⟩ := concat_cons_eq_ok_iff.mp h2
  obtain ⟨_, _, hvalues, h4, rfl⟩ := concat_cons_eq_ok_iff.mp h3
  obtain rfl := Except.ok.inj hweight
  obtain rfl := Except.ok.inj hcount
  obtain rfl := Except.ok.inj h4
  refine (reads_single m.weight).bind ((reads_string hname).bind ?_)
  refine (reads_uint8 (n := m.values.size) (by omega)).bind ?_
  have hn : (UInt8.ofNat m.values.size).toNat = m.values.size := by
    rw [UInt8.toNat_ofNat']
    exact Nat.mod_eq_of_lt (by omega)
  rw [hn, ← Array.length_toList]
  refine (reads_strings hvalues).bind ?_
  rw [Array.toArray_toList]
  have : m.stored = { FeatureMeta.byte m.name m.values with weight := m.weight } := by
    rw [FeatureMeta.stored, hkind]
    obtain ⟨name, kind, values, weight, function⟩ := m
    obtain rfl : kind = .byte := hkind
    rfl
  rw [this]
  exact Reads.pure _

theorem reads_shortFeature (hkind : m.kind = .short) (hsize : m.values.size ≤ 32767)
    (h : featureBytes m = .ok bytes) : readShortFeature.Reads bytes m.stored := by
  rw [featureBytes, hkind] at h
  obtain ⟨_, _, hweight, h1, rfl⟩ := concat_cons_eq_ok_iff.mp h
  obtain ⟨_, _, hname, h2, rfl⟩ := concat_cons_eq_ok_iff.mp h1
  obtain ⟨_, _, hcount, h3, rfl⟩ := concat_cons_eq_ok_iff.mp h2
  obtain ⟨_, _, hvalues, h4, rfl⟩ := concat_cons_eq_ok_iff.mp h3
  obtain rfl := Except.ok.inj hweight
  obtain rfl := Except.ok.inj hcount
  obtain rfl := Except.ok.inj h4
  refine (reads_single m.weight).bind ((reads_string hname).bind ?_)
  refine (reads_int16 (n := m.values.size) (by omega)).bind ?_
  have hn : (Int16.ofNat m.values.size).toInt = m.values.size := by
    rw [Int16.toInt_ofNat', show Int16.size = 2 ^ 16 from rfl]
    exact Int.bmod_eq_of_le (by omega) (by omega)
  simp only [hn]
  rw [if_neg (by omega), Int.toNat_natCast, ← Array.length_toList]
  refine (reads_strings hvalues).bind ?_
  rw [Array.toArray_toList]
  have : m.stored = { FeatureMeta.short m.name m.values with weight := m.weight } := by
    rw [FeatureMeta.stored, hkind]
    obtain ⟨name, kind, values, weight, function⟩ := m
    obtain rfl : kind = .short := hkind
    rfl
  rw [this]
  exact Reads.pure _

theorem reads_continuousFeature (hkind : m.kind = .continuous) (h : featureBytes m = .ok bytes) :
    readContinuousFeature.Reads bytes m.stored := by
  rw [featureBytes, hkind] at h
  obtain ⟨_, _, hweight, h1, rfl⟩ := concat_cons_eq_ok_iff.mp h
  obtain ⟨_, _, hfunction, h2, rfl⟩ := concat_cons_eq_ok_iff.mp h1
  obtain ⟨_, _, hname, h3, rfl⟩ := concat_cons_eq_ok_iff.mp h2
  obtain rfl := Except.ok.inj hweight
  obtain rfl := Except.ok.inj h3
  refine (reads_single m.weight).bind ((reads_string hfunction).bind ?_)
  refine (reads_string hname).bind ?_
  have : m.stored = { FeatureMeta.continuous m.name with
      weight := m.weight
      weightFunction := if (m.weightFunction.getD "").isEmpty then none
        else some (m.weightFunction.getD "") } := by
    rw [FeatureMeta.stored, hkind]
    obtain ⟨name, kind, values, weight, function⟩ := m
    obtain rfl : kind = .continuous := hkind
    cases function <;> rfl
  rw [this]
  exact Reads.pure _

/-- The features of one kind, read with the reader for that kind. -/
theorem reads_section (s : Schema) (kind : FeatureKind) (what : String) {r : Reader FeatureMeta}
    (hr : ∀ m ∈ s.features.toList, m.kind = kind → ∀ bs, featureBytes m = .ok bs →
      r.Reads bs m.stored)
    (h : sectionBytes s kind = .ok bytes) :
    (do repeated (← count what) r : Reader (List FeatureMeta)).Reads bytes
      ((Schema.ofKind kind s.features.toList).map FeatureMeta.stored) := by
  rw [sectionBytes] at h
  obtain ⟨_, _, hlength, h1, rfl⟩ := concat_cons_eq_ok_iff.mp h
  obtain ⟨hlt, rfl⟩ := lengthBytes_eq_ok_iff.mp hlength
  refine (reads_count what hlt).bind ?_
  rw [concat, List.mapM_map, Function.id_comp] at h1
  cases hm : (Schema.ofKind kind s.features.toList).mapM featureBytes with
  | error e => simp [hm, Except.map] at h1
  | ok bss =>
    obtain rfl : bss.flatten = _ := by simpa [hm, Except.map] using h1
    refine Reads.repeated hm fun m hmem bs hbs => ?_
    obtain ⟨hmem, hkind⟩ := Schema.mem_ofKind_iff.mp hmem
    exact hr m hmem hkind bs hbs

/-- A schema is read back as far as a stream keeps it. -/
theorem reads_schema {s : Schema} (h : SchemaBlock.bytes s = .ok bytes) :
    read.Reads bytes s.stored := by
  rw [SchemaBlock.bytes] at h
  obtain ⟨_, _, hbytes, h1, rfl⟩ := concat_cons_eq_ok_iff.mp h
  obtain ⟨_, _, hshorts, h2, rfl⟩ := concat_cons_eq_ok_iff.mp h1
  obtain ⟨_, _, hfloats, h3, rfl⟩ := concat_cons_eq_ok_iff.mp h2
  obtain rfl := Except.ok.inj h3
  have hsize := s.faultless.size_le
  have hread : read = (do
      let bytes ← (do repeated (← count "byte feature count") readByteFeature)
      let shorts ← (do repeated (← count "short feature count") readShortFeature)
      let floats ← (do repeated (← count "continuous feature count") readContinuousFeature)
      Reader.ofExcept (FormatError.ofSchema (Schema.ofFeatures? (bytes ++ shorts ++ floats)))) := by
    rw [read]
    simp only [bind_assoc]
  rw [hread]
  refine (reads_section s .byte _ (fun m hm hk bs hbs => ?_) hbytes).bind ?_
  · refine reads_byteFeature hk ?_ hbs
    have := hsize m hm (by rw [hk]; rfl)
    rwa [hk] at this
  refine (reads_section s .short _ (fun m hm hk bs hbs => ?_) hshorts).bind ?_
  · refine reads_shortFeature hk ?_ hbs
    have := hsize m hm (by rw [hk]; rfl)
    rwa [hk] at this
  refine (reads_section s .continuous _ (fun m hm hk bs hbs => ?_) hfloats).bind ?_
  · exact reads_continuousFeature hk hbs
  refine reads_ofExcept ?_
  rw [Schema.ofFeatures?_refit s Schema.refits_stored]
  rfl

/-- A schema survives the stream.  Whatever bytes follow those that were written, exactly they
are left unread, and what is read has the features that were written in the same order: the
same names and kinds, the same values of the discrete ones, the same weights bit for bit, and
the weighting functions of the continuous ones, of which an empty one counts as none.
Discrete features come back without weighting functions, continuous ones without values. -/
theorem exists_read_bytes {s : Schema} (h : SchemaBlock.bytes s = .ok bytes)
    (rest : List UInt8) :
    ∃ s', SchemaBlock.read (bytes ++ rest) = .ok (s', rest) ∧ s'.size = s.size ∧
      ∀ i m, s.get? i = some m → ∃ m', s'.get? i = some m' ∧
        m'.name = m.name ∧ m'.kind = m.kind ∧ m'.weight = m.weight ∧
        (m.kind.isDiscrete = true → m'.values = m.values ∧ m'.weightFunction = none) ∧
        (m.kind = .continuous → m'.values = #[] ∧
          m'.weightFunction = m.weightFunction.filter (!·.isEmpty)) := by
  refine ⟨s.stored, reads_schema h rest, Array.size_map, fun i m hm => ?_⟩
  refine ⟨m.stored, ?_, m.name_stored, m.kind_stored, m.weight_stored, fun hd => ?_, fun hc => ?_⟩
  · rw [Schema.get?_stored, hm, Option.map_some]
  · exact ⟨m.values_stored hd, m.weightFunction_stored hd⟩
  · exact m.stored_continuous hc

/-- Features of all kinds, in another order, with repeated values, a weight that is no number, a
weighting function where none is kept and an empty one. -/
def mixedFeatures : List FeatureMeta :=
  [{ FeatureMeta.continuous "d" with weight := Floating.nan, weightFunction := some "" },
    { FeatureMeta.byte "p" #["a", "a"] with weightFunction := some "f" },
    { FeatureMeta.continuous "e" with values := #["v"], weightFunction := some "g" },
    FeatureMeta.short "é" #[]]

theorem exists_read_bytes_mixedFeatures :
    ∃ s bytes s', Schema.ofFeatures? mixedFeatures = .ok s ∧ SchemaBlock.bytes s = .ok bytes ∧
      SchemaBlock.read (bytes ++ [7, 8]) = .ok (s', [7, 8]) ∧ s'.size = 4 ∧
      (∃ m, s'.get? 0 = some m ∧ m.name = "p" ∧ m.values = #["a", "a"] ∧
        m.weightFunction = none) ∧
      (∃ m, s'.get? 3 = some m ∧ m.name = "e" ∧ m.values = #[] ∧
        m.weightFunction = some "g") := by
  have hsample : ((Schema.ofFeatures? mixedFeatures).toOption.any fun s =>
      (SchemaBlock.bytes s).toOption.isSome && s.size == 4 &&
        s.get? 0 == some { FeatureMeta.byte "p" #["a", "a"] with weightFunction := some "f" } &&
        s.get? 3 == some { FeatureMeta.continuous "e" with
          values := #["v"], weightFunction := some "g" }) = true := by
    decide +kernel
  cases hs : Schema.ofFeatures? mixedFeatures with
  | error e => simp [hs, Except.toOption] at hsample
  | ok s =>
    simp only [hs, Except.toOption, Option.any_some, Bool.and_eq_true, beq_iff_eq] at hsample
    obtain ⟨⟨⟨hwrite, hsize⟩, hfirst⟩, hlast⟩ := hsample
    cases hbytes : SchemaBlock.bytes s with
    | error e => simp [hbytes] at hwrite
    | ok bytes =>
      obtain ⟨s', hread, hsize', hfeatures⟩ := exists_read_bytes hbytes [7, 8]
      obtain ⟨m, hm, hname, -, -, hdiscrete, -⟩ := hfeatures 0 _ hfirst
      obtain ⟨m', hm', hname', -, -, -, hcontinuous⟩ := hfeatures 3 _ hlast
      exact ⟨s, bytes, s', rfl, hbytes, hread, hsize'.trans hsize,
        ⟨m, hm, hname, (hdiscrete rfl).1, (hdiscrete rfl).2⟩,
        ⟨m', hm', hname', (hcontinuous rfl).1, (hcontinuous rfl).2⟩⟩

end SchemaBlock

end FeatureTree
