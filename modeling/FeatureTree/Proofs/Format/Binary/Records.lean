/-
Decisions and leaves in binary streams, one at a time.

A decision is read back with its test, with empty slots, and with the references
to its children.  A leaf is read back as the stream keeps it: of feature vectors
only the unit numbers, and of symbols not the feature they belong to.

* `Decision.Suits.stored` — decisions suit the schema that was read back;
* `Binary.reads_decision` — the record of a decision;
* `Payload.stored`, `Binary.reads_leaf` — what is left of a leaf.
-/
import FeatureTree.Format.Binary.Writer
import FeatureTree.Proofs.Format.SchemaBlock
import FeatureTree.Proofs.Tree.WellFormed

namespace FeatureTree

open FeatureTree.Stream Reader

theorem Decision.Suits.stored {d : Decision} {s : Schema} (h : d.Suits s) : d.Suits s.stored := by
  obtain ⟨m, hm, hkind, hsize⟩ := h
  refine ⟨m.stored, by rw [Schema.get?_stored, hm]; rfl, ?_, ?_⟩
  · rwa [FeatureMeta.kind_stored]
  · rw [hsize]
    cases ht : d.test.isBinary with
    | true => rfl
    | false =>
      have hdiscrete : m.kind.isDiscrete = true := by
        revert hkind ht
        cases d.test <;> simp [DecisionTest.neededKind?, DecisionTest.isBinary,
          FeatureKind.isDiscrete] <;> intro h <;> rw [h]
      rw [m.values_stored hdiscrete]

namespace Binary

variable {bytes : List UInt8} {s : Schema} {x : Numbering} {d : Decision}

/-! ### Decisions -/

theorem reads_feature {feature : Nat} (hlt : feature < 2 ^ 31) (hfeature : feature < s.size) :
    (readFeature s).Reads (bigEndian 4 feature) feature := by
  obtain ⟨raw, hread, hraw⟩ := reads_int32_ofNat hlt
  refine hread.last ?_
  show (if 0 ≤ raw.toInt ∧ raw.toInt.toNat < s.size then Pure.pure raw.toInt.toNat
    else Reader.fail _ : Reader Nat).Reads [] feature
  rw [hraw, if_pos (by omega), Int.toNat_natCast]
  exact Reads.pure feature

theorem reads_slots {feature slots : Nat} {m : FeatureMeta} (node : Nat)
    (hm : s.get? feature = some m) (hslots : slots = m.values.size)
    (h : lengthBytes slots = .ok bytes) : (readSlots s node feature).Reads bytes slots := by
  obtain ⟨hlt, rfl⟩ := lengthBytes_eq_ok_iff.mp h
  obtain ⟨declared, hread, hdeclared⟩ := reads_int32_ofNat hlt
  refine hread.last ?_
  have hfeature : (ofExcept (FormatError.ofSchema (s.feature feature))).Reads [] m :=
    reads_ofExcept (by rw [Schema.feature, hm]; rfl)
  refine hfeature.skip ?_
  show (if declared.toInt = m.values.size then Pure.pure m.values.size
    else Reader.fail _ : Reader Nat).Reads [] slots
  rw [hdeclared, hslots, if_pos rfl]
  exact Reads.pure _

/-- The test of a decision is read back. -/
theorem reads_test (node : Nat) (hd : d.Suits s) (h : criterionBytes d = .ok bytes) :
    (readTest s node d.feature).Reads (int32Bytes (Int32.ofInt d.test.tag) ++ bytes)
      (Decision.ofSlots d.feature d.test d.children.size) := by
  obtain ⟨m, hm, -, hsize⟩ := hd
  rw [criterionBytes] at h
  rw [readTest]
  cases ht : d.test with
  | byteEquals v =>
    rw [ht] at h hsize
    obtain rfl := Except.ok.inj h
    rw [hsize, DecisionTest.tag]
    refine (reads_int32 _).bind ?_
    rw [if_pos (by decide)]
    -- the ordinal is written as a word of 32 bits
    have hv : (Int32.ofNat v.toNat).toInt = v.toNat :=
      Int32.toInt_ofNat_of_lt (by have := v.toNat_lt; omega)
    refine (reads_int32 _).last ?_
    rw [hv, if_pos (by have := v.toNat_lt; omega), Int.toNat_natCast, UInt8.ofNat_toNat]
    exact Reads.pure _
  | shortEquals v =>
    rw [ht] at h hsize
    obtain rfl := Except.ok.inj h
    rw [hsize, DecisionTest.tag]
    refine (reads_int32 _).bind ?_
    rw [if_neg (by decide), if_pos (by decide)]
    refine (reads_int32 _).last ?_
    rw [Int16.toInt_toInt32, if_pos ⟨v.le_toInt, v.toInt_lt⟩, Int16.ofInt_toInt]
    exact Reads.pure _
  | below threshold =>
    rw [ht] at h hsize
    obtain rfl := Except.ok.inj h
    rw [hsize, DecisionTest.tag]
    refine (reads_int32 _).bind ?_
    rw [if_neg (by decide), if_neg (by decide), if_pos (by decide)]
    exact (reads_single threshold).bind_pure fun t => Decision.below d.feature t
  | byteOf =>
    rw [ht] at h hsize
    refine (reads_int32 _).bind ?_
    rw [if_neg (by decide), if_neg (by decide), if_neg (by decide), if_pos (by decide)]
    exact (reads_slots node hm hsize h).bind_pure fun n => Decision.byteOf d.feature n
  | shortOf =>
    rw [ht] at h hsize
    refine (reads_int32 _).bind ?_
    rw [if_neg (by decide), if_neg (by decide), if_neg (by decide), if_neg (by decide),
      if_pos (by decide)]
    exact (reads_slots node hm hsize h).bind_pure fun n => Decision.shortOf d.feature n

/-- The record that the bytes of a decision hold. -/
def recordOf (x : Numbering) (d : Decision) : DecisionRecord where
  decision := Decision.ofSlots d.feature d.test d.children.size
  references := d.children.toList.map fun c => Int32.ofInt (x.reference c)

theorem reads_decision (node : Nat) (hd : d.Suits s) (hlt : d.feature < 2 ^ 31)
    (h : decisionBytes x d = .ok bytes) :
    (readDecision s node).Reads bytes (recordOf x d) := by
  have hfeature : d.feature < s.size := by
    obtain ⟨m, hm, -, -⟩ := hd
    exact (Array.getElem?_eq_some_iff.mp hm).1
  rw [decisionBytes] at h
  simp only [bind, Except.bind, pure, Except.pure] at h
  cases hc : criterionBytes d with
  | error e => simp [hc] at h
  | ok criterion =>
    simp only [hc, Except.ok.injEq] at h
    rw [← h, List.append_assoc, List.append_assoc, ← List.append_assoc (int32Bytes _)]
    refine (reads_feature hlt hfeature).bind ?_
    refine (reads_test node hd hc).bind ?_
    have hslots : (Decision.ofSlots d.feature d.test d.children.size).children.size =
        d.children.toList.length := by
      rw [Array.length_toList]
      exact Array.size_replicate ..
    rw [hslots]
    exact (Reads.repeated_flatMap fun c _ => reads_int32 (Int32.ofInt (x.reference c))).bind_pure
      fun references => DecisionRecord.mk
        (Decision.ofSlots d.feature d.test d.children.size) references

end Binary

/-! ### Leaves -/

/-- What a stream keeps of a payload, with the feature to which its reader assigns
symbols. -/
def Payload.stored (symbol : Option Nat) : Payload → Payload
  | .featureVectors vectors => .indices (vectors.map fun v => v.unit.toInt32)
  | .weightedSymbols s => .weightedSymbols ⟨s.entries, symbol⟩
  | p => p

@[simp] theorem Payload.isEmpty_stored (symbol : Option Nat) (p : Payload) :
    (p.stored symbol).isEmpty = p.isEmpty := by
  cases p <;> simp [stored, isEmpty, dataCount]

namespace Binary

variable {bytes : List UInt8}

theorem reads_pairs {w : WeightedIndices} (h : pairsBytes w = .ok bytes) :
    readPairs.Reads bytes w := by
  obtain ⟨count, hcount, h⟩ := bind_eq_ok_iff.mp h
  obtain ⟨hlt, rfl⟩ := lengthBytes_eq_ok_iff.mp hcount
  obtain rfl := Except.ok.inj h
  have hpair : ∀ e ∈ w.entries, readPair.Reads (int32Bytes e.1 ++ singleBytes e.2) (id e) :=
    fun e _ => (reads_int32 e.1).bind ((reads_single e.2).bind_pure fun y => (e.1, y))
  have hpairs := Reads.repeated_flatMap hpair
  rw [List.map_id] at hpairs
  exact (reads_count _ hlt).bind (hpairs.bind_pure WeightedIndices.mk)

theorem ofStream_eq_ok_iff {α : Type} {e : Except StreamError α} {a : α} :
    WriteError.ofStream e = .ok a ↔ e = .ok a :=
  mapError_eq_ok_iff

theorem reads_unit {v : FeatureVector} (h : unitBytes v = .ok bytes) :
    Reader.int32.Reads bytes v.unit.toInt32 := by
  rw [unitBytes] at h
  split at h
  · obtain rfl := Except.ok.inj h
    exact (reads_uint32 v.unit).bind_pure UInt32.toInt32
  · simp at h

/-- A leaf is read back as far as a stream keeps it. -/
theorem reads_leaf (symbol : Option Nat) {p : Payload} (h : leafBytes p = .ok bytes) :
    (readLeaf symbol).Reads bytes (p.stored symbol) := by
  obtain ⟨data, hdata, h⟩ := bind_eq_ok_iff.mp h
  obtain rfl := Except.ok.inj h
  rw [readLeaf]
  refine (reads_int32 _).bind ?_
  have htag : LeafKind.ofTag? (Int32.ofInt (storedKind p).tag).toInt = some (storedKind p) := by
    cases storedKind p <;> decide
  rw [htag]
  cases p with
  | indices values =>
    obtain ⟨count, hcount, hdata⟩ := bind_eq_ok_iff.mp hdata
    obtain ⟨hlt, rfl⟩ := lengthBytes_eq_ok_iff.mp (ofStream_eq_ok_iff.mp hcount)
    obtain rfl := Except.ok.inj hdata
    have hvalues : (repeated values.length Reader.int32).Reads (values.flatMap int32Bytes)
        (values.map id) := Reads.repeated_flatMap fun i _ => reads_int32 i
    rw [List.map_id] at hvalues
    exact (reads_count _ hlt).bind (hvalues.bind_pure Payload.indices)
  | gaussian g =>
    obtain rfl := Except.ok.inj hdata
    exact (reads_single g.stddev).bind
      ((reads_single g.mean).bind_pure fun mean => Payload.gaussian ⟨g.stddev, mean⟩)
  | weightedIndices w =>
    exact (reads_pairs (ofStream_eq_ok_iff.mp hdata)).bind_pure Payload.weightedIndices
  | weightedSymbols w =>
    exact (reads_pairs (ofStream_eq_ok_iff.mp hdata)).bind_pure
      fun entries => Payload.weightedSymbols ⟨entries, symbol⟩
  | featureVectors vectors =>
    -- a vector is written as the index of its unit, so indices come back
    obtain ⟨count, hcount, hdata⟩ := bind_eq_ok_iff.mp hdata
    obtain ⟨bss, hunits, hdata⟩ := bind_eq_ok_iff.mp hdata
    obtain ⟨hlt, rfl⟩ := lengthBytes_eq_ok_iff.mp (ofStream_eq_ok_iff.mp hcount)
    obtain rfl := Except.ok.inj hdata
    exact (reads_count _ hlt).bind
      ((Reads.repeated hunits fun v _ bs hbs => reads_unit hbs).bind_pure Payload.indices)
  | pdf _ => simp [dataBytes] at hdata

end Binary

end FeatureTree
