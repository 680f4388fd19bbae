/-
Where the numbers of a density stand in a table.

A table has three words, a word for the number of densities of every state, and then all
densities one after the other, each of the same size.  The place of every number can thus
be computed from the header, the numbers of densities and the position of the leaf.

* `PdfTables.Weigh`, `PdfTables.weightsAgree_iff` — the weights that are accepted;
* `PdfTables.EntryAt` — a mean and a variance, and two weights if there are some, that
  stand at an offset;
* `PdfTables.spans_readPlain`, `PdfTables.spans_readVoiced`, `PdfTables.spans_readStates` —
  a density, and those of all states;
* `PdfTables.entryOffset`, `PdfTables.leaf?_ofBytes` — every density of a table.
-/
import FeatureTree.Format.Hts.PdfTables
import FeatureTree.Proofs.Numeric.Order
import FeatureTree.Proofs.Stream.Offsets
import Mathlib.Tactic.Ring

namespace FeatureTree

open FeatureTree.Stream

/-! ### Weights -/

namespace Floating

variable {f : FloatFormat} {x y : Floating f}

theorem datum_of_isNaN (h : x.isNaN = true) : x.datum = .nan := by rw [datum, if_pos h]

theorem add_of_isNaN (h : x.isNaN = true ∨ y.isNaN = true) : x.add y = nan := by
  rw [add]
  rcases h with h | h
  · rw [datum_of_isNaN h]
  · rw [datum_of_isNaN h]
    cases x.datum <;> rfl

end Floating

namespace PdfTables

/-- Two weights of a stream: numbers that are not negative and whose sum is close to one. -/
structure Weigh (voiced unvoiced : Double) : Prop where
  nonneg : Floating.zero.le voiced = true
  nonneg' : Floating.zero.le unvoiced = true
  least : leastWeightSum.le (voiced.add unvoiced) = true
  greatest : (voiced.add unvoiced).le greatestWeightSum = true

/-- A sum that was compared is not that of a NaN. -/
theorem weightsAgree_iff {voiced unvoiced : Double} :
    weightsAgree voiced unvoiced = true ↔ Weigh voiced unvoiced := by
  have hzero : (Floating.zero : Double).isNaN = false := by decide
  have hnan : (Floating.nan : Double).isNaN = true := by decide
  rw [weightsAgree]
  simp only [Bool.and_eq_true, Bool.not_eq_true']
  constructor
  · -- the sum is compared, so that neither weight is a NaN
    rintro ⟨⟨⟨hvoiced, hunvoiced⟩, hleast⟩, hgreatest⟩
    have hsum : (voiced.add unvoiced).isNaN = false := by
      simp only [Floating.le, Bool.and_eq_true, Bool.not_eq_true'] at hleast
      exact hleast.1.2
    have hnumbers : voiced.isNaN = false ∧ unvoiced.isNaN = false := by
      by_contra hor
      rw [not_and_or, Bool.not_eq_false, Bool.not_eq_false] at hor
      rw [Floating.add_of_isNaN hor, hnan] at hsum
      exact absurd hsum (by simp)
    exact ⟨Floating.le_of_lt_eq_false hnumbers.1 hzero hvoiced,
      Floating.le_of_lt_eq_false hnumbers.2 hzero hunvoiced, hleast, hgreatest⟩
  · intro h
    have hlt : ∀ {x : Double}, Floating.zero.le x = true → x.lt Floating.zero = false := by
      intro x hx
      simp only [Floating.le, Bool.and_eq_true, decide_eq_true_eq] at hx
      simp [Floating.lt, hx.2]
    exact ⟨⟨⟨hlt h.nonneg, hlt h.nonneg'⟩, h.least⟩, h.greatest⟩

end PdfTables

/-! ### The layout of a table -/

namespace PdfFormat

/-- The number of states of a table. -/
def stateCount (numStates : Nat) : PdfFormat → Nat
  | dur | join => 1
  | lf0 | mgc | str | mag => numStates

/-- The number of means of a density. -/
def entryCount (streams vectorSize : Nat) : PdfFormat → Nat
  | dur | join | lf0 => streams
  | mgc | str | mag => vectorSize

/-- The number of words of a mean with all that belongs to it. -/
def entryWords : PdfFormat → Nat
  | lf0 => 4
  | dur | join | mgc | str | mag => 2

end PdfFormat

namespace PdfTables

/-- The entry `j` of a density stands at an offset: the mean and the variance, and in a
table of fundamental frequencies two weights, of which the first one of the first entry is
kept. -/
structure EntryAt (format : PdfFormat) (bytes : List UInt8) (offset : Nat) (p : PdfLeaf) (j : Nat) :
    Prop where
  moments : ∃ mean variance : Single,
    singleBytes mean ++ singleBytes variance <+: bytes.drop offset ∧
      p.mean[j]? = some (mean.convert .double) ∧ p.variance[j]? = some (variance.convert .double)
  weights : format = .lf0 → ∃ voiced unvoiced : Single,
    singleBytes voiced ++ singleBytes unvoiced <+: bytes.drop (offset + 8) ∧
      Weigh (voiced.convert .double) (unvoiced.convert .double) ∧
      (j = 0 → p.voicedWeight = some (voiced.convert .double))

theorem entryAt_drop_iff {format : PdfFormat} {bytes : List UInt8} {k offset j : Nat}
    {p : PdfLeaf} :
    EntryAt format (bytes.drop k) offset p j ↔ EntryAt format bytes (k + offset) p j := by
  constructor
  · rintro ⟨hmoments, hweights⟩
    simp only [List.drop_drop, ← Nat.add_assoc] at hmoments hweights
    exact ⟨hmoments, hweights⟩
  · rintro ⟨hmoments, hweights⟩
    refine ⟨?_, ?_⟩
    · simpa only [List.drop_drop, ← Nat.add_assoc] using hmoments
    · simpa only [List.drop_drop, ← Nat.add_assoc] using hweights

/-- The density of leaf `index + 1`, with `n` means, stands at the front of a byte sequence. -/
structure LeafAt (format : PdfFormat) (n : Nat) (bytes : List UInt8) (index : Nat) (p : PdfLeaf) :
    Prop where
  id : p.id = index + 1
  mean : p.mean.length = n
  variance : p.variance.length = n
  voiced : p.voicedWeight.isSome ↔ format = .lf0 ∧ 0 < n
  entry : ∀ j < n, EntryAt format bytes (j * (4 * format.entryWords)) p j

/-! ### One density -/

theorem spans_readDouble :
    readDouble.Spans 4 fun bytes d => ∃ x : Single, singleBytes x <+: bytes ∧
      x.convert .double = d :=
  Reader.spans_single.bind_pure _

theorem spans_readMoments :
    readMoments.Spans 8 fun bytes d => ∃ mean variance : Single,
      singleBytes mean ++ singleBytes variance <+: bytes ∧
        (mean.convert .double, variance.convert .double) = d := by
  refine (spans_readDouble.bind fun mean => spans_readDouble.bind_pure _).weaken fun bytes d h => ?_
  obtain ⟨_, ⟨mean, hmean, rfl⟩, _, ⟨variance, hvariance, rfl⟩, rfl⟩ := h
  exact ⟨mean, variance, append_prefix hmean (by rwa [length_singleBytes]), rfl⟩

theorem spans_readVoicedStream :
    readVoicedStream.Spans 16 fun bytes d => ∃ mean variance voiced unvoiced : Single,
      singleBytes mean ++ singleBytes variance <+: bytes ∧
        singleBytes voiced ++ singleBytes unvoiced <+: bytes.drop 8 ∧
        Weigh (voiced.convert .double) (unvoiced.convert .double) ∧
        ((mean.convert .double, variance.convert .double), voiced.convert .double) = d := by
  refine (spans_readMoments.bind fun moments => spans_readDouble.bind fun voiced =>
    spans_readDouble.bind (n := 0) (Q := fun unvoiced _ d =>
      Weigh voiced unvoiced ∧ (moments, voiced) = d) fun unvoiced => ?_).weaken fun bytes d h => ?_
  · by_cases hagree : weightsAgree voiced unvoiced = true
    · rw [if_pos hagree]
      exact (Reader.spans_pure _).weaken fun _ d hd => ⟨weightsAgree_iff.mp hagree, hd⟩
    · rw [if_neg hagree]
      exact Reader.spans_fail _
  · obtain ⟨_, ⟨mean, variance, hmoments, rfl⟩, _, ⟨voiced, hvoiced, rfl⟩, _,
      ⟨unvoiced, hunvoiced, rfl⟩, hweigh, rfl⟩ := h
    exact ⟨mean, variance, voiced, unvoiced, hmoments,
      append_prefix hvoiced (by rwa [length_singleBytes]), hweigh, rfl⟩

variable {format : PdfFormat}

theorem spans_readPlain (hformat : format ≠ .lf0) (n index : Nat) :
    (readPlain n index).Spans (n * 8) fun bytes p => LeafAt format n bytes index p := by
  have hwords : 4 * format.entryWords = 8 := by
    cases format with
    | lf0 => exact absurd rfl hformat
    | _ => rfl
  refine ((spans_readMoments.repeated n).bind_pure _).weaken fun bytes p h => ?_
  obtain ⟨moments, ⟨hlength, hmoments⟩, rfl⟩ := h
  refine ⟨rfl, by simpa using hlength, by simpa using hlength, by simp [hformat], fun j hj => ?_⟩
  have hj' : moments[j]? = some moments[j] := List.getElem?_eq_getElem (by rwa [hlength])
  obtain ⟨mean, variance, hfront, hpair⟩ := hmoments j _ hj'
  refine ⟨⟨mean, variance, by rwa [hwords], ?_, ?_⟩, fun heq => absurd heq hformat⟩
  · simp [hj', ← hpair]
  · simp [hj', ← hpair]

theorem spans_readVoiced (n index : Nat) :
    (readVoiced n index).Spans (n * 16) fun bytes p => LeafAt .lf0 n bytes index p := by
  refine ((spans_readVoicedStream.repeated n).bind_pure _).weaken fun bytes p h => ?_
  obtain ⟨parts, ⟨hlength, hparts⟩, rfl⟩ := h
  refine ⟨rfl, by simpa using hlength, by simpa using hlength, ?_, fun j hj => ?_⟩
  · simp [← hlength, List.length_pos_iff]
  · have hj' : parts[j]? = some parts[j] := List.getElem?_eq_getElem (by rwa [hlength])
    obtain ⟨mean, variance, voiced, unvoiced, hmoments, hweights, hweigh, hpart⟩ := hparts j _ hj'
    refine ⟨⟨mean, variance, hmoments, ?_, ?_⟩, fun _ => ⟨voiced, unvoiced, ?_, hweigh, ?_⟩⟩
    · simp [hj', ← hpart]
    · simp [hj', ← hpart]
    · rwa [List.drop_drop] at hweights
    · rintro rfl
      simp [List.head?_eq_getElem?, hj', ← hpart]

/-- The reader of the densities of a table with a header. -/
theorem spans_leaf (format : PdfFormat) (streams vectorSize index : Nat) :
    ((if format = .dur ∨ format = .join then readPlain streams
      else if format = .lf0 then readVoiced streams else readPlain vectorSize) index).Spans
      (format.entryCount streams vectorSize * (4 * format.entryWords))
      fun bytes p => LeafAt format (format.entryCount streams vectorSize) bytes index p := by
  cases format with
  | dur => exact spans_readPlain (by decide) streams index
  | join => exact spans_readPlain (by decide) streams index
  | lf0 => exact spans_readVoiced streams index
  | mgc => exact spans_readPlain (by decide) vectorSize index
  | str => exact spans_readPlain (by decide) vectorSize index
  | mag => exact spans_readPlain (by decide) vectorSize index

/-! ### All states -/

/-- The densities of the states stand one after the other. -/
theorem spans_readStates {leaf : Nat → Reader PdfLeaf} {m : Nat}
    {P : Nat → List UInt8 → PdfLeaf → Prop} (hleaf : ∀ i, (leaf i).Spans m (P i))
    (counts : List Nat) :
    (readStates leaf counts).Spans (counts.sum * m) fun bytes states =>
      states.map Array.size = counts ∧ ∀ (k : Nat) (state : Array PdfLeaf) (i : Nat) (p : PdfLeaf),
        states[k]? = some state → state[i]? = some p →
          P i (bytes.drop (((counts.take k).sum + i) * m)) p := by
  induction counts with
  | nil =>
    rw [List.sum_nil, Nat.zero_mul]
    exact (Reader.spans_pure _).weaken fun bytes states h => by simp [← h]
  | cons count counts ih =>
    rw [List.sum_cons, Nat.add_mul]
    refine (((Reader.Spans.indexed hleaf count).bind_pure List.toArray).bind fun state =>
      ih.bind_pure _).weaken fun bytes states h => ?_
    obtain ⟨_, ⟨first, ⟨hlength, hfirst⟩, rfl⟩, rest, ⟨hsizes, hrest⟩, rfl⟩ := h
    refine ⟨by simp [hlength, hsizes], fun k state i p hstate hp => ?_⟩
    -- the densities of a later state are counted from the end of the first one
    cases k with
    | zero =>
      obtain rfl : first.toArray = state := by simpa using hstate
      rw [List.take_zero, List.sum_nil, Nat.zero_add]
      exact hfirst i p (by simpa using hp)
    | succ k =>
      have hp := hrest k state i p hstate hp
      rw [List.drop_drop, ← Nat.add_mul] at hp
      rwa [List.take_succ_cons, List.sum_cons, Nat.add_assoc]

/-! ### A table -/

variable {t : PdfTables} {bytes : List UInt8} {numStates : Nat}

/-- There is a density for each number from one on. -/
theorem isSome_leaf?_iff {state id : Nat} :
    (t.leaf? state id).isSome = true ↔ state < t.states.size ∧ 1 ≤ id ∧ id ≤ t.count state := by
  rw [leaf?, count]
  by_cases hid : id = 0
  · simp [hid]
  · rw [if_neg hid]
    by_cases hstate : state < t.states.size
    · rw [Array.getElem?_eq_getElem hstate]
      simp only [Option.bind_some, Option.map_some, Option.getD_some, Option.isSome_iff_ne_none,
        ne_eq, Array.getElem?_eq_none_iff]
      omega
    · simp [hstate]

/-- The offset of entry `j` of the density of a leaf: after the header and the numbers of
densities come the densities of the states before, and those of the leaves before in the
state, each with `n` entries. -/
def entryOffset (t : PdfTables) (n state id j : Nat) : Nat :=
  4 * (3 + t.states.size +
    t.format.entryWords * (n * (((List.range state).map t.count).sum + (id - 1)) + j))

/-- The numbers of densities in the order of the states. -/
theorem map_size_states (t : PdfTables) :
    t.states.toList.map Array.size = (List.range t.states.size).map t.count := by
  refine List.ext_getElem (by simp) fun k hk _ => ?_
  have hlt : k < t.states.size := by simpa using hk
  simp [count, hlt]

/-- A table that was read, by the numbers at its front. -/
theorem layout_of_read {rest : List UInt8} (h : read format numStates bytes = .ok (t, rest)) :
    t.format = format ∧ t.states.size = format.stateCount numStates ∧
      LengthAt bytes 8 t.vectorSize ∧
      (∀ state < t.states.size, LengthAt bytes (12 + 4 * state) (t.count state)) ∧
      ∃ streams, LengthAt bytes 4 streams ∧ ∀ (k : Nat) (state : Array PdfLeaf) (i : Nat)
        (p : PdfLeaf), t.states[k]? = some state → state[i]? = some p →
        LeafAt format (format.entryCount streams t.vectorSize)
          (bytes.drop (12 + 4 * t.states.size +
            ((((List.range t.states.size).map t.count).take k).sum + i) *
              (format.entryCount streams t.vectorSize * (4 * format.entryWords)))) i p := by
  rw [read] at h
  obtain ⟨_, _, hreadFlag, h⟩ := Reader.bind_apply_eq_ok_iff.mp h
  obtain ⟨streams, _, hreadStreams, h⟩ := Reader.bind_apply_eq_ok_iff.mp h
  obtain ⟨vectorSize, _, hreadVectorSize, h⟩ := Reader.bind_apply_eq_ok_iff.mp h
  obtain ⟨counts, _, hreadCounts, h⟩ := Reader.bind_apply_eq_ok_iff.mp h
  obtain ⟨states, _, hreadStates, h⟩ := Reader.bind_apply_eq_ok_iff.mp h
  obtain ⟨rfl, rfl⟩ := Prod.mk.inj (Except.ok.inj h)
  obtain ⟨rfl, -⟩ := Reader.spans_int32 _ _ _ hreadFlag
  obtain ⟨rfl, hstreams⟩ := Reader.spans_count _ _ _ _ hreadStreams
  obtain ⟨rfl, hvectorSize⟩ := Reader.spans_count _ _ _ _ hreadVectorSize
  obtain ⟨rfl, hlength, hcounts⟩ := (Reader.spans_count _).repeated _ _ _ _ hreadCounts
  obtain ⟨-, hsizes, hstates⟩ :=
    spans_readStates (spans_leaf format streams vectorSize) counts _ _ _ hreadStates
  set t : PdfTables := { format, vectorSize, states := states.toArray }
  simp only [List.drop_drop] at hstreams hvectorSize hcounts hstates
  rw [lengthAt_drop_iff] at hstreams hvectorSize
  have hcount : (if format = .dur ∨ format = .join then 1 else numStates) =
      format.stateCount numStates := by
    cases format <;> rfl
  have hsize : t.states.size = format.stateCount numStates := by
    rw [← hcount, ← hlength, ← hsizes]
    simp [t]
  -- the numbers that were read are those of the densities that were read after them
  rw [show counts = (List.range t.states.size).map t.count from hsizes ▸ t.map_size_states]
    at hcounts hstates
  refine ⟨rfl, hsize, hvectorSize, fun state hstate => ?_, streams, hstreams,
    fun k state i p hstate hp => ?_⟩
  · have hword := hcounts state (t.count state) (by simp [hstate])
    rw [lengthAt_drop_iff, Nat.add_zero, Nat.mul_comm] at hword
    exact hword
  · have hleaf := hstates k state i p (by simpa [t] using hstate) hp
    rw [hcount, ← hsize, Nat.mul_comm _ 4] at hleaf
    exact hleaf

/-- A density has a place of its own in the bytes of its table: a leaf has one if its state
exists and if it is numbered from one to the number of densities of the state. -/
theorem leaf?_ofBytes (h : ofBytes format numStates bytes = .ok t) :
    t.format = format ∧ t.states.size = format.stateCount numStates ∧
    LengthAt bytes 8 t.vectorSize ∧
    (∀ state < t.states.size, LengthAt bytes (12 + 4 * state) (t.count state)) ∧
    ∃ streams n, LengthAt bytes 4 streams ∧ n = format.entryCount streams t.vectorSize ∧
      ∀ state id, ((t.leaf? state id).isSome = true ↔
          state < t.states.size ∧ 1 ≤ id ∧ id ≤ t.count state) ∧
        ∀ p, t.leaf? state id = some p → p.id = id ∧ p.mean.length = n ∧ p.variance.length = n ∧
          (p.voicedWeight.isSome = true ↔ format = .lf0 ∧ 0 < n) ∧
          ∀ j < n, EntryAt format bytes (t.entryOffset n state id j) p j := by
  obtain ⟨⟨_, rest⟩, hread, rfl⟩ := map_eq_ok_iff.mp h
  obtain ⟨hformat, hsize, hvectorSize, hcounts, streams, hstreams, hleaves⟩ := layout_of_read hread
  refine ⟨hformat, hsize, hvectorSize, hcounts, streams, _, hstreams, rfl, fun state id =>
    ⟨isSome_leaf?_iff, fun p hp => ?_⟩⟩
  obtain ⟨hstate, hid, hcount⟩ := isSome_leaf?_iff.mp (Option.isSome_of_eq_some hp)
  rw [leaf?, if_neg (by omega)] at hp
  obtain ⟨leaves, hleaves', hp⟩ := Option.bind_eq_some_iff.mp hp
  have hleaf := hleaves state leaves (id - 1) p hleaves' hp
  refine ⟨by rw [hleaf.id]; omega, hleaf.mean, hleaf.variance, hleaf.voiced, fun j hj => ?_⟩
  have hentry := entryAt_drop_iff.mp (hleaf.entry j hj)
  rw [← List.map_take, List.take_range, Nat.min_eq_left (Nat.le_of_lt hstate)] at hentry
  convert hentry using 1
  rw [entryOffset, hformat]
  ring

/-- Two states with one and with two densities of one stream. -/
def sampleTable : List UInt8 :=
  [1, 1, 7, 1, 2].flatMap (bigEndian 4) ++
    ([⟨5, 0⟩, ⟨1, 0⟩, ⟨5, -1⟩, ⟨5, -1⟩, ⟨6, 0⟩, ⟨2, 0⟩, ⟨1, 0⟩, ⟨0, 0⟩, ⟨7, 0⟩, ⟨3, 0⟩, ⟨25, -2⟩,
      ⟨75, -2⟩].flatMap fun d => singleBytes (Floating.ofDecimal false d))

/-- The second density of the second state follows two others. -/
theorem leaf?_ofBytes_sample :
    ∃ t p, ofBytes .lf0 2 sampleTable = .ok t ∧ t.leaf? 1 2 = some p ∧
      EntryAt .lf0 sampleTable (4 * (3 + 2 + 4 * 2)) p 0 := by
  have hread : (ofBytes .lf0 2 sampleTable).toOption.map
      (fun t => (t.count 0, (t.leaf? 1 2).map fun p => p.mean.length)) = some (1, some 1) := by
    decide +kernel
  obtain ⟨t, ht, hshape⟩ := Option.map_eq_some_iff.mp hread
  rw [toOption_eq_some_iff] at ht
  obtain ⟨hcount, hlength⟩ := Prod.mk.inj hshape
  obtain ⟨p, hp, hone⟩ := Option.map_eq_some_iff.mp hlength
  obtain ⟨hformat, hsize, -, -, streams, n, -, -, hleaves⟩ := leaf?_ofBytes ht
  obtain ⟨-, hmean, -, -, hentry⟩ := (hleaves 1 2).2 p hp
  obtain rfl : n = 1 := hmean.symm.trans hone
  have hoffset : t.entryOffset 1 1 2 0 = 4 * (3 + 2 + 4 * 2) := by
    rw [entryOffset, hformat, hsize, List.range_one, List.map_singleton, List.sum_singleton, hcount]
    rfl
  exact ⟨t, p, ht, hp, hoffset ▸ hentry 0 (by decide)⟩

end PdfTables

end FeatureTree
