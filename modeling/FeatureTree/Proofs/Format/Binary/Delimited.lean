/-
Trees delimit themselves in binary streams.

Every part of a tree, from the header to the last leaf, is read with self-delimiting
readers, and what is checked afterwards does not look at the stream again.

* `SchemaBlock.selfDelimiting_read`, `PropertyText.selfDelimiting_readBlock` — schemas
  and properties;
* `Binary.selfDelimiting_read` — whole trees;
* `Binary.exists_extent` — how many bytes a tree takes, and what becomes of fewer and of
  more.
-/
import FeatureTree.Format.Binary.Reader
import FeatureTree.Format.Binary.Writer
import FeatureTree.Proofs.Stream.Delimited
import FeatureTree.Sample

namespace FeatureTree

open Reader

theorem Header.selfDelimiting_expect (content : ContentType) :
    (Header.expect content).SelfDelimiting := by
  rw [expect]
  refine selfDelimiting_uint32.bind fun foundMagic => .unless _ _ ?_
  refine selfDelimiting_int32.bind fun foundVersion => .unless _ _ ?_
  refine selfDelimiting_int32.bind fun foundType => ?_
  exact .ite _ (selfDelimiting_fail _) (selfDelimiting_pure ())

theorem PropertyText.selfDelimiting_readBlock : readBlock.SelfDelimiting := by
  rw [readBlock]
  refine selfDelimiting_int16.bind fun length => ?_
  refine .ite _ (selfDelimiting_fail _) (.ite _ (selfDelimiting_pure _) ?_)
  exact (selfDelimiting_take _ _).bind fun text => (selfDelimiting_ofExcept _).bind_pure _

namespace SchemaBlock

theorem selfDelimiting_readByteFeature : readByteFeature.SelfDelimiting :=
  selfDelimiting_single.bind fun _ => selfDelimiting_string.bind fun _ =>
    selfDelimiting_uint8.bind fun n => (selfDelimiting_string.repeated n.toNat).bind_pure _

theorem selfDelimiting_readShortFeature : readShortFeature.SelfDelimiting :=
  selfDelimiting_single.bind fun _ => selfDelimiting_string.bind fun _ =>
    selfDelimiting_int16.bind fun n =>
      .ite _ (selfDelimiting_fail _) ((selfDelimiting_string.repeated n.toInt.toNat).bind_pure _)

theorem selfDelimiting_readContinuousFeature : readContinuousFeature.SelfDelimiting :=
  selfDelimiting_single.bind fun _ => selfDelimiting_string.bind fun _ =>
    selfDelimiting_string.bind_pure _

theorem selfDelimiting_read : SchemaBlock.read.SelfDelimiting :=
  (selfDelimiting_count _).bind fun n => (selfDelimiting_readByteFeature.repeated n).bind fun _ =>
    (selfDelimiting_count _).bind fun n =>
      (selfDelimiting_readShortFeature.repeated n).bind fun _ =>
      (selfDelimiting_count _).bind fun n =>
        (selfDelimiting_readContinuousFeature.repeated n).bind fun _ => selfDelimiting_ofExcept _

end SchemaBlock

namespace Binary

variable (s : Schema)

theorem selfDelimiting_readFeature : (readFeature s).SelfDelimiting :=
  selfDelimiting_int32.bind fun _ => .ite _ (selfDelimiting_pure _) (selfDelimiting_fail _)

theorem selfDelimiting_readSlots (node feature : Nat) : (readSlots s node feature).SelfDelimiting :=
  selfDelimiting_int32.bind fun _ => (selfDelimiting_ofExcept _).bind fun _ =>
    .ite _ (selfDelimiting_pure _) (selfDelimiting_fail _)

theorem selfDelimiting_readTest (node feature : Nat) :
    (readTest s node feature).SelfDelimiting := by
  rw [readTest]
  refine selfDelimiting_int32.bind fun tag => ?_
  refine .ite _ ?byteEquals (.ite _ ?shortEquals (.ite _ ?below
    (.ite _ ?byteOf (.ite _ ?shortOf ?_))))
  case byteEquals =>
    exact selfDelimiting_int32.bind fun _ => .ite _ (selfDelimiting_pure _) (selfDelimiting_fail _)
  case shortEquals =>
    exact selfDelimiting_int32.bind fun _ => .ite _ (selfDelimiting_pure _) (selfDelimiting_fail _)
  case below => exact selfDelimiting_single.bind_pure _
  case byteOf => exact (selfDelimiting_readSlots s node feature).bind_pure _
  case shortOf => exact (selfDelimiting_readSlots s node feature).bind_pure _
  exact selfDelimiting_fail _

theorem selfDelimiting_readDecision (node : Nat) : (readDecision s node).SelfDelimiting :=
  (selfDelimiting_readFeature s).bind fun feature =>
    (selfDelimiting_readTest s node feature).bind fun decision =>
      (selfDelimiting_int32.repeated decision.children.size).bind_pure _

theorem selfDelimiting_readPairs : readPairs.SelfDelimiting :=
  (selfDelimiting_count _).bind fun n =>
    (SelfDelimiting.repeated (selfDelimiting_int32.bind fun _ => selfDelimiting_single.bind_pure _)
      n).bind_pure _

theorem selfDelimiting_readLeaf (symbol : Option Nat) : (readLeaf symbol).SelfDelimiting := by
  rw [readLeaf]
  refine selfDelimiting_int32.bind fun tag => ?_
  split
  · exact selfDelimiting_fail _
  · exact (selfDelimiting_count _).bind fun n => (selfDelimiting_int32.repeated n).bind_pure _
  · exact selfDelimiting_single.bind fun _ => selfDelimiting_single.bind_pure _
  · exact selfDelimiting_readPairs.bind_pure _
  · exact selfDelimiting_readPairs.bind_pure _
  · exact selfDelimiting_fail _

/-- A tree is read off its own bytes: behind them nothing is looked at, and short of them
the stream is reported as cut off. -/
theorem selfDelimiting_read (symbolFeature : Option String) :
    (read symbolFeature).SelfDelimiting := by
  rw [read]
  refine (Header.selfDelimiting_expect _).bind fun _ => ?_
  refine PropertyText.selfDelimiting_readBlock.bind fun properties => ?_
  refine SchemaBlock.selfDelimiting_read.bind fun s => ?_
  refine (selfDelimiting_ofExcept _).bind fun symbol => ?_
  refine (selfDelimiting_count _).bind fun decisions => ?_
  refine (SelfDelimiting.indexed (selfDelimiting_readDecision s) decisions).bind fun records => ?_
  refine (selfDelimiting_count _).bind fun count => ?_
  refine ((selfDelimiting_readLeaf symbol).repeated count).bind fun leaves => ?_
  -- from here on nothing is read
  exact (selfDelimiting_ofExcept _).bind fun b => selfDelimiting_ofExcept _

/-- Where a tree is read, its first bytes make it out.  Any fewer of them are refused as
cut off, whatever the place of the cut, and before any other bytes they are read as the
same tree, with those bytes left over. -/
theorem exists_extent (symbolFeature : Option String) {bytes rest : List UInt8} {t : Cart}
    (h : read symbolFeature bytes = .ok (t, rest)) :
    ∃ k ≤ bytes.length, rest = bytes.drop k ∧
      (∀ n < k, ∃ what, ofBytes symbolFeature (bytes.take n) = .error (.truncated what)) ∧
      ∀ more, read symbolFeature (bytes.take k ++ more) = .ok (t, more) := by
  obtain ⟨used, rfl, hreads, hshort⟩ := selfDelimiting_read symbolFeature bytes t rest h
  refine ⟨used.length, by simp, List.drop_left.symm, fun n hn => ?_, ?_⟩
  · obtain ⟨what, hwhat⟩ := hshort n hn
    rw [List.take_append_of_le_length (Nat.le_of_lt hn), ofBytes, hwhat]
    exact ⟨what, rfl⟩
  · rw [List.take_left]
    exact hreads

/-- The bytes of the sample tree with two more behind them. -/
theorem exists_extent_sample :
    ∃ t bytes t', Sample.tree = .ok t ∧ toBytes t = .ok bytes ∧
      read none (bytes ++ [1, 2]) = .ok (t', [1, 2]) ∧ ofBytes none bytes = .ok t' ∧
      ∀ n < bytes.length, ∃ what, ofBytes none (bytes.take n) = .error (.truncated what) := by
  have hwritten : (Sample.tree.toOption.bind fun t => (toBytes t).toOption.bind fun bytes =>
      (read none (bytes ++ [1, 2])).toOption.map (·.2)) = some [1, 2] := by
    decide +kernel
  obtain ⟨t, ht, hwritten⟩ := Option.bind_eq_some_iff.mp hwritten
  obtain ⟨bytes, hbytes, hwritten⟩ := Option.bind_eq_some_iff.mp hwritten
  obtain ⟨⟨t', rest⟩, hread, rfl⟩ := Option.map_eq_some_iff.mp hwritten
  obtain ⟨k, hk, hrest, hshort, hmore⟩ := exists_extent none (toOption_eq_some_iff.mp hread)
  -- what is left over tells how many bytes the tree took
  obtain rfl : k = bytes.length := by
    have := congrArg List.length hrest
    simp at this hk
    omega
  rw [List.take_left] at hmore
  refine ⟨t, bytes, t', toOption_eq_some_iff.mp ht, toOption_eq_some_iff.mp hbytes,
    toOption_eq_some_iff.mp hread, ?_, fun n hn => ?_⟩
  · have := hmore []
    rw [List.append_nil] at this
    rw [ofBytes, this]
    rfl
  · have := hshort n hn
    rwa [List.take_append_of_le_length (Nat.le_of_lt hn)] at this

end Binary

end FeatureTree
