/-
A tree that was read is written as it was.

What a stream does not keep of a tree is not written either: the decisions of the
tree that is read make the same bytes with their new numbers, the leaves with the
data that is left of them, and the schema without what it lost.

* `Binary.toBytes_of_kept` — a tree of which a stream keeps the same makes the same bytes;
* `Binary.feature_lt_of_indexedLoop` — an index that is read as a negative number is
  refused;
* `Binary.toBytes_ofBytes_toBytes` — the bytes of a tree, read and written again.
-/
import FeatureTree.Proofs.Format.Binary.Renumbering

namespace FeatureTree

open FeatureTree.Stream Reader

/-! ### Schemas -/

theorem SchemaBlock.featureBytes_stored (m : FeatureMeta) :
    featureBytes m.stored = featureBytes m := by
  rw [featureBytes, featureBytes, FeatureMeta.kind_stored, FeatureMeta.name_stored,
    FeatureMeta.weight_stored]
  cases hk : m.kind with
  | byte => rw [FeatureMeta.values_stored m (by rw [hk]; rfl)]
  | short => rw [FeatureMeta.values_stored m (by rw [hk]; rfl)]
  | continuous =>
    -- no weighting function is written like an empty one
    have hfunction : m.stored.weightFunction.getD "" = m.weightFunction.getD "" := by
      simp only [FeatureMeta.stored, hk]
      split
      · next h => exact (String.isEmpty_iff.mp h).symm
      · rfl
    rw [hfunction]

theorem SchemaBlock.bytes_stored (s : Schema) : bytes s.stored = bytes s := by
  have hsection : ∀ kind, sectionBytes s.stored kind = sectionBytes s kind := by
    intro kind
    rw [sectionBytes, sectionBytes, Schema.stored, Schema.toList_features_refit,
      Schema.refits_stored.ofKind_map, List.length_map, List.map_map]
    exact congrArg (fun fs => concat (_ :: fs))
      (List.map_congr_left fun m _ => featureBytes_stored m)
  rw [bytes, bytes, hsection, hsection, hsection]

namespace Binary

open Arena Relation

variable {bytes : List UInt8} {s : Schema} {x x' : Numbering} {d : Decision} {p : Payload}
  {symbol : Option Nat} {f : NodeId → Option NodeId} {a a' : Arena}

/-! ### Decisions and leaves -/

/-- A decision with new numbers for its children makes the same bytes, if the references
are the same. -/
theorem decisionBytes_relink (href : ∀ slot, x'.reference (slot.bind f) = x.reference slot)
    (d : Decision) : decisionBytes x' (relink f d) = decisionBytes x d := by
  have hcriterion : criterionBytes (relink f d) = criterionBytes d := by
    simp only [criterionBytes, relink, Array.size_map]
  have hreferences : (relink f d).children.toList.flatMap
      (fun c => int32Bytes (Int32.ofInt (x'.reference c))) =
      d.children.toList.flatMap fun c => int32Bytes (Int32.ofInt (x.reference c)) := by
    simp only [relink, Array.toList_map, List.flatMap_map, href]
  rw [decisionBytes, decisionBytes, hcriterion, hreferences]
  rfl

theorem unitBytes_eq_ok {v : FeatureVector} (h : unitBytes v = .ok bytes) :
    bytes = int32Bytes v.unit.toInt32 := by
  rw [unitBytes] at h
  split at h
  · exact (Except.ok.inj h).symm
  · simp at h

/-- Unit numbers below the sign bit are the same words, signed or not. -/
theorem flatten_unitBytes {vectors : List FeatureVector} {bss : List (List UInt8)}
    (h : vectors.mapM unitBytes = .ok bss) :
    bss.flatten = (vectors.map fun v => v.unit.toInt32).flatMap int32Bytes := by
  induction vectors generalizing bss with
  | nil =>
    obtain rfl := Except.ok.inj h
    rfl
  | cons v vectors ih =>
    obtain ⟨bs, bss', hv, hrest, rfl⟩ := mapM_cons_eq_ok_iff.mp h
    rw [List.flatten_cons, ih hrest, unitBytes_eq_ok hv]
    rfl

/-- What is left of a leaf makes the same bytes. -/
theorem leafBytes_stored (h : leafBytes p = .ok bytes) :
    leafBytes (p.stored symbol) = .ok bytes := by
  cases p with
  | featureVectors vectors =>
    obtain ⟨data, hdata, h⟩ := bind_eq_ok_iff.mp h
    obtain ⟨count, hcount, hdata⟩ := bind_eq_ok_iff.mp hdata
    obtain ⟨bss, hunits, hdata⟩ := bind_eq_ok_iff.mp hdata
    obtain rfl := Except.ok.inj hdata
    have hstored : dataBytes (.indices (vectors.map fun v => v.unit.toInt32)) =
        .ok (count ++ bss.flatten) := by
      rw [dataBytes, List.length_map, hcount, flatten_unitBytes hunits]
      rfl
    rw [Payload.stored, leafBytes, hstored]
    exact h
  | _ => exact h

theorem mapM_leafBytes_stored {ps : List Payload} {bss : List (List UInt8)}
    (h : ps.mapM leafBytes = .ok bss) :
    (ps.map (Payload.stored symbol)).mapM leafBytes = .ok bss := by
  induction ps generalizing bss with
  | nil => exact h
  | cons p ps ih =>
    obtain ⟨bs, bss', hp, hps, rfl⟩ := mapM_cons_eq_ok_iff.mp h
    exact mapM_cons_eq_ok_iff.mpr ⟨bs, bss', leafBytes_stored hp, ih hps, rfl⟩

/-! ### Trees -/

/-- The traversal from the root meets all nodes. -/
theorem mem_preorder_nodes (t : Cart) {u : NodeId} {n : Node} :
    (u, n) ∈ (t.arena.preorder t.arena.root).nodes ↔ t.arena.node? u = some n := by
  cases hroot : t.arena.root with
  | none =>
    constructor
    · exact fun h => absurd h (by simp [preorder, preorderLoop])
    · intro h
      have := lt_of_node? h
      rw [t.size_eq_zero hroot] at this
      exact absurd this (Nat.not_lt_zero u)
  | some root =>
    have w := t.wellFormed hroot
    rw [w.preorder_eq (t.holders_le_one hroot)]
    exact mem_entries w

/-- Only trees without leaves of the kind that the format lacks are written. -/
theorem checkLeaves_eq_ok_iff {t : Cart} :
    checkLeaves t = .ok () ↔ ∀ u p, t.arena.content? u = some (.leaf p) → p.kind ≠ .pdf := by
  have hmem : ∀ p, p ∈ (t.arena.select t.arena.root .leavesOnly).nodes.filterMap
      (fun e => e.2.payload?) ↔ ∃ u, t.arena.content? u = some (.leaf p) := by
    intro p
    rw [select, List.mem_filterMap]
    constructor
    · rintro ⟨⟨u, n⟩, he, hp⟩
      have hn := (mem_preorder_nodes t).mp (List.mem_filter.mp he).1
      refine ⟨u, content?_eq_some_iff.mpr ⟨n, hn, ?_⟩⟩
      rw [Node.payload?] at hp
      cases hc : n.content <;> simp_all
    · rintro ⟨u, hu⟩
      obtain ⟨n, hn, hnp⟩ := content?_eq_some_iff.mp hu
      refine ⟨(u, n), List.mem_filter.mpr ⟨(mem_preorder_nodes t).mpr hn, ?_⟩, ?_⟩
      · simp [NodeFilter.accepts, NodeFilter.leavesOnly, Node.isLeaf, hnp]
      · simp [Node.payload?, hnp]
  show (if _ then _ else _) = _ ↔ _
  rw [ite_eq_right_iff]
  constructor
  · intro h u p hu hkind
    have hany := h (List.any_eq_true.mpr ⟨p, (hmem p).mpr ⟨u, hu⟩, by simp [hkind]⟩)
    simp at hany
  · intro h hany
    obtain ⟨p, hp, hkind⟩ := List.any_eq_true.mp hany
    obtain ⟨u, hu⟩ := (hmem p).mp hp
    exact absurd (by simpa using hkind) (h u p hu)

section Kept

variable {t t' : Cart} (hkept : Kept symbol t.arena t'.arena)
include hkept

theorem Kept.checkLeaves (h : checkLeaves t = .ok ()) : checkLeaves t' = .ok () := by
  rw [checkLeaves_eq_ok_iff] at h ⊢
  intro i p' hi
  cases hkept.copied with
  | none hroot' =>
    have := lt_size_of_content? hi
    rw [t'.size_eq_zero hroot'] at this
    exact absurd this (Nat.not_lt_zero i)
  | tree _ _ _ hrestores =>
    obtain ⟨u, hu⟩ := hrestores.onto i (lt_size_of_content? hi)
    rcases hrestores.kept u i hu with ⟨d, -, hd⟩ | ⟨p, hp, -, hp'⟩
    · rw [hi] at hd
      simp at hd
    · obtain rfl : p' = p.stored symbol := by
        rw [hi] at hp'
        simpa using hp'
      have := h u p hp
      cases p <;> simp_all [Payload.stored, Payload.kind]

theorem Kept.leaves_eq :
    (Numbering.ofArena t'.arena).leaves.toList =
      (Numbering.ofArena t.arena).leaves.toList.map (Payload.stored symbol) := by
  cases hkept.copied with
  | none hroot' _ hL => rw [ofArena_of_root_eq_none hroot', hL, List.map_nil]
  | tree hroot hroot' hf hrestores =>
    exact hrestores.leaves_eq (t.wellFormed hroot) (t'.wellFormed hroot') hf hroot hroot'
      (t.holders_le_one hroot) (t'.holders_le_one hroot')

/-- The decisions make the same bytes one by one. -/
theorem Kept.map_decisionBytes :
    (Numbering.ofArena t'.arena).decisions.toList.map
        (decisionBytes (Numbering.ofArena t'.arena)) =
      (Numbering.ofArena t.arena).decisions.toList.map
        (decisionBytes (Numbering.ofArena t.arena)) := by
  cases hkept.copied with
  | none hroot' hD _ => rw [ofArena_of_root_eq_none hroot', hD, List.map_nil, List.map_nil]
  | tree hroot hroot' hf hrestores =>
    have w := t.wellFormed hroot
    have w' := t'.wellFormed hroot'
    have hone := t.holders_le_one hroot
    have hone' := t'.holders_le_one hroot'
    rw [hrestores.decisions_eq w w' hf hroot hroot' hone hone', List.map_map]
    exact List.map_congr_left fun d _ =>
      decisionBytes_relink (hrestores.reference_eq w w' hf hroot hroot' hone hone') d

/-- A tree of which a stream keeps the same makes the same bytes. -/
theorem toBytes_of_kept (hbytes : toBytes t = .ok bytes) : toBytes t' = .ok bytes := by
  have hdecisions := hkept.map_decisionBytes
  have hD : (Numbering.ofArena t'.arena).decisions.size =
      (Numbering.ofArena t.arena).decisions.size := by
    simpa using congrArg List.length hdecisions
  have hL : (Numbering.ofArena t'.arena).leaves.size = (Numbering.ofArena t.arena).leaves.size := by
    simpa using congrArg List.length hkept.leaves_eq
  rw [toBytes] at hbytes ⊢
  obtain ⟨⟨⟩, hcheck, hbytes⟩ := bind_eq_ok_iff.mp hbytes
  obtain ⟨front, hfront, hbytes⟩ := bind_eq_ok_iff.mp hbytes
  obtain ⟨decisions, hdecisionBytes, hbytes⟩ := bind_eq_ok_iff.mp hbytes
  obtain ⟨leafCount, hcount, hbytes⟩ := bind_eq_ok_iff.mp hbytes
  obtain ⟨leaves, hleaves, hbytes⟩ := bind_eq_ok_iff.mp hbytes
  refine bind_eq_ok_iff.mpr ⟨(), hkept.checkLeaves hcheck, ?_⟩
  refine bind_eq_ok_iff.mpr ⟨front, ?_, bind_eq_ok_iff.mpr ⟨decisions, ?_,
    bind_eq_ok_iff.mpr ⟨leafCount, ?_, bind_eq_ok_iff.mpr ⟨leaves, ?_, hbytes⟩⟩⟩⟩
  · rw [hkept.properties_eq, hkept.schema_eq, SchemaBlock.bytes_stored]
    exact hfront
  · rw [hD, hdecisions]
    exact hdecisionBytes
  · rw [hL]
    exact hcount
  · rw [hkept.leaves_eq]
    exact mapM_leafBytes_stored hleaves

end Kept

/-! ### What can be read -/

/-- The highest bit of the word of a feature is taken for a sign. -/
theorem feature_lt_of_readDecision {node : Nat} {r : DecisionRecord × List UInt8}
    {rest : List UInt8} (hword : d.feature < 2 ^ 32) (hbytes : decisionBytes x d = .ok bytes)
    (h : readDecision s node (bytes ++ rest) = .ok r) : d.feature < 2 ^ 31 := by
  obtain ⟨criterion, -, hbytes⟩ := bind_eq_ok_iff.mp hbytes
  obtain rfl := Except.ok.inj hbytes
  obtain ⟨raw, hraw, hvalue⟩ := reads_int32_word hword
  obtain ⟨⟨feature, rest'⟩, hfeature, -⟩ := bind_eq_ok_iff.mp h
  by_contra hlarge
  have hnegative : raw.toInt < 0 := by
    rw [hvalue, Int.bmod_def]
    omega
  simp only [List.append_assoc] at hfeature
  rw [readFeature, hraw.bind_apply] at hfeature
  rw [if_neg (by omega)] at hfeature
  simp [fail] at hfeature

theorem feature_lt_of_indexedLoop {ds : List Decision} {bss : List (List UInt8)}
    (hbss : ds.mapM (decisionBytes x) = .ok bss) (hsuits : ∀ d ∈ ds, d.Suits s)
    (hword : ∀ d ∈ ds, d.feature < 2 ^ 32) {k : Nat} {got : List DecisionRecord}
    {rest : List UInt8} {r : List DecisionRecord × List UInt8}
    (h : indexedLoop (readDecision s) k ds.length got (bss.flatten ++ rest) = .ok r) :
    ∀ d ∈ ds, d.feature < 2 ^ 31 := by
  induction ds generalizing k got bss with
  | nil => simp
  | cons d ds ih =>
    obtain ⟨bs, bss', hd, hds, rfl⟩ := mapM_cons_eq_ok_iff.mp hbss
    rw [List.flatten_cons, List.append_assoc, List.length_cons, indexedLoop_succ] at h
    obtain ⟨⟨record, rest'⟩, hfirst, -⟩ := bind_eq_ok_iff.mp h
    have hlt := feature_lt_of_readDecision (hword d List.mem_cons_self) hd hfirst
    -- so the record is read, and the other records come after it
    rw [(reads_decision k (hsuits d List.mem_cons_self) hlt hd).bind_apply] at h
    intro e he
    rcases List.mem_cons.mp he with rfl | he
    · exact hlt
    · exact ih hds (fun e he => hsuits e (List.mem_cons_of_mem _ he))
        (fun e he => hword e (List.mem_cons_of_mem _ he)) h e he

theorem ofBytes_eq_ok_iff {symbolFeature : Option String} {t : Cart} :
    ofBytes symbolFeature bytes = .ok t ↔ ∃ rest, read symbolFeature bytes = .ok (t, rest) := by
  rw [ofBytes]
  cases read symbolFeature bytes with
  | error e => simp [Except.map]
  | ok p =>
    obtain ⟨t', rest⟩ := p
    simp [Except.map]

/-! ### The round trip -/

/-- What it takes to read the bytes of a tree: properties in the Basic Multilingual
Plane, a symbol feature that the schema has, if one is named, and no test of a feature
whose index fills all 32 bits of its word. -/
structure Readable (t : Cart) (symbolFeature : Option String) : Prop where
  basic : ∀ e ∈ t.arena.properties.entries, PropertyText.Basic e
  symbol : ∀ name, symbolFeature = some name → ∃ i, t.arena.schema.featureIndex? name = some i
  feature : ∀ u d, t.arena.content? u = some (.decision d) → d.feature < 2 ^ 31

theorem readable_of_ofBytes {t t' : Cart} {symbolFeature : Option String}
    (hbytes : toBytes t = .ok bytes)
    (hword : ∀ u d, t.arena.content? u = some (.decision d) → d.feature < 2 ^ 32)
    (h : ofBytes symbolFeature bytes = .ok t') : Readable t symbolFeature := by
  obtain ⟨properties, schema, decisions, leaves, hproperties, hschema, hdecisions, -, -, rfl⟩ :=
    exists_parts_of_toBytes hbytes
  obtain ⟨hD, bss, hbss, rfl⟩ := exists_decisionBytes hdecisions
  obtain ⟨rest, h⟩ := ofBytes_eq_ok_iff.mp h
  rw [read_eq, (reads_header .carts).bind_apply] at h
  obtain ⟨p, hblock, -⟩ := bind_eq_ok_iff.mp h
  have hbasic := PropertyText.basic_of_readBlock hproperties hblock
  rw [(PropertyText.reads_block hbasic hproperties).bind_apply,
    (SchemaBlock.reads_schema hschema).bind_apply] at h
  obtain ⟨symbol, hsymbol, h⟩ := ofExcept_bind_eq_ok_iff.mp h
  obtain ⟨records, hrecords, -⟩ := bind_eq_ok_iff.mp h
  rw [List.append_assoc, (reads_count _ hD).bind_apply, ← Array.length_toList] at hrecords
  refine ⟨hbasic, ?_, fun u d hu => ?_⟩
  · rintro name rfl
    cases hindex : t.arena.schema.featureIndex? name with
    | some i => exact ⟨i, rfl⟩
    | none =>
      have hnone : t.arena.schema.stored.featureIndex name = .error (.unknownFeature name) := by
        rw [Schema.featureIndex, Schema.featureIndex?_stored, hindex]
      have hsymbol : FormatError.ofSchema
          (some <$> t.arena.schema.stored.featureIndex name) = .ok symbol := hsymbol
      rw [hnone] at hsymbol
      simp [FormatError.ofSchema, Except.mapError, Functor.map, Except.map] at hsymbol
  · refine feature_lt_of_indexedLoop hbss (fun e he => (suits_of_mem_decisions t he).stored)
      (fun e he => ?_) hrecords d ((mem_decisions_iff t).mpr ⟨u, hu⟩)
    obtain ⟨v, hv⟩ := (mem_decisions_iff t).mp he
    exact hword v e hv

/-- The bytes of a tree whose properties lie in the Basic Multilingual Plane are read, and
what is read is written as the same bytes.  Conversely a tree is read from the bytes only
under these conditions, and it has these bytes itself.

The index of a feature is a word of 32 bits, which is written as an unsigned number and
read as a signed one; only a schema with more than `2 ^ 31` features makes a
difference. -/
theorem toBytes_ofBytes_toBytes (t : Cart) (symbolFeature : Option String) {bytes : List UInt8}
    (hbytes : toBytes t = .ok bytes)
    (hword : ∀ u d, t.arena.content? u = some (.decision d) → d.feature < 2 ^ 32) :
    (Readable t symbolFeature →
      ∃ t', ofBytes symbolFeature bytes = .ok t' ∧ toBytes t' = .ok bytes) ∧
    ∀ t', ofBytes symbolFeature bytes = .ok t' →
      Readable t symbolFeature ∧ toBytes t' = .ok bytes := by
  have hwritten : Readable t symbolFeature →
      ∃ t', ofBytes symbolFeature bytes = .ok t' ∧ toBytes t' = .ok bytes := by
    rintro ⟨hbasic, hsymbol, hfeature⟩
    obtain ⟨t', hread, hkept⟩ := reads_tree t symbolFeature hbytes hbasic hsymbol hfeature
    refine ⟨t', ?_, toBytes_of_kept hkept hbytes⟩
    have := hread []
    rw [List.append_nil] at this
    rw [ofBytes, this]
    rfl
  refine ⟨hwritten, fun t' ht' => ?_⟩
  have hreadable := readable_of_ofBytes hbytes hword ht'
  obtain ⟨t'', hread, hsame⟩ := hwritten hreadable
  rw [ht'] at hread
  obtain rfl := Except.ok.inj hread
  exact ⟨hreadable, hsame⟩

/-- The sample tree comes back without its leaf without data, and still has the same
bytes. -/
theorem toBytes_ofBytes_toBytes_sample :
    ∃ t bytes t', Sample.tree = .ok t ∧ toBytes t = .ok bytes ∧
      ofBytes (some "phone") bytes = .ok t' ∧ t'.arena.size + 1 = t.arena.size ∧
      Readable t (some "phone") ∧ toBytes t' = .ok bytes := by
  have hread : (Sample.tree.toOption.bind fun t => (toBytes t).toOption.bind fun bytes =>
      (ofBytes (some "phone") bytes).toOption.map fun t' =>
        decide (t'.arena.size + 1 = t.arena.size) &&
          t.arena.nodes.all fun n => n.decision?.all fun d => d.feature < 2 ^ 32) = some true := by
    decide +kernel
  obtain ⟨t, ht, hread⟩ := Option.bind_eq_some_iff.mp hread
  obtain ⟨bytes, hbytes, hread⟩ := Option.bind_eq_some_iff.mp hread
  obtain ⟨t', hread, hsize⟩ := Option.map_eq_some_iff.mp hread
  rw [Bool.and_eq_true, decide_eq_true_iff, Array.all_eq_true] at hsize
  obtain ⟨hsize, hnodes⟩ := hsize
  have hbytes := toOption_eq_some_iff.mp hbytes
  have hread := toOption_eq_some_iff.mp hread
  have hword : ∀ u d, t.arena.content? u = some (.decision d) → d.feature < 2 ^ 32 := by
    intro u d hd
    obtain ⟨n, hn, hnd⟩ := content?_eq_some_iff.mp hd
    obtain ⟨hu, rfl⟩ := node?_eq_some_iff.mp hn
    simpa [Node.decision?, hnd] using hnodes u hu
  exact ⟨t, bytes, t', toOption_eq_some_iff.mp ht, hbytes, hread, hsize,
    (toBytes_ofBytes_toBytes t (some "phone") hbytes hword).2 t' hread⟩

end Binary

end FeatureTree
