/-
Binary streams hold the trees that were written to them.

* `Binary.restorable` — the records of a tree are put together to that tree;
* `Binary.reads_tree` — the bytes of a tree are read as that tree;
* `Binary.exists_ofBytes_toBytes` — the round trip.
-/
import FeatureTree.Proofs.Format.Binary.Places
import FeatureTree.Proofs.Format.PropertyBlock
import FeatureTree.Sample

namespace FeatureTree.Binary

open Arena Relation Reader FeatureTree.Stream

/-! ### The tree that is read -/

/-- The nodes that are stored are the nodes of the other arena, and the root is the
root; if no node is stored, there is none. -/
inductive Copied (symbol : Option Nat) (a a' : Arena) : Prop
  | none : a'.root = none → (Numbering.ofArena a).decisions.toList = [] →
      (Numbering.ofArena a).leaves.toList = [] → Copied symbol a a'
  | tree {root : NodeId} {f : NodeId → Option NodeId} : a.root = some root → a'.root = some 0 →
      f root = some 0 → Restores a a' symbol f → Copied symbol a a'

/-- What a stream keeps of an arena, with the feature to which its reader assigns
symbols. -/
structure Kept (symbol : Option Nat) (a a' : Arena) : Prop where
  copied : Copied symbol a a'
  outline_eq : a'.outline = a.outline.stored symbol
  properties_eq : a'.properties = a.properties
  schema_eq : a'.schema = a.schema.stored

/-- The numbering of a tree. -/
theorem numbered_ofArena {a : Arena} {root : NodeId} (w : a.WellFormed root)
    (hroot : a.root = some root) (hone : ∀ u, a.holders u ≤ 1) :
    Numbering.ofArena a =
      (entries a root).foldl Numbering.add { references := Array.replicate a.size 0 } := by
  rw [Numbering.ofArena, hroot, w.preorder_eq hone]
  rfl

theorem ofArena_of_root_eq_none {a : Arena} (hroot : a.root = none) :
    Numbering.ofArena a = { references := Array.replicate a.size 0 } := by
  rw [Numbering.ofArena, hroot]
  rfl

section Records

variable {a : Arena} {root : NodeId} (w : a.WellFormed root) (hroot : a.root = some root)
  (hone : ∀ u, a.holders u ≤ 1)
include w hroot hone

theorem decisions_ofArena :
    (Numbering.ofArena a).decisions.toList = (decisionEntries (entries a root)).map (·.2) := by
  rw [numbered_ofArena w hroot hone]
  refine (Numbering.numbered_foldl _ (nodup_entries w hone) fun e he => ?_).decisions
  simpa using lt_of_node? ((mem_entries w).mp he)

theorem leaves_ofArena :
    (Numbering.ofArena a).leaves.toList = (leafEntries (entries a root)).map (·.2) := by
  rw [numbered_ofArena w hroot hone]
  refine (Numbering.numbered_foldl _ (nodup_entries w hone) fun e he => ?_).leaves
  simpa using lt_of_node? ((mem_entries w).mp he)

/-- The references of a record name the places of the children. -/
theorem records_recordOf (hD : (Numbering.ofArena a).decisions.size < 2 ^ 31)
    (hL : (Numbering.ofArena a).leaves.size < 2 ^ 31) (d : Decision) :
    Records (Numbering.ofArena a).decisions.size (Numbering.ofArena a).leaves.size
      (recordOf (Numbering.ofArena a) d) (relink (place? (entries a root)) d) := by
  constructor
  · simp [recordOf, relink]
  · simp only [recordOf, relink, Array.toList_map, List.mapM_map]
    refine mapM_eq_ok_map fun slot _ => ?_
    refine resolve_reference (nodup_entries w hone) (fun e he => ?_)
      (numbered_ofArena w hroot hone) hD hL slot
    simpa using lt_of_node? ((mem_entries w).mp he)

end Records

/-- The first node of the order is the root, if it is stored. -/
theorem place?_root {a : Arena} {root : NodeId} (w : a.WellFormed root)
    (hone : ∀ u, a.holders u ≤ 1) (hgraph : ∀ u g, a.content? u ≠ some (.graph g)) :
    (∃ p, a.content? root = some (.leaf p) ∧ p.isEmpty = true ∧
      decisionEntries (entries a root) = [] ∧ leafEntries (entries a root) = []) ∨
    place? (entries a root) root = some 0 ∧
      (decisionEntries (entries a root) ≠ [] ∨ (leafEntries (entries a root)).length = 1) := by
  obtain ⟨n, hn⟩ := exists_node?_iff.mpr w.root_lt
  have hcontent : a.content? root = some n.content := content?_eq_some_iff.mpr ⟨n, hn, rfl⟩
  have hentries : entries a root =
      (root, n) :: ((a.childIds root).flatMap (a.walk a.size)).filterMap a.entryAt? := by
    rw [entries, walk_size_eq w.acyclic w.child_lt w.root_lt,
      List.filterMap_cons_some (by rw [entryAt?, hn]; rfl)]
  -- the root comes first among the entries
  have hplace : (order (entries a root))[0]? = some root →
      place? (entries a root) root = some 0 :=
    (place?_eq_some_iff (nodup_entries w hone)).mpr
  cases hc : n.content with
  | decision d =>
    refine .inr ⟨hplace ?_, .inl ?_⟩
    · simp [order, decisionEntries, hentries, Node.decision?, hc]
    · simp [decisionEntries, hentries, Node.decision?, hc]
  | leaf p =>
    have hchildren : a.childIds root = [] := by
      rw [childIds_of_content? hcontent, hc]
      rfl
    rw [hchildren, List.flatMap_nil, List.filterMap_nil] at hentries
    have hdecisions : decisionEntries (entries a root) = [] := by
      simp [decisionEntries, hentries, Node.decision?, hc]
    by_cases hp : p.isEmpty = true
    · refine .inl ⟨p, hc ▸ hcontent, hp, hdecisions, ?_⟩
      simp [leafEntries, hentries, Node.payload?, hc, hp, Option.filter]
    · have hleaves : leafEntries (entries a root) = [(root, p)] := by
        simp [leafEntries, hentries, Node.payload?, hc, hp, Option.filter]
      refine .inr ⟨hplace ?_, .inr ?_⟩
      · rw [order, hdecisions, hleaves]
        rfl
      · rw [hleaves]
        rfl
  | graph g => exact absurd (hc ▸ hcontent) (hgraph root g)

/-- A tree whose nodes are those of the table keeps what a stream keeps. -/
theorem kept_of_table (t t' : Cart) {root : NodeId} {symbol : Option Nat}
    (hroot : t.arena.root = some root) (hroot' : t'.arena.root = some 0)
    (hplace : place? (entries t.arena root) root = some 0)
    (hproperties : t'.arena.properties = t.arena.properties)
    (hschema : t'.arena.schema = t.arena.schema.stored)
    (htable : ∀ i : Nat, t'.arena.content? i = (table (restoredDecisions (entries t.arena root))
      (restoredLeaves symbol (entries t.arena root)))[i]?) :
    Kept symbol t.arena t'.arena := by
  have h := restores_assembled (t.wellFormed hroot) (t.holders_le_one hroot) t.content?_ne_graph
    htable
  exact ⟨.tree hroot hroot' hplace h,
    h.outline_eq (t.wellFormed hroot) (t'.wellFormed hroot') hroot hroot' hplace,
    hproperties, hschema⟩

/-- The records and leaves of a tree are put together to a tree that keeps what a
stream keeps. -/
def Restorable (t : Cart) (symbol : Option Nat) : Prop :=
  ∃ b t', assemble t.arena.schema.stored
      ((Numbering.ofArena t.arena).decisions.toList.map (recordOf (Numbering.ofArena t.arena)))
      ((Numbering.ofArena t.arena).leaves.toList.map (Payload.stored symbol)) = .ok b ∧
    Cart.ofBuilder? (b.setProperties t.arena.properties) = .ok t' ∧
    Kept symbol t.arena t'.arena

/-- A tree of which no node is stored. -/
theorem restorable_of_empty {t : Cart} {symbol : Option Nat}
    (hD : (Numbering.ofArena t.arena).decisions.toList = [])
    (hL : (Numbering.ofArena t.arena).leaves.toList = [])
    (houtline : t.arena.outline.stored symbol = .empty) : Restorable t symbol := by
  obtain ⟨t', ht'⟩ := Cart.exists_ofBuilder?_of_empty
    (b := (Builder.empty t.arena.schema.stored).setProperties t.arena.properties) rfl rfl
  refine ⟨_, t', ?_, ht', ?_⟩
  · rw [hD, hL]
    exact assemble_nil (by simp)
  · obtain ⟨count, harena⟩ := Cart.arena_of_ofBuilder? ht'
    rw [harena]
    refine ⟨.none rfl hD hL, ?_, rfl, rfl⟩
    rw [houtline]
    rfl

section Records

variable {a : Arena} {root : NodeId} (w : a.WellFormed root) (hroot : a.root = some root)
  (hone : ∀ u, a.holders u ≤ 1)
include w hroot hone

/-- The records of a tree stand for the decisions that are put together. -/
theorem forall₂_records (symbol : Option Nat) (hD : (Numbering.ofArena a).decisions.size < 2 ^ 31)
    (hL : (Numbering.ofArena a).leaves.size < 2 ^ 31) :
    List.Forall₂
      (Records (restoredDecisions (entries a root)).length
        (restoredLeaves symbol (entries a root)).length)
      ((Numbering.ofArena a).decisions.toList.map (recordOf (Numbering.ofArena a)))
      (restoredDecisions (entries a root)) := by
  have hdecisions := decisions_ofArena w hroot hone
  have hleaves := leaves_ofArena w hroot hone
  have hlenD : (restoredDecisions (entries a root)).length =
      (Numbering.ofArena a).decisions.size := by
    rw [← Array.length_toList, hdecisions, restoredDecisions, List.length_map, List.length_map]
  have hlenL : (restoredLeaves symbol (entries a root)).length =
      (Numbering.ofArena a).leaves.size := by
    rw [← Array.length_toList, hleaves, restoredLeaves, List.length_map, List.length_map]
  rw [hlenD, hlenL, hdecisions, restoredDecisions, List.map_map, List.forall₂_map_left_iff,
    List.forall₂_map_right_iff, List.forall₂_same]
  exact fun e _ => records_recordOf w hroot hone hD hL e.2

end Records

/-- The children of a decision that is put together are among the stored nodes. -/
theorem lt_of_mem_restoredDecisions {es : List (NodeId × Node)} {symbol : Option Nat}
    {d : Decision} {c : NodeId} (hd : d ∈ restoredDecisions es)
    (hc : some c ∈ d.children.toList) :
    c < (restoredDecisions es).length + (restoredLeaves symbol es).length := by
  obtain ⟨e, -, rfl⟩ := List.mem_map.mp hd
  simp only [relink, Array.toList_map, List.mem_map] at hc
  obtain ⟨slot, -, hslot⟩ := hc
  obtain ⟨u, -, hu⟩ := Option.bind_eq_some_iff.mp hslot
  have := (List.getElem?_eq_some_iff.mp (getElem?_of_place? hu)).1
  rw [length_order] at this
  simpa [restoredDecisions, restoredLeaves] using this

/-- A tree whose root is stored. -/
theorem restorable_of_place (t : Cart) {root : NodeId} (symbol : Option Nat)
    (hroot : t.arena.root = some root)
    (hD : (Numbering.ofArena t.arena).decisions.size < 2 ^ 31)
    (hL : (Numbering.ofArena t.arena).leaves.size < 2 ^ 31)
    (hplace : place? (entries t.arena root) root = some 0)
    (hstored : decisionEntries (entries t.arena root) ≠ [] ∨
      (leafEntries (entries t.arena root)).length = 1) : Restorable t symbol := by
  have w := t.wellFormed hroot
  have hone := t.holders_le_one hroot
  obtain ⟨b, hb, hbroot, hschema, -, htable⟩ := exists_assemble (s := t.arena.schema.stored)
    (forall₂_records w hroot hone symbol hD hL)
    (fun d hd c hc => lt_of_mem_restoredDecisions hd hc)
    (by simpa [restoredDecisions, restoredLeaves] using hstored)
  have h := restores_assembled w hone t.content?_ne_graph htable
  -- the arena that was put together can be frozen
  have wb : b.toArena.WellFormed 0 :=
    h.wellFormed w hone hplace hschema fun u v i j => lt_of_holds_of_place w hone
  obtain ⟨t', ht'⟩ := Cart.exists_ofBuilder? (b := b.setProperties t.arena.properties) hbroot
    (wb.of_content rfl fun _ => rfl) h.content?_ne_graph
  refine ⟨b, t', ?_, ht', ?_⟩
  · rw [leaves_ofArena w hroot hone, List.map_map]
    exact hb
  · obtain ⟨count, harena⟩ := Cart.arena_of_ofBuilder? ht'
    refine kept_of_table t t' hroot ?_ hplace ?_ ?_ fun i => ?_
    · rw [harena]
      exact hbroot
    · rw [harena]
      rfl
    · rw [harena]
      exact hschema
    · rw [harena, content?_recount]
      exact htable i

theorem restorable (t : Cart) (symbol : Option Nat)
    (hD : (Numbering.ofArena t.arena).decisions.size < 2 ^ 31)
    (hL : (Numbering.ofArena t.arena).leaves.size < 2 ^ 31) : Restorable t symbol := by
  cases hroot : t.arena.root with
  | none =>
    refine restorable_of_empty ?_ ?_ ?_
    · rw [ofArena_of_root_eq_none hroot]
    · rw [ofArena_of_root_eq_none hroot]
    · rw [outline, hroot, unfold_none, Outline.stored]
  | some root =>
    have w := t.wellFormed hroot
    have hone := t.holders_le_one hroot
    rcases place?_root w hone t.content?_ne_graph with
      ⟨p, hp, hdata, hnoDecisions, hnoLeaves⟩ | ⟨hplace, hstored⟩
    · -- the root is a leaf without data
      refine restorable_of_empty ?_ ?_ ?_
      · rw [decisions_ofArena w hroot hone, hnoDecisions, List.map_nil]
      · rw [leaves_ofArena w hroot hone, hnoLeaves, List.map_nil]
      · rw [outline, hroot, unfold, hp]
        show Outline.stored symbol (.leaf p) = _
        rw [Outline.stored, if_pos hdata]
    · exact restorable_of_place t symbol hroot hD hL hplace hstored

/-! ### The bytes that are read -/

/-- All decisions of a tree are numbered. -/
theorem mem_decisions_iff (t : Cart) {d : Decision} :
    d ∈ (Numbering.ofArena t.arena).decisions.toList ↔
      ∃ u, t.arena.content? u = some (.decision d) := by
  cases hroot : t.arena.root with
  | none =>
    have hnone : ∀ u, t.arena.content? u = none := fun u =>
      content?_eq_none_iff.mpr (by rw [t.size_eq_zero hroot]; exact Nat.zero_le u)
    simp [ofArena_of_root_eq_none hroot, hnone]
  | some root =>
    have w := t.wellFormed hroot
    rw [decisions_ofArena w hroot (t.holders_le_one hroot), List.mem_map]
    constructor
    · rintro ⟨⟨u, d⟩, hmem, rfl⟩
      obtain ⟨n, hn, hnd⟩ := mem_decisionEntries.mp hmem
      exact ⟨u, content?_eq_some_iff.mpr ⟨n, (mem_entries w).mp hn, hnd⟩⟩
    · rintro ⟨u, hu⟩
      obtain ⟨n, hn, hnd⟩ := content?_eq_some_iff.mp hu
      exact ⟨(u, d), mem_decisionEntries.mpr ⟨n, (mem_entries w).mpr hn, hnd⟩, rfl⟩

theorem suits_of_mem_decisions (t : Cart) {d : Decision}
    (hd : d ∈ (Numbering.ofArena t.arena).decisions.toList) : d.Suits t.arena.schema := by
  obtain ⟨u, hu⟩ := (mem_decisions_iff t).mp hd
  obtain ⟨n, hn, hnd⟩ := content?_eq_some_iff.mp hu
  cases hroot : t.arena.root with
  | none =>
    have hlt := lt_size_of_content? hu
    rw [t.size_eq_zero hroot] at hlt
    exact absurd hlt (Nat.not_lt_zero u)
  | some root => exact (t.wellFormed hroot).decisions u n d hn hnd

/-- The bytes of the decisions, their number in front. -/
theorem exists_decisionBytes {x : Numbering} {bytes : List UInt8}
    (h : concat (lengthBytes x.decisions.size :: x.decisions.toList.map (decisionBytes x)) =
      .ok bytes) :
    x.decisions.size < 2 ^ 31 ∧ ∃ bss, x.decisions.toList.mapM (decisionBytes x) = .ok bss ∧
      bytes = bigEndian 4 x.decisions.size ++ bss.flatten := by
  obtain ⟨_, _, hlength, h1, rfl⟩ := concat_cons_eq_ok_iff.mp h
  obtain ⟨hlt, rfl⟩ := lengthBytes_eq_ok_iff.mp hlength
  rw [concat, List.mapM_map, Function.id_comp] at h1
  cases hm : x.decisions.toList.mapM (decisionBytes x) with
  | error e => simp [hm, Except.map] at h1
  | ok bss =>
    obtain rfl : bss.flatten = _ := by simpa [hm, Except.map] using h1
    exact ⟨hlt, bss, rfl, rfl⟩

/-- The decisions of a tree, their number in front. -/
theorem reads_decisions (t : Cart) {bytes : List UInt8}
    (hfeature : ∀ u d, t.arena.content? u = some (.decision d) → d.feature < 2 ^ 31)
    (h : concat (lengthBytes (Numbering.ofArena t.arena).decisions.size ::
      (Numbering.ofArena t.arena).decisions.toList.map
        (decisionBytes (Numbering.ofArena t.arena))) = .ok bytes) :
    (Numbering.ofArena t.arena).decisions.size < 2 ^ 31 ∧
    (do Reader.indexed (← Reader.count "decision node count")
          (readDecision t.arena.schema.stored) : Reader (List DecisionRecord)).Reads bytes
      ((Numbering.ofArena t.arena).decisions.toList.map
        (recordOf (Numbering.ofArena t.arena))) := by
  obtain ⟨hlt, bss, hm, rfl⟩ := exists_decisionBytes h
  refine ⟨hlt, (reads_count _ hlt).bind ?_⟩
  rw [← Array.length_toList]
  refine Reads.indexed hm fun i d bs hd hbs => ?_
  -- a test is read back if its feature still has as many values
  have hmem := List.mem_of_getElem? hd
  obtain ⟨u, hu⟩ := (mem_decisions_iff t).mp hmem
  exact reads_decision i (suits_of_mem_decisions t hmem).stored (hfeature u d hu) hbs

/-- The leaves of a tree, their number in front. -/
theorem reads_leaves (x : Numbering) (symbol : Option Nat) {bss : List (List UInt8)}
    (hlt : x.leaves.size < 2 ^ 31) (h : x.leaves.toList.mapM leafBytes = .ok bss) :
    (do Reader.repeated (← Reader.count "leaf count") (readLeaf symbol) :
      Reader (List Payload)).Reads (Stream.bigEndian 4 x.leaves.size ++ bss.flatten)
      (x.leaves.toList.map (Payload.stored symbol)) := by
  refine (reads_count _ hlt).bind ?_
  rw [← Array.length_toList]
  exact Reads.repeated h fun p _ bs hbs => reads_leaf _ hbs

/-- The parts of the bytes of a tree. -/
theorem exists_parts_of_toBytes {t : Cart} {bytes : List UInt8} (h : toBytes t = .ok bytes) :
    ∃ properties schema decisions leaves,
      PropertyText.blockBytes t.arena.properties = .ok properties ∧
      SchemaBlock.bytes t.arena.schema = .ok schema ∧
      concat (lengthBytes (Numbering.ofArena t.arena).decisions.size ::
        (Numbering.ofArena t.arena).decisions.toList.map
          (decisionBytes (Numbering.ofArena t.arena))) = .ok decisions ∧
      (Numbering.ofArena t.arena).leaves.size < 2 ^ 31 ∧
      (Numbering.ofArena t.arena).leaves.toList.mapM leafBytes = .ok leaves ∧
      bytes = Header.bytes .carts ++ (properties ++ (schema ++ (decisions ++
        (Stream.bigEndian 4 (Numbering.ofArena t.arena).leaves.size ++ leaves.flatten)))) := by
  rw [toBytes] at h
  obtain ⟨_, -, h1⟩ := bind_eq_ok_iff.mp h
  obtain ⟨front, hfront, h2⟩ := bind_eq_ok_iff.mp h1
  obtain ⟨decisions, hdecisions, h3⟩ := bind_eq_ok_iff.mp h2
  obtain ⟨leafCount, hcount, h4⟩ := bind_eq_ok_iff.mp h3
  obtain ⟨leaves, hleaves, h5⟩ := bind_eq_ok_iff.mp h4
  obtain rfl := Except.ok.inj h5
  obtain ⟨header, _, hheader, h6, rfl⟩ := concat_cons_eq_ok_iff.mp (ofStream_eq_ok_iff.mp hfront)
  obtain ⟨properties, _, hproperties, h7, rfl⟩ := concat_cons_eq_ok_iff.mp h6
  obtain ⟨schema, _, hschema, h8, rfl⟩ := concat_cons_eq_ok_iff.mp h7
  obtain rfl := Except.ok.inj hheader
  obtain rfl := Except.ok.inj (concat_nil.symm.trans h8)
  obtain ⟨hL, rfl⟩ := lengthBytes_eq_ok_iff.mp (ofStream_eq_ok_iff.mp hcount)
  refine ⟨properties, schema, decisions, leaves, hproperties, hschema,
    ofStream_eq_ok_iff.mp hdecisions, hL, hleaves, ?_⟩
  simp only [List.append_assoc, List.append_nil]

/-- The reader with the lengths beside what they count. -/
theorem read_eq (symbolFeature : Option String) :
    read symbolFeature = (do
      Header.expect .carts
      let properties ← PropertyText.readBlock
      let s ← SchemaBlock.read
      let symbol ← Reader.ofExcept (FormatError.ofSchema (symbolFeature.mapM s.featureIndex))
      let records ← (do indexed (← count "decision node count") (readDecision s))
      let leaves ← (do repeated (← count "leaf count") (readLeaf symbol))
      let b ← Reader.ofExcept (assemble s records leaves)
      Reader.ofExcept (FormatError.ofGraph
        (Cart.ofBuilder? (b.setProperties (properties.getD .empty))))) := by
  rw [read]
  simp only [bind_assoc]

/-- Properties that are left out are read as none. -/
theorem getD_empty (p : Properties) : (if p.isEmpty then none else some p).getD .empty = p := by
  obtain ⟨entries, sorted⟩ := p
  cases entries <;> rfl

/-- The whole of the bytes of a tree. -/
theorem reads_tree (t : Cart) (symbolFeature : Option String) {bytes : List UInt8}
    (hbytes : toBytes t = .ok bytes)
    (hbasic : ∀ e ∈ t.arena.properties.entries, PropertyText.Basic e)
    (hsymbol : ∀ name, symbolFeature = some name →
      ∃ i, t.arena.schema.featureIndex? name = some i)
    (hfeature : ∀ u d, t.arena.content? u = some (.decision d) → d.feature < 2 ^ 31) :
    ∃ t', (read symbolFeature).Reads bytes t' ∧
      Kept (symbolFeature.bind t.arena.schema.featureIndex?) t.arena t'.arena := by
  obtain ⟨properties, schema, decisions, leaves, hproperties, hschema, hdecisions, hL, hleaves,
    rfl⟩ := exists_parts_of_toBytes hbytes
  obtain ⟨hD, hrecords⟩ := reads_decisions t hfeature hdecisions
  obtain ⟨b, t', hb, ht', hkept⟩ :=
    restorable t (symbolFeature.bind t.arena.schema.featureIndex?) hD hL
  refine ⟨t', ?_, hkept⟩
  have hfeatureIndex : FormatError.ofSchema (symbolFeature.mapM t.arena.schema.stored.featureIndex)
      = .ok (symbolFeature.bind t.arena.schema.featureIndex?) := by
    have hstored : ∀ n, symbolFeature = some n →
        ∃ i, t.arena.schema.stored.featureIndex? n = some i := by
      simpa only [Schema.featureIndex?_stored] using hsymbol
    rw [Schema.mapM_featureIndex hstored]
    simp only [Schema.featureIndex?_stored]
    rfl
  rw [read_eq]
  refine (reads_header .carts).bind ?_
  refine (PropertyText.reads_block hbasic hproperties).bind ?_
  refine (SchemaBlock.reads_schema hschema).bind ?_
  refine (reads_ofExcept hfeatureIndex).skip ?_
  refine hrecords.bind ?_
  refine (reads_leaves _ _ hL hleaves).last ?_
  refine (reads_ofExcept hb).skip ?_
  rw [getD_empty, ht']
  exact reads_ofExcept rfl

/-! ### The round trip -/

/-- A tree that was written is read back: with the tests in their places, with empty
slots for the leaves without data, with the same data in the other leaves as far as a
stream keeps it, and with the same properties.  So every vector gets the same answer.

Properties are written in the sixteen bits of a code unit, which is why their
characters must fit.  A tested feature must have an index below `2 ^ 31`, since it is
written as an unsigned word and read as a signed one; only a schema of more than
`2 ^ 31` features has others. -/
theorem exists_ofBytes_toBytes (t : Cart) (symbolFeature : Option String) {bytes : List UInt8}
    (hbytes : toBytes t = .ok bytes)
    (hbasic : ∀ e ∈ t.arena.properties.entries, PropertyText.Basic e)
    (hsymbol : ∀ name, symbolFeature = some name →
      ∃ i, t.arena.schema.featureIndex? name = some i)
    (hfeature : ∀ u d, t.arena.content? u = some (.decision d) → d.feature < 2 ^ 31) :
    ∃ t' symbol, ofBytes symbolFeature bytes = .ok t' ∧
      symbol = symbolFeature.bind t.arena.schema.featureIndex? ∧
      t'.arena.outline = t.arena.outline.stored symbol ∧
      (t'.isEmpty = true ↔ t.arena.outline.stored symbol = .empty) ∧
      t'.arena.properties = t.arena.properties ∧
      t'.arena.schema = t.arena.schema.stored ∧
      ∀ v, t'.arena.interpret v =
        (t.arena.interpret v).map (Outline.storedAnswer symbol) := by
  obtain ⟨t', hread, hkept⟩ := reads_tree t symbolFeature hbytes hbasic hsymbol hfeature
  refine ⟨t', _, ?_, rfl, hkept.outline_eq, ?_, hkept.properties_eq, hkept.schema_eq,
    fun v => ?_⟩
  · have := hread []
    rw [List.append_nil] at this
    rw [ofBytes, this]
    rfl
  · rw [Cart.isEmpty_iff, hkept.outline_eq]
  · rw [Cart.interpret_eq, Cart.interpret_eq, hkept.outline_eq, Outline.descend_stored]

/-- The sample tree has a feature for symbols, an empty slot and a leaf without
data. -/
theorem exists_ofBytes_toBytes_sample :
    ∃ t bytes t', Sample.tree = .ok t ∧ toBytes t = .ok bytes ∧
      ofBytes (some "phone") bytes = .ok t' ∧
      t'.arena.outline = t.arena.outline.stored (some 0) := by
  have hwritten : ((Sample.tree.toOption.bind fun t => (toBytes t).toOption).isSome &&
      Sample.tree.toOption.all fun t => t.arena.properties.entries.isEmpty &&
        t.arena.schema.featureIndex? "phone" == some 0 &&
        t.arena.nodes.all fun n => n.decision?.all fun d => d.feature < 2 ^ 31) = true := by
    decide +kernel
  cases ht : Sample.tree with
  | error e => simp [ht, Except.toOption] at hwritten
  | ok t =>
    cases hbytes : toBytes t with
    | error e => simp [ht, hbytes, Except.toOption] at hwritten
    | ok bytes =>
      simp only [ht, Except.toOption, Option.all_some, Bool.and_eq_true, List.isEmpty_iff,
        beq_iff_eq, Array.all_eq_true, Option.bind_some, hbytes] at hwritten
      obtain ⟨-, ⟨hentries, hphone⟩, hnodes⟩ := hwritten
      obtain ⟨t', symbol, hread, rfl, houtline, -⟩ :=
        exists_ofBytes_toBytes t (some "phone") hbytes
          (by simp [hentries])
          (fun name hname => ⟨0, Option.some_inj.mp hname ▸ hphone⟩)
          (fun u d hd => by
            obtain ⟨n, hn, hnd⟩ := content?_eq_some_iff.mp hd
            obtain ⟨hu, rfl⟩ := node?_eq_some_iff.mp hn
            simpa [Node.decision?, hnd] using hnodes u hu)
      rw [Option.bind_some, hphone] at houtline
      exact ⟨t, bytes, t', rfl, hbytes, hread, houtline⟩

end FeatureTree.Binary
