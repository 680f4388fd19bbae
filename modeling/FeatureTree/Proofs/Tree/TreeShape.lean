/-
Trees are the well-formed graphs without graph nodes.

The shape of a tree follows from freezing: where only graph nodes may be shared
and there are none, every node but the root is held by one slot.

* `Arena.WellFormed.of_content` — well-formedness is a matter of contents alone;
* `Arena.HeldAt` — the edges by slots;
* `Arena.Shaped.of_increasing` — one parent with a lower number for every node;
* `Graph.wellFormed`, `Graph.treeFault?_eq_none` — what is known of every graph;
* `Cart.wellFormed`, `Cart.content?_ne_graph`, `Cart.interpret_eq` — and of every tree;
* `Cart.exists_ofBuilder?`, `Cart.arena_of_ofBuilder?` — which builders become
  trees, and which trees.
-/
import FeatureTree.Proofs.Tree.Freezing
import FeatureTree.Proofs.Tree.Building
import FeatureTree.Tree.Cart

namespace FeatureTree

open Relation

namespace Arena

variable {a b : Arena} {root u p c : NodeId}

theorem lt_size_iff_content? : u < a.size ↔ ∃ content, a.content? u = some content := by
  rw [← exists_node?_iff]
  constructor
  · rintro ⟨n, hn⟩
    exact ⟨n.content, content?_eq_some_iff.mpr ⟨n, hn, rfl⟩⟩
  · rintro ⟨content, hcontent⟩
    obtain ⟨n, hn, -⟩ := content?_eq_some_iff.mp hcontent
    exact ⟨n, hn⟩

theorem content?_of_node? {n : Node} (h : a.node? u = some n) : a.content? u = some n.content :=
  content?_eq_some_iff.mpr ⟨n, h, rfl⟩

theorem size_eq_of_content (h : ∀ u, b.content? u = a.content? u) : b.size = a.size := by
  have hlt : ∀ u, u < b.size ↔ u < a.size := fun u => by
    rw [lt_size_iff_content?, lt_size_iff_content?, h u]
  have h1 := hlt a.size
  have h2 := hlt b.size
  omega

theorem childIds_eq_of_content (h : ∀ u, b.content? u = a.content? u) (p : NodeId) :
    b.childIds p = a.childIds p := by
  cases hb : b.content? p with
  | some content => rw [childIds_of_content? hb, childIds_of_content? (h p ▸ hb)]
  | none =>
    have hempty : ∀ x : Arena, x.content? p = none → x.childIds p = [] := by
      intro x hx
      rw [childIds.eq_def, Option.map_eq_none_iff.mp hx]
    rw [hempty b hb, hempty a (h p ▸ hb)]

theorem slotCount_eq_of_content (h : ∀ u, b.content? u = a.content? u) :
    b.slotCount = a.slotCount := by
  rw [slotCount, slotCount, size_eq_of_content h]
  refine Finset.sum_congr rfl fun u _ => ?_
  rw [slotsOf, slotsOf, h u]

theorem isGraphNode_eq_false_iff {n : Node} :
    n.isGraphNode = false ↔ ∀ g, n.content ≠ .graph g := by
  rw [Node.isGraphNode.eq_def]
  cases n.content <;> simp

theorem isLeaf_iff {n : Node} : n.isLeaf = true ↔ ∃ p, n.content = .leaf p := by
  rw [Node.isLeaf.eq_def]
  cases n.content <;> simp

theorem nodeIs_isLeaf_iff :
    a.nodeIs Node.isLeaf u = true ↔ ∃ p, a.content? u = some (.leaf p) := by
  rw [nodeIs_iff]
  simp only [isLeaf_iff, content?_eq_some_iff]
  exact ⟨fun ⟨n, hn, p, hp⟩ => ⟨p, n, hn, hp⟩, fun ⟨p, n, hn, hp⟩ => ⟨n, hn, p, hp⟩⟩

/-- Links, counts and properties have no part in being well formed. -/
theorem WellFormed.of_content (w : a.WellFormed root) (hschema : b.schema = a.schema)
    (h : ∀ u, b.content? u = a.content? u) : b.WellFormed root := by
  have hsize := size_eq_of_content h
  have hchildren := childIds_eq_of_content h
  have hholds : b.Holds = a.Holds := by
    funext p c
    rw [Holds, Holds, hchildren]
  have hnode : ∀ {u n}, b.node? u = some n → ∃ m, a.node? u = some m ∧ m.content = n.content := by
    intro u n hn
    exact content?_eq_some_iff.mp (h u ▸ content?_of_node? hn)
  have hnode' : ∀ {u n}, a.node? u = some n → ∃ m, b.node? u = some m ∧ m.content = n.content := by
    intro u n hn
    exact content?_eq_some_iff.mp ((h u).symm ▸ content?_of_node? hn)
  refine
    { root_lt := hsize ▸ w.root_lt, child_lt := ?_, reached := ?_, acyclic := ?_, unshared := ?_,
      decisions := ?_, graphNodes := ?_ }
  · rw [hholds, hsize]
    exact w.child_lt
  · rw [hsize, Reaches, hholds]
    exact w.reached
  · rw [hholds]
    exact w.acyclic
  · intro u n hn hg
    obtain ⟨m, hm, hmc⟩ := hnode hn
    have hone := w.unshared u m hm (by
      rw [isGraphNode_eq_false_iff] at hg ⊢
      rwa [hmc])
    simpa only [holders, hsize, hchildren] using hone
  · intro u n d hn hd
    obtain ⟨m, hm, hmc⟩ := hnode hn
    rw [hschema]
    exact w.decisions u m d hm (hmc.trans hd)
  · intro u n g hn hg
    obtain ⟨m, hm, hmc⟩ := hnode hn
    obtain ⟨hleaf, hdecision⟩ := w.graphNodes u m g hm (hmc.trans hg)
    constructor
    · intro l hl
      obtain ⟨k, hk, hkl⟩ := hleaf l hl
      obtain ⟨k', hk', hkc⟩ := hnode' hk
      exact ⟨k', hk', by rwa [Node.isLeaf, hkc]⟩
    · intro d hd
      obtain ⟨k, hk, hkd⟩ := hdecision d hd
      obtain ⟨k', hk', hkc⟩ := hnode' hk
      refine ⟨k', hk', ?_⟩
      rwa [Node.isDecision, Node.isGraphNode, hkc]

theorem node?_recount (a : Arena) (count : NodeId → Nat) (u : NodeId) :
    (a.recount count).node? u = (a.node? u).map fun n => { n with count := count u } :=
  Array.getElem?_mapIdx

@[simp] theorem content?_recount (a : Arena) (count : NodeId → Nat) (u : NodeId) :
    (a.recount count).content? u = a.content? u := by
  rw [content?, node?_recount, Option.map_map]
  rfl

/-! ### Slots -/

/-- A slot of one node holds another one. -/
def HeldAt (a : Arena) (p : NodeId) (slot : Nat) (u : NodeId) : Prop :=
  ∃ x, a.content? p = some x ∧ x.children[slot]? = some (some u)

section HeldAt

variable {slot : Nat}

theorem HeldAt.holds (h : a.HeldAt p slot c) : a.Holds p c := by
  obtain ⟨x, hx, hc⟩ := h
  exact holds_of_content? hx (List.mem_of_getElem? hc)

theorem exists_heldAt (h : a.Holds p c) : ∃ slot, a.HeldAt p slot c := by
  obtain ⟨x, hx⟩ := exists_content? (lt_of_holds h)
  rw [Holds, childIds_of_content? hx] at h
  obtain ⟨place, hplace, rfl⟩ := List.mem_filterMap.mp h
  obtain ⟨slot, hslot⟩ := List.mem_iff_getElem?.mp hplace
  exact ⟨slot, x, hx, hslot⟩

/-- A leaf has no slots. -/
theorem HeldAt.ne_of_leaf {payload : Payload} (hu : a.content? u = some (.leaf payload))
    (h : a.HeldAt p slot c) : p ≠ u := by
  rintro rfl
  obtain ⟨x, hx, hc⟩ := h
  obtain rfl := Option.some_inj.mp (hu.symm.trans hx)
  simp [NodeContent.children] at hc

end HeldAt

/-! ### Children after their parents -/

/-- A node that is named once by each of its parents, of which there is one at most,
is held by one slot at most. -/
theorem holders_le_one (hunique : ∀ p q, a.Holds p c → a.Holds q c → p = q)
    (hnodup : ∀ p, (a.childIds p).Nodup) : a.holders c ≤ 1 := by
  have hcount : ∀ p, (a.childIds p).count c ≤ 1 := fun p =>
    List.nodup_iff_count_le_one.mp (hnodup p) c
  by_cases h : ∃ p, a.Holds p c
  · obtain ⟨p, hp⟩ := h
    have hother : ∀ q ∈ Finset.range a.size, q ≠ p → (a.childIds q).count c = 0 := by
      intro q _ hne
      exact List.count_eq_zero.mpr fun hq => hne (hunique q p hq hp)
    rw [holders, Finset.sum_eq_single_of_mem p (Finset.mem_range.mpr (lt_of_holds hp)) hother]
    exact hcount p
  · rw [holders, Finset.sum_eq_zero fun q _ => List.count_eq_zero.mpr fun hq => h ⟨q, hq⟩]
    exact Nat.zero_le 1

/-- Nodes that each have one parent with a lower number, all but the root, form a
tree. -/
theorem Shaped.of_increasing (hroot : root < a.size)
    (hlt : ∀ p c, a.Holds p c → p < c ∧ c < a.size)
    (hheld : ∀ c < a.size, c ≠ root → ∃ p, a.Holds p c)
    (hunique : ∀ p q c, a.Holds p c → a.Holds q c → p = q)
    (hnodup : ∀ p, (a.childIds p).Nodup) : a.Shaped root := by
  -- numbers grow on every way down
  have hmono : ∀ {u v}, TransGen a.Holds u v → u < v := by
    intro u v h
    induction h with
    | single h => exact (hlt _ _ h).1
    | tail _ h ih => exact ih.trans (hlt _ _ h).1
  refine
    { root_lt := hroot, child_lt := fun p c h => (hlt p c h).2, reached := ?_, acyclic := ?_,
      unshared := ?_ }
  · intro id
    induction id using Nat.strong_induction_on with
    | _ id ih =>
      intro hid
      by_cases hne : id = root
      · rw [hne]
        exact ReflTransGen.refl
      · obtain ⟨p, hp⟩ := hheld id hid hne
        exact (ih p (hlt p id hp).1 (lt_of_holds hp)).tail hp
  · intro u hu
    exact Nat.lt_irrefl u (hmono hu)
  · intro u n _ _
    exact holders_le_one (fun p q => hunique p q u) hnodup

/-- Without graph nodes the decisions are all that is left to suit. -/
theorem Shaped.wellFormed (w : a.Shaped root)
    (hsuits : ∀ u d, a.content? u = some (.decision d) → d.Suits a.schema)
    (hgraph : ∀ u g, a.content? u ≠ some (.graph g)) : a.WellFormed root :=
  { w with
    decisions := fun u n d hn hd => hsuits u d (content?_eq_some_iff.mpr ⟨n, hn, hd⟩)
    graphNodes := fun u n g hn hg =>
      absurd (content?_eq_some_iff.mpr ⟨n, hn, hg⟩) (hgraph u g) }

/-! ### No node is named twice -/

theorem count_flatMap_childIds (a : Arena) (c : NodeId) :
    (a.nodes.toList.flatMap Node.childIds).count c = a.holders c := by
  rw [List.count_flatMap, holders]
  exact a.sum_map_childIds (List.count c)

theorem repeatedChild?_eq_none {ids : List NodeId} (hnodup : ids.Nodup) :
    ∀ {named : Array Bool}, (∀ c ∈ ids, named[c]?.getD false = false) →
      repeatedChild? named ids = none := by
  induction ids with
  | nil => exact fun _ => rfl
  | cons c ids ih =>
    intro named hnamed
    rw [repeatedChild?, hnamed c List.mem_cons_self]
    refine ih (List.nodup_cons.mp hnodup).2 fun d hd => ?_
    have hne : c ≠ d := by
      rintro rfl
      exact (List.nodup_cons.mp hnodup).1 hd
    rw [Array.getElem?_setIfInBounds_ne hne]
    exact hnamed d (List.mem_cons_of_mem _ hd)

theorem WellFormed.treeFault?_eq_none (w : a.WellFormed root)
    (hgraph : ∀ u g, a.content? u ≠ some (.graph g)) : a.treeFault? = none := by
  have hnot : ∀ u n, a.node? u = some n → n.isGraphNode = false := by
    intro u n hn
    rw [isGraphNode_eq_false_iff]
    intro g hg
    exact hgraph u g (content?_eq_some_iff.mpr ⟨n, hn, hg⟩)
  have hfind : a.nodes.findIdx? Node.isGraphNode = none := by
    rw [Array.findIdx?_eq_none_iff]
    intro n hn
    obtain ⟨u, hu, rfl⟩ := Array.mem_iff_getElem.mp hn
    exact hnot u _ (node?_eq_some_iff.mpr ⟨hu, rfl⟩)
  -- a node named twice would have two holders
  have hnodup : (a.nodes.toList.flatMap Node.childIds).Nodup := by
    rw [List.nodup_iff_count_le_one]
    intro c
    rw [count_flatMap_childIds]
    by_cases hc : c < a.size
    · obtain ⟨n, hn⟩ := exists_node?_iff.mpr hc
      exact w.unshared c n hn (hnot c n hn)
    · refine Nat.le_of_eq (Finset.sum_eq_zero fun p _ => ?_) |>.trans (Nat.zero_le 1)
      exact List.count_eq_zero.mpr fun hpc => hc (w.child_lt p c hpc)
  rw [treeFault?, hfind]
  simp only [Option.map_eq_none_iff]
  refine repeatedChild?_eq_none hnodup fun c _ => ?_
  rw [Array.getElem?_replicate]
  split <;> rfl

end Arena

/-! ### Every graph, and every tree -/

namespace Graph

variable (g : Graph) {root : NodeId}

theorem wellFormed (h : g.arena.root = some root) : g.arena.WellFormed root := by
  obtain ⟨a, ha⟩ := g.frozen
  obtain ⟨count, -, heq⟩ := Arena.tallies_of_freeze ha
  have hroot : a.root = some root := by rw [← h, heq]; rfl
  rcases Arena.exists_freeze_iff.mp ⟨_, ha⟩ with ⟨-, hnone⟩ | ⟨r, hr, w⟩
  · rw [hnone] at hroot
    exact absurd hroot (by simp)
  · obtain rfl : r = root := Option.some_inj.mp (hr ▸ hroot)
    rw [heq]
    exact w.of_content rfl (a.content?_recount count)

theorem size_eq_zero (h : g.arena.root = none) : g.arena.size = 0 := by
  obtain ⟨a, ha⟩ := g.frozen
  obtain ⟨count, -, heq⟩ := Arena.tallies_of_freeze ha
  have hroot : a.root = none := by rw [← h, heq]; rfl
  have hsize : g.arena.size = a.size := by
    rw [heq]
    exact Arena.size_eq_of_content (a.content?_recount count)
  rcases Arena.exists_freeze_iff.mp ⟨_, ha⟩ with ⟨hzero, -⟩ | ⟨r, hr, -⟩
  · rw [hsize, hzero]
  · rw [hroot] at hr
    exact absurd hr (by simp)

/-- In a graph without graph nodes nothing keeps it from being a tree. -/
theorem treeFault?_eq_none (h : ∀ u x, g.arena.content? u ≠ some (.graph x)) :
    g.arena.treeFault? = none := by
  cases hroot : g.arena.root with
  | some root => exact (g.wellFormed hroot).treeFault?_eq_none h
  | none =>
    have hnodes : g.arena.nodes = #[] := Array.eq_empty_of_size_eq_zero (g.size_eq_zero hroot)
    rw [Arena.treeFault?, Arena.size, hnodes]
    simp [Arena.repeatedChild?]

end Graph

/-- Freezing leaves the contents of the nodes alone. -/
theorem Builder.content?_of_finish {b : Builder} {g : Graph} (h : b.finish = .ok g) (u : NodeId) :
    g.arena.content? u = b.content? u := by
  obtain ⟨count, -, harena⟩ := Arena.tallies_of_freeze (Graph.ofArena?_eq_ok_iff.mp h)
  rw [harena]
  exact Arena.content?_recount _ count u

namespace Cart

variable (t : Cart) {root : NodeId}

theorem wellFormed (h : t.arena.root = some root) : t.arena.WellFormed root :=
  t.graph.wellFormed h

theorem size_eq_zero (h : t.arena.root = none) : t.arena.size = 0 := t.graph.size_eq_zero h

theorem exists_root {u : NodeId} {n : Node} (hn : t.arena.node? u = some n) :
    ∃ root, t.arena.root = some root := by
  cases hroot : t.arena.root with
  | some root => exact ⟨root, rfl⟩
  | none =>
    have hlt := Arena.lt_of_node? hn
    rw [t.size_eq_zero hroot] at hlt
    exact absurd hlt (Nat.not_lt_zero u)

theorem content?_ne_graph (u : NodeId) (g : GraphNode) : t.arena.content? u ≠ some (.graph g) := by
  intro h
  obtain ⟨n, hn, hng⟩ := Arena.content?_eq_some_iff.mp h
  have htree := t.tree
  change t.arena.treeFault? = none at htree
  rw [Arena.treeFault?] at htree
  cases hfind : t.arena.nodes.findIdx? Node.isGraphNode with
  | some i => simp [hfind] at htree
  | none =>
    obtain ⟨hu, rfl⟩ := Arena.node?_eq_some_iff.mp hn
    have := Array.findIdx?_eq_none_iff.mp hfind _ (Array.getElem_mem hu)
    simp [Node.isGraphNode, hng] at this

/-- A tree without nodes is one whose outline is empty. -/
theorem isEmpty_iff : t.isEmpty = true ↔ t.arena.outline = .empty := by
  rw [isEmpty, Option.isNone_iff_eq_none, Arena.outline]
  constructor
  · intro hroot
    rw [hroot, Arena.unfold_none]
  · intro h
    cases hroot : t.arena.root with
    | none => rfl
    | some root =>
      obtain ⟨x, hx⟩ := Arena.exists_content? (t.wellFormed hroot).root_lt
      rw [hroot, Arena.unfold, hx] at h
      cases x with
      | leaf p => simp at h
      | decision d => simp at h
      | graph g => simp at h

/-- The answer to a vector is that of the outline. -/
theorem interpret_eq (v : FeatureVector) :
    t.arena.interpret v = t.arena.outline.descend v := by
  cases hroot : t.arena.root with
  | some root => exact (t.wellFormed hroot).interpret_eq_descend_outline hroot v
  | none =>
    rw [Arena.interpret.eq_def, Arena.outline, hroot, Arena.unfold_none, Outline.descend]

theorem ofGraph?_eq_ok_iff {g : Graph} {t : Cart} : ofGraph? g = .ok t ↔ t.graph = g := by
  unfold ofGraph?
  split
  · next e he =>
    constructor
    · intro h
      simp at h
    · rintro rfl
      rw [t.tree] at he
      simp at he
  · next htree =>
    constructor
    · intro h
      obtain rfl := Except.ok.inj h
      rfl
    · rintro rfl
      rfl

/-- The tree of a builder has the nodes of the builder, up to their counts. -/
theorem arena_of_ofBuilder? {b : Builder} {t : Cart} (h : ofBuilder? b = .ok t) :
    ∃ count, t.arena = b.toArena.recount count := by
  rw [ofBuilder?] at h
  simp only [bind, Except.bind] at h
  cases hg : b.finish with
  | error e => simp [hg] at h
  | ok g =>
    simp only [hg, ofGraph?_eq_ok_iff] at h
    subst h
    obtain ⟨count, -, harena⟩ := Arena.tallies_of_freeze (Graph.ofArena?_eq_ok_iff.mp hg)
    exact ⟨count, harena⟩

theorem holders_le_one (h : t.arena.root = some root) (u : NodeId) : t.arena.holders u ≤ 1 := by
  have w := t.wellFormed h
  by_cases hu : u < t.arena.size
  · obtain ⟨n, hn⟩ := Arena.exists_node?_iff.mpr hu
    refine w.unshared u n hn (Arena.isGraphNode_eq_false_iff.mpr fun g hg => ?_)
    exact t.content?_ne_graph u g (Arena.content?_eq_some_iff.mpr ⟨n, hn, hg⟩)
  · have hnone : ∀ p, ¬ t.arena.Holds p u := fun p hp => hu (w.child_lt p u hp)
    rw [Arena.holders, Finset.sum_eq_zero fun p _ => List.count_eq_zero.mpr (hnone p)]
    exact Nat.zero_le 1

/-- A graph without graph nodes is a tree. -/
theorem exists_ofBuilder?_of_finish {b : Builder} {g : Graph} (h : b.finish = .ok g)
    (hgraph : ∀ u x, g.arena.content? u ≠ some (.graph x)) :
    ∃ t, ofBuilder? b = .ok t ∧ t.graph = g := by
  refine ⟨⟨g, g.treeFault?_eq_none hgraph⟩, ?_, rfl⟩
  rw [ofBuilder?, h]
  exact ofGraph?_eq_ok_iff.mpr rfl

/-- A builder over a well-formed arena without graph nodes becomes a tree with the
same contents. -/
theorem exists_ofBuilder? {b : Builder} (hroot : b.root = some root)
    (w : b.toArena.WellFormed root) (hgraph : ∀ u g, b.content? u ≠ some (.graph g)) :
    ∃ t, ofBuilder? b = .ok t := by
  obtain ⟨a, ha⟩ := Arena.exists_freeze_iff.mpr (.inr ⟨root, hroot, w⟩)
  have hfinish : b.finish = .ok ⟨a, b.toArena, ha⟩ := Graph.ofArena?_eq_ok_iff.mpr ha
  obtain ⟨t, ht, -⟩ := exists_ofBuilder?_of_finish hfinish fun u x hx =>
    hgraph u x ((Builder.content?_of_finish hfinish u).symm.trans hx)
  exact ⟨t, ht⟩

/-- A builder without nodes and root becomes the empty tree. -/
theorem exists_ofBuilder?_of_empty {b : Builder} (hsize : b.size = 0) (hroot : b.root = none) :
    ∃ t, ofBuilder? b = .ok t := by
  obtain ⟨a, ha⟩ := Arena.exists_freeze_iff.mpr (.inl ⟨hsize, hroot⟩)
  have hfinish : b.finish = .ok ⟨a, b.toArena, ha⟩ := Graph.ofArena?_eq_ok_iff.mpr ha
  obtain ⟨t, ht, -⟩ := exists_ofBuilder?_of_finish hfinish fun u x hx => by
    rw [Builder.content?_of_finish hfinish] at hx
    exact absurd (Arena.lt_size_of_content? hx) (by rw [hsize]; exact Nat.not_lt_zero u)
  exact ⟨t, ht⟩

end Cart

end FeatureTree
