/-
Trees are the graphs in which one way leads to every node.

A graph is checked twice before it is taken for a tree: freezing looks for second parents on
the search from the root, but lets graph nodes have them, and afterwards the children of all
nodes are counted.  Without graph nodes the first check leaves nothing to the second one.

* `Arena.FirstGraphNode` — the graph node that is reported;
* `Graph.treeFault?_eq_some_iff` — graph nodes are all that keeps a graph from being a tree;
* `Arena.HeldAt.unique` — in a tree no two slots hold the same node;
* `Cart.exists_unique_way`, `Cart.nodeCount_eq` — hence one way leads to every node, and the
  traversal from the root meets as many nodes as there are;
* `Cart.ofBuilder?_trees` — which builders become trees, what is reported of the others, and
  the ways in every tree.
-/
import FeatureTree.Proofs.Tree.Links
import FeatureTree.Proofs.Tree.Preorder

namespace FeatureTree

namespace Arena

/-- A graph node below which no number belongs to a graph node. -/
def FirstGraphNode (a : Arena) (u : NodeId) : Prop :=
  (∃ x, a.content? u = some (.graph x)) ∧ ∀ v < u, ∀ x, a.content? v ≠ some (.graph x)

variable {a : Arena} {root u p q : NodeId} {slot i : Nat} {n : Node}

theorem isGraphNode_eq_true_iff : n.isGraphNode = true ↔ ∃ x, n.content = .graph x := by
  rw [← Bool.not_eq_false, isGraphNode_eq_false_iff]
  simp

theorem isGraphNode_of_node? (hn : a.node? u = some n) :
    n.isGraphNode = true ↔ ∃ x, a.content? u = some (.graph x) := by
  rw [isGraphNode_eq_true_iff, content?_of_node? hn]
  simp

theorem findIdx?_isGraphNode_eq_some_iff :
    a.nodes.findIdx? Node.isGraphNode = some u ↔ a.FirstGraphNode u := by
  rw [Array.findIdx?_eq_some_iff_getElem]
  constructor
  · rintro ⟨hu, hgraph, hbefore⟩
    refine ⟨(isGraphNode_of_node? (node?_eq_some_iff.mpr ⟨hu, rfl⟩)).mp hgraph, fun v hv x hx => ?_⟩
    exact hbefore v hv
      ((isGraphNode_of_node? (node?_eq_some_iff.mpr ⟨hv.trans hu, rfl⟩)).mpr ⟨x, hx⟩)
  · rintro ⟨⟨x, hx⟩, hbefore⟩
    have hu : u < a.nodes.size := lt_size_of_content? hx
    refine ⟨hu, (isGraphNode_of_node? (node?_eq_some_iff.mpr ⟨hu, rfl⟩)).mpr ⟨x, hx⟩,
      fun v hv hgraph => ?_⟩
    obtain ⟨y, hy⟩ :=
      (isGraphNode_of_node? (node?_eq_some_iff.mpr ⟨hv.trans hu, rfl⟩)).mp hgraph
    exact hbefore v hv y hy

/-- A node that one slot at most holds is held by that slot alone. -/
theorem HeldAt.unique (hone : ∀ u, a.holders u ≤ 1) (h : a.HeldAt p slot u)
    (h' : a.HeldAt q i u) : p = q ∧ slot = i := by
  obtain rfl : p = q := eq_of_holders_le_one (hone u) h.holds h'.holds
  obtain ⟨x, hx, hslot⟩ := h
  obtain ⟨y, hy, hi⟩ := h'
  obtain rfl : x = y := Option.some_inj.mp (hx.symm.trans hy)
  refine ⟨rfl, ?_⟩
  have hnodup := nodup_childIds hone p
  rw [childIds_of_content? hx, List.Nodup, List.pairwise_filterMap,
    List.pairwise_iff_getElem] at hnodup
  obtain ⟨hlt, hget⟩ := List.getElem?_eq_some_iff.mp hslot
  obtain ⟨hlt', hget'⟩ := List.getElem?_eq_some_iff.mp hi
  rcases Nat.lt_trichotomy slot i with h | h | h
  · exact absurd rfl (hnodup slot i hlt hlt' h u hget u hget')
  · exact h
  · exact absurd rfl (hnodup i slot hlt' hlt h u hget' u hget)

/-- The traversal of a well-formed arena without shared nodes meets every node once. -/
theorem WellFormed.length_preorder (w : a.WellFormed root) (hone : ∀ u, a.holders u ≤ 1) :
    (a.preorder (some root)).nodes.length = a.size := by
  have hnodup := nodup_walk w.acyclic hone a.size root
  have hperm : (a.walk a.size root).Perm (List.range a.size) := by
    refine (List.perm_ext_iff_of_nodup hnodup List.nodup_range).mpr fun v => ?_
    rw [w.mem_walk_iff, List.mem_range]
  have hentries : ∀ v ∈ a.walk a.size root, (a.entryAt? v).isSome := by
    intro v hv
    obtain ⟨n, hn⟩ := exists_node?_iff.mpr (w.mem_walk_iff.mp hv)
    rw [entryAt?, hn]
    rfl
  rw [w.preorder_eq hone]
  calc ((a.walk a.size root).filterMap a.entryAt?).length
      = (a.walk a.size root).length := by
        rw [List.length_filterMap_eq_countP, List.countP_eq_length]
        exact hentries
    _ = a.size := by rw [hperm.length_eq, List.length_range]

end Arena

/-- Graph nodes are all that keeps a graph from being a tree: no node of it has two parents
unless one has. -/
theorem Graph.treeFault?_eq_some_iff {g : Graph} {e : GraphError} :
    g.arena.treeFault? = some e ↔ ∃ u, g.arena.FirstGraphNode u ∧ e = .graphNodeInTree u := by
  constructor
  · intro h
    cases hfind : g.arena.nodes.findIdx? Node.isGraphNode with
    | some u =>
      rw [Arena.treeFault?, hfind] at h
      exact ⟨u, Arena.findIdx?_isGraphNode_eq_some_iff.mp hfind, (Option.some_inj.mp h).symm⟩
    | none =>
      -- no graph node, and so no second parent either
      have hgraph : ∀ u x, g.arena.content? u ≠ some (.graph x) := by
        intro u x hx
        obtain ⟨n, hn, hnx⟩ := Arena.content?_eq_some_iff.mp hx
        obtain ⟨hu, rfl⟩ := Arena.node?_eq_some_iff.mp hn
        have hnot := Array.findIdx?_eq_none_iff.mp hfind _ (Array.getElem_mem hu)
        exact Arena.isGraphNode_eq_false_iff.mp hnot x hnx
      rw [g.treeFault?_eq_none hgraph] at h
      exact absurd h (by simp)
  · rintro ⟨u, hu, rfl⟩
    rw [Arena.treeFault?, Arena.findIdx?_isGraphNode_eq_some_iff.mpr hu]

namespace Cart

theorem ofGraph?_eq_error_iff {g : Graph} {e : GraphError} :
    ofGraph? g = .error e ↔ g.arena.treeFault? = some e := by
  unfold ofGraph?
  split
  · next e' he => rw [he, Except.error.injEq, Option.some_inj]
  · next hnone => simp [hnone]

/-- One way leads from the root of a tree to each of its nodes. -/
theorem exists_unique_way (t : Cart) {u : NodeId} (hu : u < t.arena.size) :
    ∃ root, t.arena.root = some root ∧ ∃ steps, t.arena.Way root steps u ∧
      ∀ steps', t.arena.Way root steps' u → steps' = steps := by
  obtain ⟨n, hn⟩ := Arena.exists_node?_iff.mpr hu
  obtain ⟨root, hroot⟩ := t.exists_root hn
  have w := t.wellFormed hroot
  obtain ⟨steps, hsteps⟩ := Arena.exists_way (w.reached u hu)
  refine ⟨root, hroot, steps, hsteps, fun steps' h' => hsteps.eq_of_heldAt w ?_ h'⟩
  exact fun p q slot i u h h' => h.unique (t.holders_le_one hroot) h'

/-- The traversal from the root of a tree meets as many nodes as there are. -/
theorem nodeCount_eq (t : Cart) : t.arena.nodeCount = .ok t.arena.size := by
  cases hroot : t.arena.root with
  | none =>
    rw [Arena.nodeCount, hroot, t.size_eq_zero hroot]
    rfl
  | some root =>
    have w := t.wellFormed hroot
    have hone := t.holders_le_one hroot
    have hids : (t.arena.preorder (some root)).ids =
        .ok ((t.arena.preorder (some root)).nodes.map (·.1)) := by
      rw [Traversal.ids, w.preorder_eq hone]
    rw [Arena.nodeCount, hroot, hids]
    simp only [bind, Except.bind, List.length_map, w.length_preorder hone]
    rfl

/-- A builder becomes a tree if it becomes a graph without graph nodes, which then is the
graph of the tree.  Otherwise it is reported what keeps it from being a graph, or the first
graph node; that a node has two parents never is.  In every tree one way leads from the root
to each node, so that the traversal meets as many nodes as there are. -/
theorem ofBuilder?_trees (b : Builder) :
    (∀ g, (∃ t, ofBuilder? b = .ok t ∧ t.graph = g) ↔
      b.finish = .ok g ∧ ∀ u x, g.arena.content? u ≠ some (.graph x)) ∧
    (∀ e, ofBuilder? b = .error e ↔ b.finish = .error e ∨
      ∃ g u, b.finish = .ok g ∧ g.arena.FirstGraphNode u ∧ e = .graphNodeInTree u) ∧
    (∀ (g : Graph) (c : NodeId), g.arena.treeFault? ≠ some (.sharedNode c)) ∧
    ∀ t : Cart,
      (∀ u < t.arena.size, ∃ root, t.arena.root = some root ∧ ∃ steps,
        t.arena.Way root steps u ∧ ∀ steps', t.arena.Way root steps' u → steps' = steps) ∧
      t.arena.nodeCount = .ok t.arena.size := by
  refine ⟨fun g => ⟨?_, ?_⟩, fun e => ?_, fun g c hc => ?_, fun t =>
    ⟨fun u hu => t.exists_unique_way hu, t.nodeCount_eq⟩⟩
  · rintro ⟨t, ht, rfl⟩
    refine ⟨?_, t.content?_ne_graph⟩
    cases hg : b.finish with
    | error e => simp [ofBuilder?, bind, Except.bind, hg] at ht
    | ok g =>
      rw [ofBuilder?, hg] at ht
      rw [ofGraph?_eq_ok_iff.mp ht]
  · rintro ⟨hg, hgraph⟩
    exact exists_ofBuilder?_of_finish hg hgraph
  · cases hg : b.finish with
    | error e' => simp [ofBuilder?, bind, Except.bind, hg]
    | ok g =>
      rw [ofBuilder?, hg]
      change ofGraph? g = .error e ↔ _
      rw [ofGraph?_eq_error_iff, Graph.treeFault?_eq_some_iff]
      simp
  · obtain ⟨u, -, hu⟩ := Graph.treeFault?_eq_some_iff.mp hc
    exact absurd hu (by simp)

end Cart

end FeatureTree
