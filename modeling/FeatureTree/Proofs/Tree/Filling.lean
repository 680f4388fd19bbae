/-
Filling leaves.

Vectors that are put into the leaves of an arena change what those leaves hold, and nothing
else: every way down is as it was, and a tree stays a tree.

* `NodeContent.receive`, `Arena.filled` — vectors at the end of the leaves;
* `Indexer.SameWays` — arenas with the same ways down, of which the descents need no more;
* `Arena.filled_modify` — one more vector for one node;
* `Arena.WellFormed.filled` — a tree with filled leaves.
-/
import FeatureTree.Proofs.Tree.Descent
import FeatureTree.Tree.Indexer

namespace FeatureTree

open Relation

/-! ### Leaves that receive vectors -/

namespace NodeContent

/-- The content with vectors at the end of its list, if it is a leaf of vectors. -/
def receive (vs : List FeatureVector) : NodeContent → NodeContent
  | leaf (.featureVectors old) => leaf (.featureVectors (old ++ vs))
  | content => content

variable (x : NodeContent) (vs ws : List FeatureVector)

theorem receive_vectors (old : List FeatureVector) :
    (leaf (.featureVectors old)).receive vs = leaf (.featureVectors (old ++ vs)) := rfl

/-- Only leaves of vectors receive any. -/
theorem receive_cases :
    (∃ old, x = leaf (.featureVectors old)) ∨ ∀ vs : List FeatureVector, x.receive vs = x := by
  cases x with
  | decision d => exact .inr fun _ => rfl
  | graph g => exact .inr fun _ => rfl
  | leaf p =>
    cases p with
    | featureVectors old => exact .inl ⟨old, rfl⟩
    | _ => exact .inr fun _ => rfl

theorem receive_nil : x.receive [] = x := by
  rcases x.receive_cases with ⟨old, rfl⟩ | h
  · rw [receive_vectors, List.append_nil]
  · exact h []

theorem receive_receive : (x.receive vs).receive ws = x.receive (vs ++ ws) := by
  rcases x.receive_cases with ⟨old, rfl⟩ | h
  · rw [receive_vectors, receive_vectors, receive_vectors, List.append_assoc]
  · rw [h vs, h ws, h (vs ++ ws)]

theorem receive_eq_decision_iff {d : Decision} : x.receive vs = decision d ↔ x = decision d := by
  rcases x.receive_cases with ⟨old, rfl⟩ | h
  · simp [receive_vectors]
  · rw [h vs]

theorem receive_eq_graph_iff {g : GraphNode} : x.receive vs = graph g ↔ x = graph g := by
  rcases x.receive_cases with ⟨old, rfl⟩ | h
  · simp [receive_vectors]
  · rw [h vs]

theorem children_receive : (x.receive vs).children = x.children := by
  rcases x.receive_cases with ⟨old, rfl⟩ | h
  · rfl
  · rw [h vs]

end NodeContent

theorem Indexer.appendTo_eq (v : FeatureVector) (n : Node) :
    appendTo v n = { n with content := n.content.receive [v] } := by
  rw [appendTo.eq_def]
  split
  · next old h => rw [h, NodeContent.receive_vectors]
  · next h =>
    rcases n.content.receive_cases with ⟨old, hold⟩ | hsame
    · exact absurd hold (h old)
    · rw [hsame]

/-! ### Arenas with the same ways down -/

namespace Indexer

open Arena

/-- Two arenas with the same ways down: their nodes differ at most in what leaves hold. -/
structure SameWays (a b : Arena) : Prop where
  root : b.root = a.root
  size : b.size = a.size
  childIds : ∀ u, b.childIds u = a.childIds u
  decisions : ∀ u d, b.content? u = some (.decision d) → a.content? u = some (.decision d)

theorem SameWays.trans {a b c : Arena} (h : SameWays a b) (h' : SameWays b c) : SameWays a c where
  root := h'.root.trans h.root
  size := h'.size.trans h.size
  childIds := fun u => (h'.childIds u).trans (h.childIds u)
  decisions := fun u d hd => h.decisions u d (h'.decisions u d hd)

theorem SameWays.holds_eq {a b : Arena} (h : SameWays a b) : b.Holds = a.Holds := by
  funext p c
  rw [Holds, Holds, h.childIds]

theorem SameWays.passable {a b : Arena} {v : FeatureVector} (h : SameWays a b)
    (ha : a.Passable v) : b.Passable v := by
  have hholds := h.holds_eq
  refine { child_lt := ?_, acyclic := ?_, slot := fun u d hd => ha.slot u d (h.decisions u d hd) }
  · rw [hholds, h.size]
    exact ha.child_lt
  · rw [hholds]
    exact ha.acyclic

end Indexer

namespace Arena

/-- The arena with vectors at the end of the leaves of vectors. -/
def filled (a : Arena) (arrivals : NodeId → List FeatureVector) : Arena :=
  { a with
    nodes := a.nodes.mapIdx fun u n => { n with content := n.content.receive (arrivals u) } }

variable {a : Arena} {f g : NodeId → List FeatureVector} {v : FeatureVector}
  {root u leaf : NodeId}

theorem node?_filled (a : Arena) (f : NodeId → List FeatureVector) (u : NodeId) :
    (a.filled f).node? u = (a.node? u).map fun n => { n with content := n.content.receive (f u) } :=
  Array.getElem?_mapIdx

theorem content?_filled (a : Arena) (f : NodeId → List FeatureVector) (u : NodeId) :
    (a.filled f).content? u = (a.content? u).map (·.receive (f u)) := by
  rw [content?, content?, node?_filled, Option.map_map, Option.map_map]
  rfl

theorem content?_filled_decision_iff {d : Decision} :
    (a.filled f).content? u = some (.decision d) ↔ a.content? u = some (.decision d) := by
  rw [content?_filled, Option.map_eq_some_iff]
  simp [NodeContent.receive_eq_decision_iff]

theorem childIds_filled (a : Arena) (f : NodeId → List FeatureVector) (u : NodeId) :
    (a.filled f).childIds u = a.childIds u := by
  rw [childIds.eq_def, childIds.eq_def a, node?_filled]
  cases a.node? u with
  | none => rfl
  | some n => exact congrArg (List.filterMap id) (n.content.children_receive (f u))

theorem sameWays_filled (a : Arena) (f : NodeId → List FeatureVector) :
    Indexer.SameWays a (a.filled f) where
  root := rfl
  size := Array.size_mapIdx
  childIds := a.childIds_filled f
  decisions := fun _ _ => content?_filled_decision_iff.mp

theorem filled_nil (a : Arena) : (a.filled fun _ => []) = a := by
  have hnodes : (a.filled fun _ => []).nodes = a.nodes := by
    refine Array.ext_getElem? fun u => ?_
    refine (a.node?_filled _ u).trans ?_
    simp only [NodeContent.receive_nil]
    exact Option.map_id'
  cases a
  exact congrArg (Arena.mk _ · _ _) hnodes

/-- Only leaves of vectors receive any. -/
theorem filled_congr (h : ∀ u vs, a.content? u = some (.leaf (.featureVectors vs)) → f u = g u) :
    a.filled f = a.filled g := by
  refine congrArg (fun nodes => ({ a with nodes } : Arena)) ?_
  refine Array.ext_getElem? fun u => ?_
  rw [Array.getElem?_mapIdx, Array.getElem?_mapIdx]
  refine Option.map_congr fun n hn => ?_
  have hcontent : n.content.receive (f u) = n.content.receive (g u) := by
    rcases n.content.receive_cases with ⟨old, hold⟩ | hsame
    · rw [h u old (content?_eq_some_iff.mpr ⟨n, hn, hold⟩)]
    · rw [hsame, hsame]
  rw [hcontent]

/-- One more vector for one node. -/
theorem filled_modify (a : Arena) (f : NodeId → List FeatureVector) (leaf : NodeId)
    (v : FeatureVector) :
    { a.filled f with nodes := (a.filled f).nodes.modify leaf (Indexer.appendTo v) } =
      a.filled (Function.update f leaf (f leaf ++ [v])) := by
  refine congrArg (fun nodes => ({ a with nodes } : Arena)) ?_
  refine Array.ext_getElem? fun u => ?_
  rw [Array.getElem?_modify, filled, Array.getElem?_mapIdx, Array.getElem?_mapIdx]
  by_cases hu : leaf = u
  · subst hu
    rw [if_pos rfl, Option.map_map, Function.update_self]
    refine Option.map_congr fun n _ => ?_
    simp only [Function.comp, Indexer.appendTo_eq, NodeContent.receive_receive]
  · rw [if_neg hu, Function.update_of_ne (Ne.symm hu)]

theorem content?_filled_graph_iff {gn : GraphNode} :
    (a.filled f).content? u = some (.graph gn) ↔ a.content? u = some (.graph gn) := by
  rw [content?_filled, Option.map_eq_some_iff]
  simp [NodeContent.receive_eq_graph_iff]

/-- A tree stays a tree when its leaves are filled. -/
theorem WellFormed.filled (h : a.WellFormed root) (hgraph : ∀ u g, a.content? u ≠ some (.graph g))
    (f : NodeId → List FeatureVector) : (a.filled f).WellFormed root := by
  have hsize : (a.filled f).size = a.size := (a.sameWays_filled f).size
  have hholds : (a.filled f).Holds = a.Holds := (a.sameWays_filled f).holds_eq
  refine
    { root_lt := hsize ▸ h.root_lt, child_lt := ?_, reached := ?_, acyclic := ?_, unshared := ?_,
      decisions := ?_, graphNodes := ?_ }
  · rw [hholds, hsize]
    exact h.child_lt
  · rw [hsize, Reaches, hholds]
    exact h.reached
  · rw [hholds]
    exact h.acyclic
  · intro u n hn _
    obtain ⟨m, hm⟩ := exists_node?_iff.mpr (hsize ▸ lt_of_node? hn)
    have hone := h.unshared u m hm (isGraphNode_eq_false_iff.mpr fun g hg =>
      hgraph u g (content?_eq_some_iff.mpr ⟨m, hm, hg⟩))
    simpa only [holders, hsize, childIds_filled] using hone
  · intro u n d hn hd
    obtain ⟨m, hm, hmd⟩ := content?_eq_some_iff.mp
      (content?_filled_decision_iff.mp (content?_eq_some_iff.mpr ⟨n, hn, hd⟩))
    exact h.decisions u m d hm hmd
  · intro u n g hn hg
    exact absurd (content?_filled_graph_iff.mp (content?_eq_some_iff.mpr ⟨n, hn, hg⟩)) (hgraph u g)

end Arena

open Arena

theorem Indexer.sameWays_modify (a : Arena) (leaf : NodeId) (v : FeatureVector) :
    SameWays a { a with nodes := a.nodes.modify leaf (appendTo v) } := by
  have hfilled := a.filled_modify (fun _ => []) leaf v
  rw [filled_nil] at hfilled
  rw [hfilled]
  exact sameWays_filled a _

end FeatureTree
