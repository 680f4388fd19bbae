/-
Indexing loses and duplicates no vector.

Vectors that are added to a tree change what its leaves hold, and no way down.  So a vector
is routed as it was through the tree that the indexer was started from, whatever was added
before, and the leaves hold the vectors in the order in which they came.

* `Arena.Route.filled` — routes do not change;
* `Arena.Tallies.eq_vectorsBelow` — a node counts the vectors below it;
* `Indexer.route_filled` — so a vector is routed as the tree routes it;
* `Indexer.Filled` — what is true of an indexer after some vectors;
* `Indexer.Filled.exists_add`, `Indexer.Filled.exists_run` — it stays true over a vector, and
  over any requests;
* `Indexer.exists_freeze_run` — the tree that comes out.
-/
import FeatureTree.Proofs.Tree.Preorder
import FeatureTree.Proofs.Tree.Route

namespace FeatureTree

open Relation

namespace Arena

variable {a : Arena} {f : NodeId → List FeatureVector} {v : FeatureVector} {root u leaf : NodeId}

/-- A vector takes the way it took before. -/
theorem Route.filled {path : List NodeId} (h : a.Route v u path) (f : NodeId → List FeatureVector) :
    (a.filled f).Route v u path := by
  induction h with
  | leaf hu =>
    have hleaf : ∀ p vs, ∃ q, (NodeContent.leaf p).receive vs = .leaf q := by
      intro p vs
      cases p <;> exact ⟨_, rfl⟩
    obtain ⟨q, hq⟩ := hleaf _ _
    refine .leaf (p := q) ?_
    rw [content?_filled, hu, Option.map_some, hq]
  | gap hu hnext => exact .gap (content?_filled_decision_iff.mpr hu) hnext
  | step hu hnext _ ih => exact .step (content?_filled_decision_iff.mpr hu) hnext ih

/-! ### The number of vectors below a node -/

/-- All leaves hold feature vectors. -/
def VectorLeaves (a : Arena) : Prop :=
  ∀ u p, a.content? u = some (.leaf p) → ∃ vs, p = .featureVectors vs

theorem vectorLeaves_iff :
    a.VectorLeaves ↔ ∀ n ∈ a.nodes, n.isLeaf = true → Indexer.holdsVectors n = true := by
  constructor
  · intro h n hn hleaf
    obtain ⟨u, hu, rfl⟩ := Array.mem_iff_getElem.mp hn
    obtain ⟨p, hp⟩ := isLeaf_iff.mp hleaf
    obtain ⟨vs, rfl⟩ := h u p (content?_eq_some_iff.mpr ⟨_, node?_eq_some_iff.mpr ⟨hu, rfl⟩, hp⟩)
    rw [Indexer.holdsVectors, hp]
  · intro h u p hu
    obtain ⟨n, hn, hp⟩ := content?_eq_some_iff.mp hu
    obtain ⟨hlt, rfl⟩ := node?_eq_some_iff.mp hn
    have hholds := h _ (Array.getElem_mem hlt) (isLeaf_iff.mpr ⟨p, hp⟩)
    rw [Indexer.holdsVectors, hp] at hholds
    cases p with
    | featureVectors vs => exact ⟨vs, rfl⟩
    | _ => simp at hholds

instance (a : Arena) : Decidable a.VectorLeaves := decidable_of_iff _ vectorLeaves_iff.symm

theorem VectorLeaves.filled (h : a.VectorLeaves) (f : NodeId → List FeatureVector) :
    (a.filled f).VectorLeaves := by
  intro u p hu
  rw [content?_filled, Option.map_eq_some_iff] at hu
  obtain ⟨x, hx, hp⟩ := hu
  rcases x.receive_cases with ⟨old, rfl⟩ | hsame
  · exact ⟨old ++ f u, (NodeContent.leaf.inj hp).symm⟩
  · exact h u p (hx.trans (congrArg some ((hsame _).symm.trans hp)))

/-- The vectors that a node holds. -/
def vectors (a : Arena) (u : NodeId) : List FeatureVector :=
  match a.content? u with
  | some (.leaf (.featureVectors vs)) => vs
  | _ => []

/-- The number of vectors of all nodes together. -/
def vectorCount (a : Arena) : Nat := ∑ w ∈ Finset.range a.size, (a.vectors w).length

open scoped Classical in
/-- The number of vectors at a node and below it. -/
noncomputable def vectorsBelow (a : Arena) (u : NodeId) : Nat :=
  ∑ w ∈ (Finset.range a.size).filter (a.Reaches u), (a.vectors w).length

theorem vectors_of_content? {vs : List FeatureVector}
    (h : a.content? u = some (.leaf (.featureVectors vs))) : a.vectors u = vs := by
  rw [vectors, h]

theorem vectorCount_eq_of_content {b : Arena} (h : ∀ u, b.content? u = a.content? u) :
    b.vectorCount = a.vectorCount := by
  rw [vectorCount, vectorCount, size_eq_of_content h]
  refine Finset.sum_congr rfl fun u _ => ?_
  rw [vectors, vectors, h u]

/-- All nodes are below the root. -/
theorem WellFormed.vectorsBelow_root (h : a.WellFormed root) :
    a.vectorsBelow root = a.vectorCount := by
  classical
  rw [vectorsBelow, vectorCount, Finset.filter_true_of_mem]
  exact fun w hw => h.reached w (Finset.mem_range.mp hw)

theorem length_vectors (h : a.VectorLeaves) (u : NodeId) : (a.vectors u).length = a.ownCount u := by
  rw [vectors, ownCount]
  cases hu : a.content? u with
  | none => rfl
  | some x =>
    cases x with
    | decision d => rfl
    | graph g => rfl
    | leaf p =>
      obtain ⟨vs, rfl⟩ := h u p hu
      rfl

/-- A node of a tree counts the vectors below it. -/
theorem Tallies.eq_vectorsBelow {count : NodeId → Nat} (h : a.Tallies count)
    (w : a.WellFormed root) (hgraph : ∀ u g, a.content? u ≠ some (.graph g))
    (hleaves : a.VectorLeaves) (hone : ∀ u, a.holders u ≤ 1) (hu : u < a.size) :
    count u = a.vectorsBelow u := by
  classical
  have hbelow : (Finset.range a.size).filter (a.Reaches u) = (a.walk a.size u).toFinset := by
    ext x
    rw [Finset.mem_filter, Finset.mem_range, List.mem_toFinset]
    constructor
    · exact fun hx => mem_walk_of_reaches w.acyclic w.child_lt hu hx.2
    · intro hx
      have hreach := reaches_of_mem_walk hx
      exact ⟨lt_of_reaches w.child_lt hu hreach, hreach⟩
  have hown : a.ownCount = fun x => (a.vectors x).length :=
    funext fun x => (length_vectors hleaves x).symm
  rw [h.eq_sum_walk w hgraph hu (a.rank_le_size u), vectorsBelow, hbelow, hown]
  exact (List.sum_toFinset _ (nodup_walk w.acyclic hone a.size u)).symm

theorem vectors_filled {vs : List FeatureVector}
    (h : a.content? u = some (.leaf (.featureVectors vs))) :
    (a.filled f).vectors u = vs ++ f u := by
  refine vectors_of_content? ?_
  rw [content?_filled, h]
  rfl

/-- One more vector for a leaf is one more vector in all. -/
theorem vectorCount_filled_update {vs : List FeatureVector} {v : FeatureVector}
    (hleaf : a.content? leaf = some (.leaf (.featureVectors vs))) :
    (a.filled (Function.update f leaf (f leaf ++ [v]))).vectorCount =
      (a.filled f).vectorCount + 1 := by
  have hother : ∀ x, x ≠ leaf →
      (a.filled (Function.update f leaf (f leaf ++ [v]))).vectors x = (a.filled f).vectors x := by
    intro x hx
    rw [vectors, vectors, content?_filled, content?_filled, Function.update_of_ne hx]
  have hmem : leaf ∈ Finset.range a.size := Finset.mem_range.mpr (lt_size_of_content? hleaf)
  rw [vectorCount, vectorCount, (a.sameWays_filled _).size, (a.sameWays_filled _).size,
    ← Finset.add_sum_erase _ _ hmem, ← Finset.add_sum_erase _ _ hmem, vectors_filled hleaf,
    vectors_filled hleaf, Function.update_self,
    Finset.sum_congr rfl fun x hx => congrArg List.length (hother x (Finset.ne_of_mem_erase hx))]
  simp only [List.length_append, List.length_singleton]
  omega

end Arena

open Arena

/-! ### What is true of an indexer -/

/-- The vectors of a list that the tree takes to a node. -/
def Cart.arrivals (t : Cart) (passed : List FeatureVector) (u : NodeId) : List FeatureVector :=
  passed.filter fun v => t.nodeFor v 0 = .ok (some u)

namespace Indexer

/-- A call that hands vectors to an indexer. -/
inductive Request where
  | add (v : FeatureVector)
  | fill (vs : List FeatureVector)

/-- The vectors of a call. -/
def Request.vectors : Request → List FeatureVector
  | add v => [v]
  | fill vs => vs

/-- The indexer after a call. -/
def serve (x : Indexer) : Request → Except Fault Indexer
  | .add v => do return (← x.add v).1
  | .fill vs => do return (← x.fill vs).1

/-- The indexer after several calls. -/
def run (x : Indexer) (requests : List Request) : Except Fault Indexer := requests.foldlM serve x

/-- An indexer after these vectors: its leaves have received those that the tree took to
them, every vector is counted, and those that are counted as placed are there. -/
structure Filled (t : Cart) (passed : List FeatureVector) (x : Indexer) : Prop where
  arena : x.arena = t.arena.filled (t.arrivals passed)
  counted : x.placed + x.dropped = passed.length
  placed : x.arena.vectorCount = t.arena.vectorCount + x.placed

variable {t : Cart} {passed : List FeatureVector} {x : Indexer} {v : FeatureVector}
  {u w : NodeId} {root : NodeId}

theorem ofCart?_eq_ok (hleaves : t.arena.VectorLeaves) : ofCart? t = .ok ⟨t.arena, 0, 0⟩ := by
  have hfind : ((t.arena.select t.arena.root .leavesOnly).nodes.find? fun p =>
      !holdsVectors p.2) = none := by
    rw [List.find?_eq_none]
    intro p hp
    obtain ⟨hmem, hleaf⟩ := List.mem_filter.mp hp
    obtain ⟨hlt, hn⟩ := node?_eq_some_iff.mp (node?_of_mem_preorder hmem)
    have hholds := vectorLeaves_iff.mp hleaves p.2 (hn ▸ Array.getElem_mem hlt) (by
      simpa [NodeFilter.accepts, NodeFilter.leavesOnly] using hleaf)
    simp [hholds]
  rw [ofCart?]
  simp only [hfind]

theorem filled_start (t : Cart) : Filled t [] ⟨t.arena, 0, 0⟩ where
  arena := t.arena.filled_nil.symm
  counted := rfl
  placed := rfl

theorem add_of_route_none (h : x.route v = .ok none) :
    x.add v = .ok ({ x with dropped := x.dropped + 1 }, none) := by
  rw [add, h]
  rfl

theorem add_of_route_some {leaf : NodeId} (h : x.route v = .ok (some leaf))
    (hleaf : x.arena.nodeIs holdsVectors leaf = true) :
    x.add v = .ok (⟨{ x.arena with nodes := x.arena.nodes.modify leaf (appendTo v) },
      x.placed + 1, x.dropped⟩, some leaf) := by
  rw [add, h]
  simp only [bind, Except.bind, hleaf, if_true]
  rfl

theorem arrivals_of_none (h : t.nodeFor v 0 = .ok none) (passed : List FeatureVector) :
    t.arrivals (passed ++ [v]) = t.arrivals passed := by
  funext u
  rw [Cart.arrivals, List.filter_append, List.filter_cons_of_neg (by simp [h]), List.filter_nil,
    List.append_nil]
  rfl

theorem arrivals_of_some (h : t.nodeFor v 0 = .ok (some w)) (passed : List FeatureVector) :
    t.arrivals (passed ++ [v]) =
      Function.update (t.arrivals passed) w (t.arrivals passed w ++ [v]) := by
  funext u
  rw [Cart.arrivals, List.filter_append]
  by_cases hu : u = w
  · subst hu
    rw [Function.update_self, List.filter_cons_of_pos (by simp [h])]
    rfl
  · rw [Function.update_of_ne hu, List.filter_cons_of_neg (by simp [h, Ne.symm hu]),
      List.filter_nil, List.append_nil]
    rfl

/-- A vector takes the way through filled leaves that it takes through the tree. -/
theorem route_filled {f : NodeId → List FeatureVector} (harena : x.arena = t.arena.filled f)
    (hroot : t.arena.root = some root) (hv : t.arena.schema.Fits v) :
    ∃ w, w < t.arena.size ∧ t.nodeFor v 0 = .ok (some w) ∧
      x.route v = .ok (if x.arena.nodeIs Node.isLeaf w then some w else none) := by
  obtain ⟨path, hpath, hlength⟩ := t.exists_route hroot hv
  have hend := Cart.nodeFor_zero hroot hpath hlength
  obtain ⟨rest, rfl⟩ := hpath.exists_cons
  rw [List.getLast?_cons] at hend
  refine ⟨_, ?_, hend, ?_⟩
  · have wt := t.wellFormed hroot
    exact lt_of_reaches wt.child_lt wt.root_lt
      (hpath.reaches_of_mem (List.mem_of_getLast? List.getLast?_cons))
  · have hways := t.arena.sameWays_filled f
    have hpath' : x.arena.Route v root (root :: rest) := harena ▸ hpath.filled _
    rw [route, harena, hways.root, hroot, ← harena]
    refine hpath'.routeLoop_eq List.getLast?_cons ?_
    rwa [harena, hways.size]

/-- No vector finds a way through an empty tree. -/
theorem route_filled_empty {f : NodeId → List FeatureVector}
    (harena : x.arena = t.arena.filled f) (hroot : t.arena.root = none) :
    t.nodeFor v 0 = .ok none ∧ x.route v = .ok none := by
  constructor
  · rw [Cart.nodeFor, hroot]
  · rw [route, harena, (t.arena.sameWays_filled f).root, hroot]

namespace Filled

/-- The vector is added at the end of the leaf that the tree takes it to, or dropped if the
tree takes it to no leaf. -/
theorem exists_add (h : Filled t passed x) (hleaves : t.arena.VectorLeaves)
    (hv : t.arena.schema.Fits v) :
    ∃ x' leaf, x.add v = .ok (x', leaf) ∧ Filled t (passed ++ [v]) x' := by
  have hcounted := h.counted
  have hplaced := h.placed
  cases hroot : t.arena.root with
  | none =>
    obtain ⟨hnode, hroute⟩ := route_filled_empty (v := v) h.arena hroot
    refine ⟨_, none, add_of_route_none hroute, ?_, ?_, hplaced⟩
    · rw [arrivals_of_none hnode]
      exact h.arena
    · rw [List.length_append, List.length_singleton, ← hcounted]
      exact (Nat.add_assoc ..).symm
  | some root =>
    obtain ⟨w, hw, hnode, hroute⟩ := route_filled h.arena hroot hv
    obtain ⟨content, hcontent⟩ := exists_content? hw
    cases content with
    | graph g => exact absurd hcontent (t.content?_ne_graph w g)
    | decision d =>
      -- the way ends at an empty slot
      have hfilled : x.arena.content? w = some (.decision d) :=
        h.arena ▸ content?_filled_decision_iff.mpr hcontent
      rw [if_neg (by simp [nodeIs_isLeaf_iff, hfilled])] at hroute
      refine ⟨_, none, add_of_route_none hroute, ?_, ?_, hplaced⟩
      · rw [arrivals_of_some hnode]
        refine h.arena.trans (filled_congr fun u vs hu => ?_)
        have hne : u ≠ w := by
          rintro rfl
          simp [hcontent] at hu
        rw [Function.update_of_ne hne]
      · rw [List.length_append, List.length_singleton, ← hcounted]
        exact (Nat.add_assoc ..).symm
    | leaf p =>
      obtain ⟨vs, rfl⟩ := hleaves w p hcontent
      have hfilled : x.arena.content? w =
          some (.leaf (.featureVectors (vs ++ t.arrivals passed w))) := by
        rw [h.arena, content?_filled, hcontent]
        rfl
      obtain ⟨n, hn, hp⟩ := content?_eq_some_iff.mp hfilled
      have hholds : x.arena.nodeIs holdsVectors w = true :=
        nodeIs_iff.mpr ⟨n, hn, by simp [holdsVectors, hp]⟩
      rw [if_pos (nodeIs_isLeaf_iff.mpr ⟨_, hfilled⟩)] at hroute
      refine ⟨_, some w, add_of_route_some hroute hholds, ?_, ?_, ?_⟩
      · rw [arrivals_of_some hnode, ← filled_modify, h.arena]
      · rw [List.length_append, List.length_singleton]
        show x.placed + 1 + x.dropped = _
        omega
      · show Arena.vectorCount _ = _ + (x.placed + 1)
        rw [h.arena, filled_modify, vectorCount_filled_update hcontent, ← h.arena, hplaced]
        omega

theorem exists_fill (hleaves : t.arena.VectorLeaves) {vs : List FeatureVector}
    (hvs : ∀ v ∈ vs, t.arena.schema.Fits v) (h : Filled t passed x) :
    ∃ x' found, x.fill vs = .ok (x', found) ∧ Filled t (passed ++ vs) x' := by
  induction vs generalizing passed x with
  | nil => exact ⟨x, 0, rfl, by rwa [List.append_nil]⟩
  | cons v vs ih =>
    obtain ⟨x₁, leaf, hadd, h₁⟩ := h.exists_add hleaves (hvs v List.mem_cons_self)
    obtain ⟨x₂, found, hfill, h₂⟩ := ih (fun v hv => hvs v (List.mem_cons_of_mem _ hv)) h₁
    refine ⟨x₂, found + if leaf.isSome then 1 else 0, ?_, ?_⟩
    · rw [fill, hadd]
      simp only [bind, Except.bind, hfill]
      rfl
    · rwa [List.append_assoc] at h₂

theorem exists_serve (hleaves : t.arena.VectorLeaves) {request : Request}
    (hvs : ∀ v ∈ request.vectors, t.arena.schema.Fits v) (h : Filled t passed x) :
    ∃ x', x.serve request = .ok x' ∧ Filled t (passed ++ request.vectors) x' := by
  cases request with
  | add v =>
    obtain ⟨x', leaf, hadd, h'⟩ := h.exists_add hleaves (hvs v (List.mem_singleton_self v))
    refine ⟨x', ?_, h'⟩
    rw [serve, hadd]
    rfl
  | fill vs =>
    obtain ⟨x', found, hfill, h'⟩ := h.exists_fill hleaves hvs
    refine ⟨x', ?_, h'⟩
    show (x.fill vs).bind _ = _
    rw [show x.fill vs = _ from hfill]
    rfl

theorem exists_run (hleaves : t.arena.VectorLeaves) {requests : List Request}
    (hvs : ∀ v ∈ requests.flatMap Request.vectors, t.arena.schema.Fits v)
    (h : Filled t passed x) :
    ∃ x', x.run requests = .ok x' ∧ Filled t (passed ++ requests.flatMap Request.vectors) x' := by
  induction requests generalizing passed x with
  | nil => exact ⟨x, rfl, by rwa [List.flatMap_nil, List.append_nil]⟩
  | cons request requests ih =>
    rw [List.flatMap_cons] at hvs ⊢
    obtain ⟨x₁, hserve, h₁⟩ :=
      h.exists_serve hleaves fun v hv => hvs v (List.mem_append_left _ hv)
    obtain ⟨x₂, hrun, h₂⟩ := ih (fun v hv => hvs v (List.mem_append_right _ hv)) h₁
    refine ⟨x₂, ?_, by rwa [List.append_assoc] at h₂⟩
    rw [run, List.foldlM_cons, hserve]
    exact hrun

/-- Freezing succeeds, with the leaves as they were filled. -/
theorem exists_freeze (h : Filled t passed x) :
    ∃ t' count, x.freeze = .ok t' ∧
      t'.arena = (t.arena.filled (t.arrivals passed)).recount count := by
  have hways := t.arena.sameWays_filled (t.arrivals passed)
  have hbuilder : ∃ t', Cart.ofBuilder? (Builder.ofArena x.arena) = .ok t' := by
    rw [h.arena]
    cases hroot : t.arena.root with
    | none =>
      exact Cart.exists_ofBuilder?_of_empty (hways.size.trans (t.size_eq_zero hroot))
        (hways.root.trans hroot)
    | some root =>
      refine Cart.exists_ofBuilder? (hways.root.trans hroot)
        ((t.wellFormed hroot).filled t.content?_ne_graph _) fun u g hg => ?_
      exact t.content?_ne_graph u g (content?_filled_graph_iff.mp hg)
  obtain ⟨t', ht'⟩ := hbuilder
  obtain ⟨count, harena⟩ := Cart.arena_of_ofBuilder? ht'
  exact ⟨t', count, ht', h.arena ▸ harena⟩

end Filled

end Indexer

/-- The counts of a tree of vectors are the numbers of vectors below its nodes. -/
theorem Cart.dataCount_eq_vectorsBelow (t : Cart) (hleaves : t.arena.VectorLeaves) {u : NodeId}
    (hu : u < t.arena.size) : t.arena.dataCount u = t.arena.vectorsBelow u := by
  obtain ⟨n, hn⟩ := exists_node?_iff.mpr hu
  obtain ⟨root, hroot⟩ := t.exists_root hn
  exact t.graph.tallies.eq_vectorsBelow (t.wellFormed hroot) t.content?_ne_graph hleaves
    (t.holders_le_one hroot) hu

namespace Indexer

/-- Indexing loses and duplicates no vector.  Into a tree whose leaves hold feature vectors
any vectors of its schema can be put, by any calls, and each is counted either as placed or
as dropped.  Freezing gives the tree back with the same nodes, links and tests.  Each leaf
holds what it held and then the vectors that the tree takes to it, in the order in which they
came; and each node counts the vectors below it, so that the root counts as many more as were
placed. -/
theorem exists_freeze_run (t : Cart) (hleaves : t.arena.VectorLeaves) (requests : List Request)
    (hvs : ∀ v ∈ requests.flatMap Request.vectors, t.arena.schema.Fits v) :
    ∃ x₀ x t', ofCart? t = .ok x₀ ∧ x₀.run requests = .ok x ∧
      x.placed + x.dropped = (requests.flatMap Request.vectors).length ∧
      x.freeze = .ok t' ∧
      t'.arena.schema = t.arena.schema ∧ t'.arena.properties = t.arena.properties ∧
      t'.arena.root = t.arena.root ∧ t'.arena.size = t.arena.size ∧
      (∀ u n, t.arena.node? u = some n → t'.arena.node? u = some { n with
        content := n.content.receive (t.arrivals (requests.flatMap Request.vectors) u)
        count := t'.arena.vectorsBelow u }) ∧
      ∀ root, t.arena.root = some root →
        t'.arena.dataCount root = t.arena.dataCount root + x.placed := by
  obtain ⟨x, hrun, h⟩ := (filled_start t).exists_run hleaves hvs
  rw [List.nil_append] at h
  obtain ⟨t', count, hfreeze, harena⟩ := h.exists_freeze
  have hcontent : ∀ u, t'.arena.content? u = x.arena.content? u := by
    rw [harena, h.arena]
    exact Arena.content?_recount _ count
  have hsize : t'.arena.size = t.arena.size := by
    rw [Arena.size_eq_of_content hcontent, h.arena]
    exact (t.arena.sameWays_filled _).size
  have hroot : t'.arena.root = t.arena.root := by
    rw [harena]
    rfl
  have hleaves' : t'.arena.VectorLeaves := by
    intro u p hu
    rw [hcontent, h.arena] at hu
    exact hleaves.filled _ u p hu
  refine ⟨_, x, t', ofCart?_eq_ok hleaves, hrun, h.counted, hfreeze, ?_, ?_, hroot, hsize, ?_, ?_⟩
  · rw [harena]
    rfl
  · rw [harena]
    rfl
  · intro u n hn
    have hnode : t'.arena.node? u = some { n with
        content := n.content.receive (t.arrivals (requests.flatMap Request.vectors) u)
        count := count u } := by
      rw [harena, node?_recount, node?_filled, hn]
      rfl
    have hcount := t'.dataCount_eq_vectorsBelow hleaves' (lt_of_node? hnode)
    rw [dataCount_of_node? hnode] at hcount
    rw [hnode, ← hcount]
  · intro root hroot₀
    have hvectors : t'.arena.vectorCount = x.arena.vectorCount :=
      vectorCount_eq_of_content hcontent
    have w := t.wellFormed hroot₀
    have w' := t'.wellFormed (hroot.trans hroot₀)
    rw [t'.dataCount_eq_vectorsBelow hleaves' w'.root_lt, w'.vectorsBelow_root, hvectors,
      h.placed, t.dataCount_eq_vectorsBelow hleaves w.root_lt, w.vectorsBelow_root]

/-- A numbered vector of the sample schema. -/
def sampleVector (unit : UInt32) (phone : UInt8) (dur : Int) : FeatureVector :=
  ⟨unit, #[phone], #[0], #[Floating.ofInt dur]⟩

/-- Four vectors, the second of which ends at an empty slot. -/
def sampleRequests : List Request :=
  [.add (sampleVector 1 0 0), .fill [sampleVector 2 2 0, sampleVector 3 0 0],
    .add (sampleVector 4 0 1)]

/-- The first leaf holds the first and the third vector, and all but the second one are
counted as placed and at the root. -/
theorem exists_freeze_run_sample :
    ∃ t x₀ x t', Sample.vectorTree = .ok t ∧ t.arena.VectorLeaves ∧ ofCart? t = .ok x₀ ∧
      x₀.run sampleRequests = .ok x ∧ x.placed + x.dropped = 4 ∧ x.freeze = .ok t' ∧
      t'.arena.content? 3 =
        some (.leaf (.featureVectors [sampleVector 1 0 0, sampleVector 3 0 0])) ∧
      t'.arena.dataCount 0 = 0 + x.placed := by
  have hsample : (Sample.vectorTree.toOption.any fun t =>
      decide t.arena.VectorLeaves && t.arena.root == some 0 && t.arena.dataCount 0 == 0 &&
        (sampleRequests.flatMap Request.vectors).all (decide <| t.arena.schema.Fits ·) &&
        t.arena.content? 3 == some (.leaf (.featureVectors [])) &&
        t.arrivals (sampleRequests.flatMap Request.vectors) 3 ==
          [sampleVector 1 0 0, sampleVector 3 0 0]) = true := by
    decide +kernel
  cases ht : Sample.vectorTree with
  | error e => simp [ht, Except.toOption] at hsample
  | ok t =>
    simp only [ht, Except.toOption, Option.any_some, Bool.and_eq_true, decide_eq_true_eq,
      List.all_eq_true, beq_iff_eq] at hsample
    obtain ⟨⟨⟨⟨⟨hleaves, hroot⟩, hzero⟩, hvs⟩, hcontent⟩, harrivals⟩ := hsample
    obtain ⟨x₀, x, t', hstart, hrun, hcounted, hfreeze, -, -, -, -, hnodes, hcount⟩ :=
      exists_freeze_run t hleaves sampleRequests hvs
    refine ⟨t, x₀, x, t', rfl, hleaves, hstart, hrun, hcounted, hfreeze, ?_, ?_⟩
    · obtain ⟨n, hn, hp⟩ := content?_eq_some_iff.mp hcontent
      refine content?_eq_some_iff.mpr ⟨_, hnodes 3 n hn, ?_⟩
      simp only [hp, harrivals, NodeContent.receive_vectors, List.nil_append]
    · have hroot' := hcount 0 hroot
      rwa [hzero] at hroot'

end Indexer

end FeatureTree
