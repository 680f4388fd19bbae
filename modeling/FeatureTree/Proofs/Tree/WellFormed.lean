/-
Well-formed graphs, said without the search that recognizes them.

A node holds another one if one of its child slots does.  An arena is
`WellFormed` over a root if every node is reached from the root through held
nodes, nothing lies below itself, only graph nodes are held twice, and every
node suits its content.

* `Arena.Holds`, `Arena.Reaches`, `Arena.holders` — the child edges and their
  number;
* `Decision.Suits`, `Arena.GraphSuits` — what a decision and a graph node need;
* `Arena.WellFormed` — the whole condition, and `Arena.Shaped` — as far as it is about edges;
* `Arena.rank_lt_of_holds` — the number of nodes below a node falls along every
  edge, which bounds every way down by the number of nodes;
* `Arena.induct_below` — induction on the nodes below a node.
-/
import FeatureTree.Tree.Freeze
import Mathlib.Algebra.BigOperators.Fin
import Mathlib.Algebra.BigOperators.Group.Finset.Basic
import Mathlib.Algebra.GroupWithZero.Nat
import Mathlib.Algebra.Order.BigOperators.Group.Finset
import Mathlib.Data.Finset.Card
import Mathlib.Logic.Relation

namespace FeatureTree

open Relation

/-- A decision tests a feature of the schema, of the kind its test needs, and
has one slot for every outcome. -/
def Decision.Suits (s : Schema) (d : Decision) : Prop :=
  ∃ m, s.get? d.feature = some m ∧ (∀ kind, d.test.neededKind? = some kind → m.kind = kind) ∧
    d.children.size = if d.test.isBinary then 2 else m.values.size

namespace Arena

variable (a : Arena)

/-- The first node holds the second one in a child slot. -/
def Holds (p c : NodeId) : Prop := c ∈ a.childIds p

/-- The second node is met on some way down from the first one. -/
def Reaches : NodeId → NodeId → Prop := ReflTransGen a.Holds

/-- Number of child slots, of all nodes together, that hold a node. -/
def holders (c : NodeId) : Nat := ∑ p ∈ Finset.range a.size, (a.childIds p).count c

/-- The default of a graph node is a leaf, and its specific part a decision or
another graph node. -/
def GraphSuits (g : GraphNode) : Prop :=
  (∀ leaf, g.leaf = some leaf → ∃ n, a.node? leaf = some n ∧ n.isLeaf) ∧
  ∀ decision, g.decision = some decision →
    ∃ n, a.node? decision = some n ∧ (n.isDecision ∨ n.isGraphNode)

/-- Nothing but graph nodes is shared, all is reached from the root and nothing
lies below itself, and the contents suit the schema and one another. -/
structure WellFormed (root : NodeId) : Prop where
  root_lt : root < a.size
  child_lt : ∀ p c, a.Holds p c → c < a.size
  reached : ∀ id < a.size, a.Reaches root id
  acyclic : ∀ id, ¬ TransGen a.Holds id id
  unshared : ∀ id n, a.node? id = some n → n.isGraphNode = false → a.holders id ≤ 1
  decisions : ∀ id n d, a.node? id = some n → n.content = .decision d → d.Suits a.schema
  graphNodes : ∀ id n g, a.node? id = some n → n.content = .graph g → a.GraphSuits g

/-- The part of the condition that is about the edges alone. -/
structure Shaped (root : NodeId) : Prop where
  root_lt : root < a.size
  child_lt : ∀ p c, a.Holds p c → c < a.size
  reached : ∀ id < a.size, a.Reaches root id
  acyclic : ∀ id, ¬ TransGen a.Holds id id
  unshared : ∀ id n, a.node? id = some n → n.isGraphNode = false → a.holders id ≤ 1

variable {a} {root p q c : NodeId}

theorem childIds_of_node? {id : NodeId} {n : Node} (h : a.node? id = some n) :
    a.childIds id = n.childIds := by
  rw [childIds, h]

theorem node?_eq_some_iff {id : NodeId} {n : Node} :
    a.node? id = some n ↔ ∃ h : id < a.size, a.nodes[id] = n :=
  Array.getElem?_eq_some_iff

theorem exists_node?_iff {id : NodeId} : (∃ n, a.node? id = some n) ↔ id < a.size := by
  constructor
  · rintro ⟨n, hn⟩
    exact (node?_eq_some_iff.mp hn).1
  · intro h
    exact ⟨_, node?_eq_some_iff.mpr ⟨h, rfl⟩⟩

theorem lt_of_node? {id : NodeId} {n : Node} (h : a.node? id = some n) : id < a.size :=
  exists_node?_iff.mp ⟨n, h⟩

theorem lt_of_holds (h : a.Holds p c) : p < a.size := by
  by_contra hp
  have hn : a.node? p = none := Array.getElem?_eq_none (Nat.le_of_not_lt hp)
  simp [Holds, childIds, hn] at h

theorem count_le_holders (p c : NodeId) : (a.childIds p).count c ≤ a.holders c := by
  by_cases hp : p < a.size
  · exact Finset.single_le_sum (f := fun p => (a.childIds p).count c)
      (fun _ _ => Nat.zero_le _) (Finset.mem_range.mpr hp)
  · have hn : a.node? p = none := Array.getElem?_eq_none (Nat.le_of_not_lt hp)
    simp [childIds, hn]

/-- A sum over the nodes is a sum over their numbers. -/
theorem sum_map_childIds (a : Arena) (f : List NodeId → Nat) :
    (a.nodes.toList.map fun n => f n.childIds).sum =
      ∑ p ∈ Finset.range a.size, f (a.childIds p) := by
  rw [Finset.sum_range, ← Fin.sum_univ_getElem]
  refine Fintype.sum_equiv (finCongr (by simp [size])) _ _ fun i => ?_
  have hi : (i : Nat) < a.size := by simpa [size] using i.isLt
  have hn : a.node? i = some a.nodes[(i : Nat)] := node?_eq_some_iff.mpr ⟨hi, rfl⟩
  show _ = f (a.childIds i)
  rw [childIds_of_node? hn]
  simp
  rfl

/-- A node that at most one slot holds has at most one parent. -/
theorem eq_of_holders_le_one (h : a.holders c ≤ 1) (hp : a.Holds p c) (hq : a.Holds q c) :
    p = q := by
  by_contra hne
  have hsum : (a.childIds p).count c + (a.childIds q).count c ≤ a.holders c := by
    have hsub : ({p, q} : Finset NodeId) ⊆ Finset.range a.size := by
      intro x hx
      rcases Finset.mem_insert.mp hx with rfl | hx
      · exact Finset.mem_range.mpr (lt_of_holds hp)
      · rw [Finset.mem_singleton.mp hx]
        exact Finset.mem_range.mpr (lt_of_holds hq)
    rw [← Finset.sum_pair (f := fun p => (a.childIds p).count c) hne]
    exact Finset.sum_le_sum_of_subset hsub
  have h1 : 0 < (a.childIds p).count c := List.count_pos_iff.mpr hp
  have h2 : 0 < (a.childIds q).count c := List.count_pos_iff.mpr hq
  omega

namespace Shaped

variable (w : a.Shaped root)
include w

/-- No slot holds the root. -/
theorem not_holds_root (p : NodeId) : ¬ a.Holds p root := by
  intro h
  exact w.acyclic root (TransGen.tail' (w.reached p (lt_of_holds h)) h)

/-- What lies below a child of a node is not that node. -/
theorem not_reaches_of_holds (h : a.Holds p c) : ¬ a.Reaches c p := by
  intro hr
  exact w.acyclic p (TransGen.head' h hr)

/-- A node below another one's child is no later child of that one, unless it is
a graph node: the way to it would come back to the parent. -/
theorem not_reaches_sibling {n : Node} {before after : List NodeId} {d : NodeId}
    (hp : a.childIds p = before ++ c :: after) (hd : d ∈ after)
    (hn : a.node? d = some n) (hg : n.isGraphNode = false) : ¬ a.Reaches c d := by
  have hone : a.holders d ≤ 1 := w.unshared d n hn hg
  have hpd : a.Holds p d := by
    rw [Holds, hp]
    exact List.mem_append_right _ (List.mem_cons_of_mem _ hd)
  have hpc : a.Holds p c := by
    rw [Holds, hp]
    exact List.mem_append_right _ List.mem_cons_self
  intro hr
  rcases hr.cases_tail with rfl | ⟨q, hcq, hqd⟩
  · -- the same child twice in one node
    have hcount := count_le_holders (a := a) p d
    rw [hp, List.count_append, List.count_cons_self] at hcount
    have := List.count_pos_iff.mpr hd
    omega
  · rw [eq_of_holders_le_one hone hqd hpd] at hcq
    exact w.not_reaches_of_holds hpc hcq

end Shaped

namespace WellFormed

variable (w : a.WellFormed root)
include w

theorem shaped : a.Shaped root := ⟨w.root_lt, w.child_lt, w.reached, w.acyclic, w.unshared⟩

theorem not_holds_root (p : NodeId) : ¬ a.Holds p root := w.shaped.not_holds_root p

end WellFormed

/-! ### The number of nodes below a node -/

open scoped Classical in
/-- Number of nodes that a node reaches. -/
noncomputable def rank (a : Arena) (id : NodeId) : Nat :=
  ((Finset.range a.size).filter (a.Reaches id)).card

theorem rank_le_size (a : Arena) (id : NodeId) : a.rank id ≤ a.size := by
  classical
  calc a.rank id ≤ (Finset.range a.size).card := Finset.card_filter_le _ _
    _ = a.size := Finset.card_range _

theorem rank_pos (h : p < a.size) : 0 < a.rank p := by
  classical
  exact Finset.card_pos.mpr
    ⟨p, Finset.mem_filter.mpr ⟨Finset.mem_range.mpr h, ReflTransGen.refl⟩⟩

/-- Along an edge of a graph without cycles at least the upper node gets lost. -/
theorem rank_lt_of_holds (hac : ∀ id, ¬ TransGen a.Holds id id) (h : a.Holds p c) :
    a.rank c < a.rank p := by
  classical
  refine Finset.card_lt_card ⟨fun x hx => ?_, fun hsub => ?_⟩
  · rw [Finset.mem_filter] at hx ⊢
    exact ⟨hx.1, ReflTransGen.head h hx.2⟩
  · have hp := hsub (Finset.mem_filter.mpr
      ⟨Finset.mem_range.mpr (lt_of_holds h), ReflTransGen.refl⟩)
    exact hac p (TransGen.head' h (Finset.mem_filter.mp hp).2)

/-- Induction on the nodes below a node, along with a bound for the way down: what holds of
the children with a bound holds of the node with a bound one higher. -/
@[elab_as_elim]
theorem induct_below {motive : Nat → NodeId → Prop} (hac : ∀ id, ¬ TransGen a.Holds id id)
    (hlt : ∀ p c, a.Holds p c → c < a.size)
    (step : ∀ fuel u, u < a.size → (∀ c, a.Holds u c → motive fuel c) → motive (fuel + 1) u)
    {fuel : Nat} {u : NodeId} (hu : u < a.size) (hrank : a.rank u ≤ fuel) : motive fuel u := by
  induction fuel generalizing u with
  | zero =>
    have := rank_pos hu
    omega
  | succ fuel ih =>
    refine step fuel u hu fun c hc => ih (hlt u c hc) ?_
    have := rank_lt_of_holds hac hc
    omega

end Arena

end FeatureTree
