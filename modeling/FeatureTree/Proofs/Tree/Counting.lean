/-
The counts of a frozen graph.

Freezing gives every leaf the number of its data points and every other node the sum over its
children.  In a tree these sums come to the data points of all leaves below a node.

* `Arena.Tallies.of_leaf`, `Arena.Tallies.of_decision` — the count of a node;
* `Arena.Tallies.le_of_reaches` — counts do not grow on the way down;
* `Arena.Tallies.eq_sum_walk` — the count of a node of a tree adds up what lies below it;
* `Graph.tallies` — the counts of a frozen graph are those of its arena.
-/
import FeatureTree.Proofs.Tree.Preorder
import FeatureTree.Proofs.Tree.Routing

namespace FeatureTree

open Relation

namespace Arena

variable {a : Arena} {root u w : NodeId} {count : NodeId → Nat}

theorem Tallies.of_leaf (h : a.Tallies count) {p : Payload}
    (hu : a.content? u = some (.leaf p)) : count u = p.dataCount := by
  obtain ⟨n, hn, hc⟩ := content?_eq_some_iff.mp hu
  rw [h u n hn, hc]

theorem Tallies.of_decision (h : a.Tallies count) {d : Decision}
    (hu : a.content? u = some (.decision d)) : count u = ((a.childIds u).map count).sum := by
  obtain ⟨n, hn, hc⟩ := content?_eq_some_iff.mp hu
  rw [h u n hn, hc, childIds_of_node? hn]

theorem dataCount_recount (count : NodeId → Nat) (hu : u < a.size) :
    (a.recount count).dataCount u = count u := by
  obtain ⟨n, hn⟩ := exists_node?_iff.mpr hu
  rw [dataCount, node?_recount, hn]
  rfl

/-- Counts that agree on the nodes belong to an arena alike. -/
theorem Tallies.congr (h : a.Tallies count) (hlt : ∀ p c, a.Holds p c → c < a.size)
    {count' : NodeId → Nat} (heq : ∀ u < a.size, count' u = count u) : a.Tallies count' := by
  intro u n hn
  rw [heq u (lt_of_node? hn), h u n hn]
  have hchildren : n.childIds.map count' = n.childIds.map count := by
    refine List.map_congr_left fun c hc => heq c (hlt u c ?_)
    rwa [Holds, childIds_of_node? hn]
  rw [hchildren]

theorem Tallies.of_content {b : Arena} (h : a.Tallies count)
    (heq : ∀ u, b.content? u = a.content? u) : b.Tallies count := by
  intro u n hn
  obtain ⟨m, hm, hc⟩ := content?_eq_some_iff.mp ((heq u).symm.trans (content?_of_node? hn))
  rw [h u m hm, Node.childIds, Node.childIds, Node.children, Node.children, hc]

/-- A node holds at least as many data points as each of its children. -/
theorem Tallies.le_of_holds {count : NodeId → Nat} (h : a.Tallies count) {p c : NodeId}
    (hc : a.Holds p c) : count c ≤ count p := by
  obtain ⟨n, hn⟩ := exists_node?_iff.mpr (lt_of_holds hc)
  rw [Holds, childIds_of_node? hn] at hc
  have hle : count c ≤ (n.childIds.map count).sum :=
    List.le_sum_of_mem (List.mem_map_of_mem hc)
  rw [h p n hn]
  cases hx : n.content with
  | leaf payload => simp [Node.childIds, Node.children, hx, NodeContent.children] at hc
  | decision d => exact hle
  | graph g => exact hle

theorem Tallies.le_of_reaches {count : NodeId → Nat} (h : a.Tallies count)
    (hw : a.Reaches u w) : count w ≤ count u := by
  induction hw with
  | refl => exact Nat.le_refl _
  | tail _ hc ih => exact (h.le_of_holds hc).trans ih

/-! ### Counts of a tree -/

/-- Number of data points that a node holds itself; only leaves hold some. -/
def ownCount (a : Arena) (u : NodeId) : Nat :=
  match a.content? u with
  | some (.leaf p) => p.dataCount
  | _ => 0

theorem ownCount_of_leaf {p : Payload} (h : a.content? u = some (.leaf p)) :
    a.ownCount u = p.dataCount := by
  rw [ownCount, h]

theorem ownCount_of_decision {d : Decision} (h : a.content? u = some (.decision d)) :
    a.ownCount u = 0 := by
  rw [ownCount, h]

/-- The count of a node adds up what is met on the walk below it. -/
theorem Tallies.eq_sum_walk (h : a.Tallies count) (wf : a.WellFormed root)
    (hgraph : ∀ u g, a.content? u ≠ some (.graph g)) {fuel : Nat} (hu : u < a.size)
    (hrank : a.rank u ≤ fuel) : count u = ((a.walk fuel u).map a.ownCount).sum := by
  refine induct_below wf.acyclic wf.child_lt (fun fuel u hu ih => ?_) hu hrank
  obtain ⟨x, hx⟩ := exists_content? hu
  rw [walk, List.map_cons, List.sum_cons]
  cases x with
  | leaf p =>
    have hnone : a.childIds u = [] := childIds_of_content? hx
    rw [h.of_leaf hx, ownCount_of_leaf hx, hnone]
    rfl
  | graph g => exact absurd hx (hgraph u g)
  | decision d =>
    rw [h.of_decision hx, ownCount_of_decision hx, Nat.zero_add, List.map_flatMap,
      List.flatMap_def, List.sum_flatten, List.map_map, List.map_congr_left ih]
    rfl

end Arena

open Arena

/-- The counts that a frozen graph keeps are those of its arena. -/
theorem Graph.tallies (g : Graph) : g.arena.Tallies g.arena.dataCount := by
  obtain ⟨a, ha⟩ := g.frozen
  obtain ⟨count, htallies, heq⟩ := tallies_of_freeze ha
  have hcontent : ∀ u, g.arena.content? u = a.content? u := by
    rw [heq]
    exact a.content?_recount count
  have hsize := size_eq_of_content hcontent
  rcases g.root_cases with hroot | ⟨root, -, w⟩
  · -- without a root there is no node
    have hempty : g.arena.size = 0 := by
      rcases exists_freeze_iff.mp ⟨_, ha⟩ with ⟨hzero, -⟩ | ⟨root, hsome, -⟩
      · rw [hsize, hzero]
      · rw [heq] at hroot
        exact absurd (hsome.symm.trans hroot) (by simp)
    exact fun u n hn => absurd (hempty ▸ lt_of_node? hn) (Nat.not_lt_zero u)
  · refine (htallies.of_content hcontent).congr w.child_lt fun u hu => ?_
    rw [heq]
    exact dataCount_recount count (hsize ▸ hu)

end FeatureTree
