/-
The traversal of a tree.

In a tree every node has one parent at most, so what lies below two children of a
node is disjoint, and the traversal meets every node once without looking at its
marks.

* `Arena.walk` — the nodes below a node, by recursion over its children;
* `Arena.pairwise_walk` — no node of the walk lies below a later one;
* `Arena.WellFormed.preorder_eq` — the traversal from the root is the walk.
-/
import FeatureTree.Proofs.Tree.WellFormed
import FeatureTree.Tree.Traversal
import Mathlib.Data.List.Pairwise
import Mathlib.Data.List.Perm.Subperm

namespace FeatureTree

open Relation

namespace Arena

variable {a : Arena} {root u v c d p : NodeId} {n : Nat}

/-- The nodes below a node, as far as the first argument many nodes down. -/
def walk (a : Arena) : Nat → NodeId → List NodeId
  | 0, _ => []
  | fuel + 1, u => u :: (a.childIds u).flatMap (walk a fuel)

/-- A node with its number. -/
def entryAt? (a : Arena) (u : NodeId) : Option (NodeId × Node) := (a.node? u).map (u, ·)

theorem reaches_of_mem_walk (h : v ∈ a.walk n u) : a.Reaches u v := by
  induction n generalizing u with
  | zero => simp [walk] at h
  | succ n ih =>
    rw [walk, List.mem_cons, List.mem_flatMap] at h
    rcases h with rfl | ⟨c, hc, hv⟩
    · exact ReflTransGen.refl
    · exact ReflTransGen.head hc (ih hv)

theorem lt_of_reaches (hlt : ∀ p c, a.Holds p c → c < a.size) (hu : u < a.size)
    (h : a.Reaches u v) : v < a.size := by
  rcases h.cases_tail with rfl | ⟨q, -, hq⟩
  · exact hu
  · exact hlt q v hq

/-! ### The bound on the way down -/

section Acyclic

variable (hac : ∀ u, ¬ TransGen a.Holds u u)
include hac

theorem walk_eq_walk {m : Nat} (hlt : ∀ p c, a.Holds p c → c < a.size) (hu : u < a.size)
    (hn : a.rank u ≤ n) (hm : a.rank u ≤ m) : a.walk n u = a.walk m u := by
  induction n generalizing m u with
  | zero =>
    have := rank_pos hu
    omega
  | succ n ih =>
    cases m with
    | zero =>
      have := rank_pos hu
      omega
    | succ m =>
      rw [walk, walk]
      refine congrArg (u :: ·) (List.flatMap_congr fun c hc => ?_)
      have hrank := rank_lt_of_holds hac hc
      exact ih (hlt u c hc) (by omega) (by omega)

/-- With a bound that allows for all nodes the walk goes on below the children. -/
theorem walk_size_eq (hlt : ∀ p c, a.Holds p c → c < a.size) (hu : u < a.size) :
    a.walk a.size u = u :: (a.childIds u).flatMap (a.walk a.size) := by
  have hrank := a.rank_le_size u
  rw [walk_eq_walk hac hlt hu hrank (by omega : a.rank u ≤ a.size + 1), walk]

theorem mem_walk_of_reaches (hlt : ∀ p c, a.Holds p c → c < a.size) (hu : u < a.size)
    (h : a.Reaches u v) : v ∈ a.walk a.size u := by
  induction h using ReflTransGen.head_induction_on with
  | refl =>
    rw [walk_size_eq hac hlt hu]
    exact List.mem_cons_self
  | head hcd _ ih =>
    rw [walk_size_eq hac hlt hu]
    exact List.mem_cons_of_mem _ (List.mem_flatMap.mpr ⟨_, hcd, ih (hlt _ _ hcd)⟩)

end Acyclic

/-! ### One parent at most -/

section Unshared

variable (hac : ∀ u, ¬ TransGen a.Holds u u) (hone : ∀ u, a.holders u ≤ 1)
include hone

theorem nodup_childIds (u : NodeId) : (a.childIds u).Nodup :=
  List.nodup_iff_count_le_one.mpr fun c => (count_le_holders u c).trans (hone c)

/-- Of two nodes above a third one, one lies above the other. -/
theorem reaches_total (hc : a.Reaches c v) (hd : a.Reaches d v) :
    a.Reaches c d ∨ a.Reaches d c := by
  have hunique : Relator.RightUnique (Function.swap a.Holds) := fun _ _ _ hp hq =>
    eq_of_holders_le_one (hone _) hp hq
  have hc' : ReflTransGen (Function.swap a.Holds) v c := reflTransGen_swap.mpr hc
  have hd' : ReflTransGen (Function.swap a.Holds) v d := reflTransGen_swap.mpr hd
  rcases ReflTransGen.total_of_right_unique hunique hc' hd' with h | h
  · exact .inr (reflTransGen_swap.mp h)
  · exact .inl (reflTransGen_swap.mp h)

include hac

theorem not_reaches_of_siblings (hne : c ≠ d) (hc : a.Holds p c) (hd : a.Holds p d) :
    ¬ a.Reaches c d := by
  intro h
  rcases h.cases_tail with rfl | ⟨q, hcq, hqd⟩
  · exact hne rfl
  · rw [eq_of_holders_le_one (hone d) hqd hd] at hcq
    exact hac p (TransGen.head' hc hcq)

/-- No node of a walk lies below a later one. -/
theorem pairwise_walk (n : Nat) (u : NodeId) :
    (a.walk n u).Pairwise fun x y => ¬ a.Reaches y x := by
  induction n generalizing u with
  | zero => exact .nil
  | succ n ih =>
    rw [walk, List.pairwise_cons]
    constructor
    · intro y hy hyu
      obtain ⟨c, hc, hy⟩ := List.mem_flatMap.mp hy
      exact hac u (TransGen.head' hc ((reaches_of_mem_walk hy).trans hyu))
    · rw [List.pairwise_flatMap]
      refine ⟨fun c _ => ih c, ?_⟩
      refine (nodup_childIds hone u).imp_of_mem fun {c d} hc hd hne x hx y hy hyx => ?_
      -- both children would lie above the first node
      rcases reaches_total hone (reaches_of_mem_walk hx) ((reaches_of_mem_walk hy).trans hyx)
        with h | h
      · exact not_reaches_of_siblings hac hone hne hc hd h
      · exact not_reaches_of_siblings hac hone hne.symm hd hc h

theorem nodup_walk (n : Nat) (u : NodeId) : (a.walk n u).Nodup := by
  refine (pairwise_walk hac hone n u).imp ?_
  rintro x _ h rfl
  exact h ReflTransGen.refl

end Unshared

/-! ### The loop -/

/-- A node is met with its number. -/
theorem node?_of_mem_preorderLoop {fuel : Nat} {stack : List NodeId} {seen : Array Bool}
    {met : List (NodeId × Node)} {e : NodeId × Node} (hmet : ∀ x ∈ met, a.node? x.1 = some x.2)
    (h : e ∈ (a.preorderLoop fuel stack seen met).nodes) : a.node? e.1 = some e.2 := by
  induction fuel generalizing stack seen met with
  | zero => exact hmet e (List.mem_reverse.mp h)
  | succ fuel ih =>
    cases stack with
    | nil => exact hmet e (List.mem_reverse.mp h)
    | cons u stack =>
      rw [preorderLoop] at h
      cases hn : a.node? u with
      | none =>
        simp only [hn] at h
        exact hmet e (List.mem_reverse.mp h)
      | some n =>
        simp only [hn] at h
        split at h
        · exact ih hmet h
        · refine ih (fun x hx => ?_) h
          rcases List.mem_cons.mp hx with rfl | hx
          · exact hn
          · exact hmet x hx

theorem node?_of_mem_preorder {start : Option NodeId} {e : NodeId × Node}
    (h : e ∈ (a.preorder start).nodes) : a.node? e.1 = some e.2 :=
  node?_of_mem_preorderLoop (by simp) h

/-- With unmarked nodes on the stack that have disjoint parts below them, the loop
takes one part after the other. -/
theorem preorderLoop_eq (hac : ∀ u, ¬ TransGen a.Holds u u)
    (hlt : ∀ p c, a.Holds p c → c < a.size) {fuel : Nat} {stack : List NodeId}
    {seen : Array Bool} {met : List (NodeId × Node)} (hstack : ∀ u ∈ stack, u < a.size)
    (hnodup : (stack.flatMap (a.walk a.size)).Nodup)
    (hseen : ∀ v ∈ stack.flatMap (a.walk a.size), seen[v]? = some false)
    (hfuel : (stack.flatMap (a.walk a.size)).length < fuel) :
    a.preorderLoop fuel stack seen met =
      ⟨met.reverse ++ (stack.flatMap (a.walk a.size)).filterMap a.entryAt?, none⟩ := by
  induction fuel generalizing stack seen met with
  | zero => exact absurd hfuel (Nat.not_lt_zero _)
  | succ fuel ih =>
    cases stack with
    | nil =>
      rw [preorderLoop, List.flatMap_nil, List.filterMap_nil, List.append_nil]
    | cons u stack =>
      have hu := hstack u List.mem_cons_self
      obtain ⟨n, hn⟩ := exists_node?_iff.mpr hu
      have hwalk := walk_size_eq hac hlt hu
      rw [List.flatMap_cons, hwalk, List.cons_append] at hnodup hseen hfuel ⊢
      obtain ⟨hfresh, hnodup⟩ := List.nodup_cons.mp hnodup
      have hmark : seen[u]? = some false := hseen u List.mem_cons_self
      have hbound : u < seen.size := (Array.getElem?_eq_some_iff.mp hmark).1
      -- marking `u` leaves the other nodes to come unmarked
      have hother : ∀ v ∈ (a.childIds u).flatMap (a.walk a.size) ++
          stack.flatMap (a.walk a.size), (seen.setIfInBounds u true)[v]? = some false := by
        intro v hv
        have hne : u ≠ v := fun h => hfresh (h ▸ hv)
        rw [Array.getElem?_setIfInBounds_ne hne]
        exact hseen v (List.mem_cons_of_mem _ hv)
      have hchild : ∀ c ∈ a.childIds u, c ∈ (a.childIds u).flatMap (a.walk a.size) := by
        intro c hc
        refine List.mem_flatMap.mpr ⟨c, hc, ?_⟩
        rw [walk_size_eq hac hlt (hlt u c hc)]
        exact List.mem_cons_self
      -- so none of its children is passed over
      have hnext : (n.childIds.filter fun c => !((seen.setIfInBounds u true)[c]?.getD false)) =
          a.childIds u := by
        rw [← childIds_of_node? hn, List.filter_eq_self]
        intro c hc
        rw [hother c (List.mem_append_left _ (hchild c hc))]
        rfl
      rw [preorderLoop]
      simp only [hn, hmark, hnext]
      rw [← List.flatMap_append] at hother hnodup hfuel ⊢
      simp only [Option.getD_some, Bool.false_eq_true, if_false]
      have hstack' : ∀ v ∈ a.childIds u ++ stack, v < a.size := by
        intro v hv
        rcases List.mem_append.mp hv with hv | hv
        · exact hlt u v hv
        · exact hstack v (List.mem_cons_of_mem _ hv)
      rw [ih hstack' hnodup hother (by simpa using hfuel)]
      have hentry : a.entryAt? u = some (u, n) := by
        rw [entryAt?, hn]
        rfl
      rw [List.filterMap_cons, hentry, List.reverse_cons, List.append_assoc]
      rfl

theorem edgeCount_eq (a : Arena) :
    a.edgeCount = (a.nodes.toList.map fun n => n.childIds.length).sum := by
  rw [edgeCount, List.sum, List.foldr_map]

namespace WellFormed

variable (w : a.WellFormed root)
include w

theorem length_walk_le (hone : ∀ u, a.holders u ≤ 1) :
    (a.walk a.size root).length ≤ a.edgeCount + 1 := by
  have hnodup := nodup_walk w.acyclic hone a.size root
  have hsub : (a.childIds root).flatMap (a.walk a.size) ⊆ a.nodes.toList.flatMap Node.childIds := by
    intro v hv
    obtain ⟨c, hc, hv⟩ := List.mem_flatMap.mp hv
    obtain ⟨q, -, hq⟩ := TransGen.tail'_iff.mp (TransGen.head' hc (reaches_of_mem_walk hv))
    obtain ⟨n, hn⟩ := exists_node?_iff.mpr (lt_of_holds hq)
    obtain ⟨hlt, rfl⟩ := node?_eq_some_iff.mp hn
    rw [Holds, childIds_of_node? hn] at hq
    exact List.mem_flatMap.mpr ⟨_, Array.mem_toList_iff.mpr (Array.getElem_mem hlt), hq⟩
  rw [walk_size_eq w.acyclic w.child_lt w.root_lt] at hnodup ⊢
  have := (List.subperm_of_subset (List.nodup_cons.mp hnodup).2 hsub).length_le
  rw [List.length_flatMap (l := a.nodes.toList)] at this
  rw [List.length_cons, edgeCount_eq]
  omega

/-- The traversal of a tree from its root is the walk below the root. -/
theorem preorder_eq (hone : ∀ u, a.holders u ≤ 1) :
    a.preorder (some root) = ⟨(a.walk a.size root).filterMap a.entryAt?, none⟩ := by
  have hflat : [root].flatMap (a.walk a.size) = a.walk a.size root := by
    rw [List.flatMap_cons, List.flatMap_nil, List.append_nil]
  have hwalk : ∀ v ∈ a.walk a.size root, v < a.size := fun v hv =>
    lt_of_reaches w.child_lt w.root_lt (reaches_of_mem_walk hv)
  have hlength := w.length_walk_le hone
  show a.preorderLoop (a.edgeCount + 2) [root] (Array.replicate a.size false) [] = _
  rw [preorderLoop_eq w.acyclic w.child_lt, hflat]
  · rfl
  · intro u hu
    rw [List.mem_singleton.mp hu]
    exact w.root_lt
  · rw [hflat]
    exact nodup_walk w.acyclic hone a.size root
  · rw [hflat]
    intro v hv
    rw [Array.getElem?_replicate, if_pos (hwalk v hv)]
  · rw [hflat]
    omega

theorem mem_walk_iff : v ∈ a.walk a.size root ↔ v < a.size := by
  constructor
  · intro hv
    exact lt_of_reaches w.child_lt w.root_lt (reaches_of_mem_walk hv)
  · intro hv
    exact mem_walk_of_reaches w.acyclic w.child_lt w.root_lt (w.reached v hv)

end WellFormed

end Arena

end FeatureTree
