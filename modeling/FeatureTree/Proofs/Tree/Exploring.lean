/-
Depth-first order by recursion.

To explore a list of nodes is to take them one after the other: a node that was visited
before is passed over; any other one is visited, and its children are explored before the
list goes on.  The traversal has a stack instead, on which a node may lie several times.  It
ends, whatever is shared and whatever runs in a circle, and it meets the nodes in the order
in which they are explored.

* `Arena.Explores` — the recursion, between the nodes visited before and those visited after;
* `Arena.Explores.unique`, `Arena.Explores.nodup`, `Arena.Explores.mem_iff` — it has one
  result, which lists every node that is reached and none of them twice;
* `Arena.Drains` — the loop of the traversal without a bound on its steps;
* `Arena.drains_preorderLoop` — the loop ends;
* `Arena.Drains.explores` — it meets what is explored;
* `Arena.select_explores` — so a traversal gives the explored nodes that its filter accepts.
-/
import FeatureTree.Proofs.Tree.Preorder

namespace FeatureTree

open Relation

namespace Arena

variable {a : Arena} {start u v : NodeId} {n : Node} {seen todo order order' stack : List NodeId}
  {marks : Array Bool} {met : List (NodeId × Node)} {t : Traversal}

/-! ### The recursion -/

/-- Exploring the nodes of `todo`, when those of `seen` were visited before.  What has been
visited afterwards is `order`, in the order of the visits. -/
inductive Explores (a : Arena) : List NodeId → List NodeId → List NodeId → Prop
  | done {seen : List NodeId} : Explores a seen [] seen
  | again {seen todo order : List NodeId} {u : NodeId} (hu : u ∈ seen)
      (hrest : Explores a seen todo order) : Explores a seen (u :: todo) order
  | visit {seen below todo order : List NodeId} {u : NodeId} (hu : u ∉ seen)
      (hbelow : Explores a (seen ++ [u]) (a.childIds u) below)
      (hrest : Explores a below todo order) : Explores a seen (u :: todo) order

namespace Explores

theorem seen_subset (h : a.Explores seen todo order) : seen ⊆ order := by
  induction h with
  | done => exact List.Subset.refl _
  | again _ _ ih => exact ih
  | visit _ _ _ ihbelow ihrest =>
    exact fun v hv => ihrest (ihbelow (List.mem_append_left _ hv))

theorem todo_subset (h : a.Explores seen todo order) : todo ⊆ order := by
  induction h with
  | done => exact List.nil_subset _
  | again hu hrest ih => exact List.cons_subset.mpr ⟨hrest.seen_subset hu, ih⟩
  | visit _ hbelow hrest _ ih =>
    refine List.cons_subset.mpr ⟨hrest.seen_subset (hbelow.seen_subset ?_), ih⟩
    exact List.mem_append_right _ (List.mem_singleton_self _)

/-- The children of a node that is visited are visited as well. -/
theorem childIds_subset (h : a.Explores seen todo order) :
    ∀ v ∈ order, v ∉ seen → a.childIds v ⊆ order := by
  induction h with
  | done => exact fun v hv hnot => absurd hv hnot
  | again _ _ ih => exact ih
  | @visit seen below todo order u hu hbelow hrest ihbelow ihrest =>
    intro v hv hnot
    by_cases hmem : v ∈ below
    · refine List.Subset.trans ?_ hrest.seen_subset
      by_cases hvu : v = u
      · rw [hvu]
        exact hbelow.todo_subset
      · exact ihbelow v hmem (by simp [hnot, hvu])
    · exact ihrest v hv hmem

theorem reaches_of_mem (h : a.Explores seen todo order) :
    ∀ v ∈ order, v ∈ seen ∨ ∃ u ∈ todo, a.Reaches u v := by
  induction h with
  | done => exact fun v hv => .inl hv
  | again _ _ ih =>
    intro v hv
    refine (ih v hv).imp_right fun ⟨u, hu, hreach⟩ => ⟨u, List.mem_cons_of_mem _ hu, hreach⟩
  | @visit seen below todo order u _ _ _ ihbelow ihrest =>
    intro v hv
    rcases ihrest v hv with hmem | ⟨w, hw, hreach⟩
    · rcases ihbelow v hmem with hmem | ⟨c, hc, hreach⟩
      · rcases List.mem_append.mp hmem with hmem | hmem
        · exact .inl hmem
        · rw [List.mem_singleton.mp hmem]
          exact .inr ⟨u, List.mem_cons_self, ReflTransGen.refl⟩
      · exact .inr ⟨u, List.mem_cons_self, ReflTransGen.head hc hreach⟩
    · exact .inr ⟨w, List.mem_cons_of_mem _ hw, hreach⟩

/-- From a fresh start exactly the nodes below those of the list are visited. -/
theorem mem_iff (h : a.Explores [] todo order) : v ∈ order ↔ ∃ u ∈ todo, a.Reaches u v := by
  constructor
  · intro hv
    exact (h.reaches_of_mem v hv).resolve_left List.not_mem_nil
  · rintro ⟨u, hu, hreach⟩
    induction hreach with
    | refl => exact h.todo_subset hu
    | tail _ hheld ih => exact h.childIds_subset _ ih List.not_mem_nil hheld

theorem nodup (h : a.Explores seen todo order) (hseen : seen.Nodup) : order.Nodup := by
  induction h with
  | done => exact hseen
  | again _ _ ih => exact ih hseen
  | visit hu _ _ ihbelow ihrest =>
    refine ihrest (ihbelow ?_)
    rw [← List.concat_eq_append]
    exact hseen.concat hu

/-- The order is determined by what was visited before and what is to be explored. -/
theorem unique (h : a.Explores seen todo order) (h' : a.Explores seen todo order') :
    order' = order := by
  induction h generalizing order' with
  | done =>
    cases h' with
    | done => rfl
  | again hu _ ih =>
    cases h' with
    | again _ hrest' => exact ih hrest'
    | visit hu' _ _ => exact absurd hu hu'
  | visit hu _ _ ihbelow ihrest =>
    cases h' with
    | again hu' _ => exact absurd hu' hu
    | visit _ hbelow' hrest' =>
      obtain rfl := ihbelow hbelow'
      exact ihrest hrest'

theorem exists_of_append {todo' : List NodeId} (h : a.Explores seen (todo ++ todo') order) :
    ∃ mid, a.Explores seen todo mid ∧ a.Explores mid todo' order := by
  induction todo generalizing seen with
  | nil => exact ⟨seen, .done, h⟩
  | cons u todo ih =>
    rw [List.cons_append] at h
    cases h with
    | again hu hrest =>
      obtain ⟨mid, hmid, horder⟩ := ih hrest
      exact ⟨mid, .again hu hmid, horder⟩
    | visit hu hbelow hrest =>
      obtain ⟨mid, hmid, horder⟩ := ih hrest
      exact ⟨mid, .visit hu hbelow hmid, horder⟩

/-- Nodes that were visited before may be left out of the list. -/
theorem of_filter {p : NodeId → Bool} (h : a.Explores seen (todo.filter p) order)
    (hp : ∀ u ∈ todo, p u = false → u ∈ seen) : a.Explores seen todo order := by
  induction todo generalizing seen with
  | nil => exact h
  | cons u todo ih =>
    have htodo : ∀ w ∈ todo, p w = false → w ∈ seen := fun w hw =>
      hp w (List.mem_cons_of_mem _ hw)
    cases hpu : p u with
    | false =>
      rw [List.filter_cons_of_neg (by simp [hpu])] at h
      exact .again (hp u List.mem_cons_self hpu) (ih h htodo)
    | true =>
      rw [List.filter_cons_of_pos hpu] at h
      cases h with
      | again hu hrest => exact .again hu (ih hrest htodo)
      | visit hu hbelow hrest =>
        refine .visit hu hbelow (ih hrest fun w hw hpw => ?_)
        exact hbelow.seen_subset (List.mem_append_left _ (htodo w hw hpw))

end Explores

/-! ### The loop ends -/

/-- The loop of the traversal, run until its stack is empty or holds a number without a
node. -/
inductive Drains (a : Arena) :
    List NodeId → Array Bool → List (NodeId × Node) → Traversal → Prop
  | stop {marks : Array Bool} {met : List (NodeId × Node)} :
      Drains a [] marks met ⟨met.reverse, none⟩
  | missing {u : NodeId} {stack : List NodeId} {marks : Array Bool}
      {met : List (NodeId × Node)} (hn : a.node? u = none) :
      Drains a (u :: stack) marks met ⟨met.reverse, some u⟩
  | skip {u : NodeId} {n : Node} {stack : List NodeId} {marks : Array Bool}
      {met : List (NodeId × Node)} {t : Traversal} (hn : a.node? u = some n)
      (hmark : marks[u]?.getD false = true) (hrest : Drains a stack marks met t) :
      Drains a (u :: stack) marks met t
  | meet {u : NodeId} {n : Node} {stack : List NodeId} {marks : Array Bool}
      {met : List (NodeId × Node)} {t : Traversal} (hn : a.node? u = some n)
      (hmark : marks[u]?.getD false = false)
      (hrest : Drains a
        ((n.childIds.filter fun c => !((marks.setIfInBounds u true)[c]?.getD false)) ++ stack)
        (marks.setIfInBounds u true) ((u, n) :: met) t) :
      Drains a (u :: stack) marks met t

/-- Number of filled slots of the nodes that are not marked yet. -/
def pending (a : Arena) (marks : Array Bool) : Nat :=
  ∑ p ∈ (Finset.range a.size).filter (fun p => marks[p]?.getD false = false),
    (a.childIds p).length

theorem getD_setIfInBounds (hu : u < marks.size) :
    (marks.setIfInBounds u true)[v]?.getD false = true ↔ v = u ∨ marks[v]?.getD false = true := by
  by_cases hv : v = u
  · subst hv
    simp [hu]
  · rw [Array.getElem?_setIfInBounds_ne (Ne.symm hv)]
    simp [hv]

/-- The slots of a node that gets marked are pending no longer. -/
theorem pending_mark (hu : u < a.size) (hmarks : marks.size = a.size)
    (hmark : marks[u]?.getD false = false) :
    a.pending (marks.setIfInBounds u true) + (a.childIds u).length = a.pending marks := by
  have hmem : u ∈ (Finset.range a.size).filter fun p => marks[p]?.getD false = false :=
    Finset.mem_filter.mpr ⟨Finset.mem_range.mpr hu, hmark⟩
  have hrest : ((Finset.range a.size).filter fun p =>
      (marks.setIfInBounds u true)[p]?.getD false = false) =
      ((Finset.range a.size).filter fun p => marks[p]?.getD false = false).erase u := by
    ext p
    have hset : (marks.setIfInBounds u true)[p]?.getD false = true ↔
        p = u ∨ marks[p]?.getD false = true := getD_setIfInBounds (hmarks ▸ hu)
    simp only [Finset.mem_filter, Finset.mem_erase, ← Bool.not_eq_true, hset, not_or]
    tauto
  rw [pending, pending, hrest, Finset.sum_erase_add _ _ hmem]

theorem pending_start (a : Arena) : a.pending (Array.replicate a.size false) = a.edgeCount := by
  rw [pending, edgeCount_eq, a.sum_map_childIds List.length, Finset.filter_true_of_mem]
  intro p _
  rw [Array.getElem?_replicate]
  split <;> rfl

/-- Every turn of the loop takes a node off the stack, and what it puts there is no longer
pending. -/
theorem drains_preorderLoop {fuel : Nat} (hmarks : marks.size = a.size)
    (hfuel : stack.length + a.pending marks < fuel) :
    a.Drains stack marks met (a.preorderLoop fuel stack marks met) := by
  induction fuel generalizing stack marks met with
  | zero => exact absurd hfuel (Nat.not_lt_zero _)
  | succ fuel ih =>
    cases stack with
    | nil => exact .stop
    | cons u stack =>
      rw [List.length_cons] at hfuel
      rw [preorderLoop]
      cases hn : a.node? u with
      | none => exact .missing hn
      | some n =>
        cases hmark : marks[u]?.getD false with
        | true =>
          simp only [if_true]
          exact .skip hn hmark (ih hmarks (by omega))
        | false =>
          have hpending := pending_mark (lt_of_node? hn) hmarks hmark
          rw [childIds_of_node? hn] at hpending
          have hnext := List.length_filter_le
            (fun c => !((marks.setIfInBounds u true)[c]?.getD false)) n.childIds
          simp only [Bool.false_eq_true, if_false]
          refine .meet hn hmark (ih (by rwa [Array.size_setIfInBounds]) ?_)
          rw [List.length_append]
          omega

theorem drains_preorder (a : Arena) (start : NodeId) :
    a.Drains [start] (Array.replicate a.size false) [] (a.preorder (some start)) := by
  refine drains_preorderLoop (Array.size_replicate ..) ?_
  rw [pending_start, List.length_singleton]
  omega

/-! ### What the loop meets -/

/-- The stack holds the nodes that remain to be explored: the children of the node met last,
but for those that are marked already, and below them what lay there before. -/
theorem Drains.explores (h : a.Drains stack marks met t)
    (hlt : ∀ p c, a.Holds p c → c < a.size) (hstack : ∀ u ∈ stack, u < a.size)
    (hmarks : marks.size = a.size)
    (hmet : ∀ u, marks[u]?.getD false = true ↔ u ∈ met.reverse.map (·.1)) :
    t.missing = none ∧ a.Explores (met.reverse.map (·.1)) stack (t.nodes.map (·.1)) := by
  induction h with
  | stop => exact ⟨rfl, .done⟩
  | missing hn =>
    obtain ⟨n, hn'⟩ := exists_node?_iff.mpr (hstack _ List.mem_cons_self)
    rw [hn] at hn'
    cases hn'
  | skip _ hmark _ ih =>
    obtain ⟨hnone, hrest⟩ := ih (fun u hu => hstack u (List.mem_cons_of_mem _ hu)) hmarks hmet
    exact ⟨hnone, .again ((hmet _).mp hmark) hrest⟩
  | @meet u n stack marks met t hn hmark _ ih =>
    have hu : u < marks.size := hmarks ▸ lt_of_node? hn
    have hvisited : ((u, n) :: met).reverse.map (·.1) = met.reverse.map (·.1) ++ [u] := by
      rw [List.reverse_cons, List.map_append]
      rfl
    rw [hvisited] at ih
    have hmet' : ∀ c, (marks.setIfInBounds u true)[c]?.getD false = true ↔
        c ∈ met.reverse.map (·.1) ++ [u] := by
      intro c
      rw [getD_setIfInBounds hu, hmet c, List.mem_append, List.mem_singleton, or_comm]
    obtain ⟨hnone, hrest⟩ := ih (fun c hc => by
      rcases List.mem_append.mp hc with hc | hc
      · exact hlt u c (by rw [Holds, childIds_of_node? hn]; exact (List.mem_filter.mp hc).1)
      · exact hstack c (List.mem_cons_of_mem _ hc)) (by rwa [Array.size_setIfInBounds]) hmet'
    obtain ⟨below, hbelow, hrest⟩ := hrest.exists_of_append
    refine ⟨hnone, .visit (fun hmem => ?_) ?_ hrest⟩
    · rw [(hmet u).mpr hmem] at hmark
      cases hmark
    · rw [childIds_of_node? hn]
      refine hbelow.of_filter fun c _ hc => (hmet' c).mp ?_
      simpa using hc

theorem explores_preorder (hlt : ∀ p c, a.Holds p c → c < a.size) (hstart : start < a.size) :
    (a.preorder (some start)).missing = none ∧
      a.Explores [] [start] ((a.preorder (some start)).nodes.map (·.1)) := by
  refine (a.drains_preorder start).explores hlt ?_ (Array.size_replicate ..) ?_
  · intro u hu
    rw [List.mem_singleton.mp hu]
    exact hstart
  · intro u
    rw [Array.getElem?_replicate]
    split <;> simp

/-- A traversal that met every number gives those of the nodes that its filter accepts. -/
theorem ids_select {start : Option NodeId} (h : (a.preorder start).missing = none)
    (f : NodeFilter) :
    (a.select start f).ids =
      .ok (((a.preorder start).nodes.map (·.1)).filter (a.nodeIs f.accepts)) := by
  have hids : (a.select start f).ids =
      .ok (((a.preorder start).nodes.filter fun e => f.accepts e.2).map (·.1)) := by
    rw [Traversal.ids, select, h]
  rw [hids, List.filter_map]
  refine congrArg _ (congrArg _ (List.filter_congr fun e he => ?_))
  rw [Function.comp, nodeIs, node?_of_mem_preorder he]

/-- A traversal goes depth first.  Be the arena that of a builder or of a frozen graph,
whatever it shares and whatever runs in a circle or is out of reach in it: if no child is
missing, the loop of the traversal ends, and from a start node on it gives the nodes that its
filter accepts, in the order in which the recursion visits them, which passes over nodes
visited before and takes the children of a node in slot order.  That order is the only one
of its kind, and it lists the nodes that the start node reaches, each once. -/
theorem select_explores (a : Arena) (hlt : ∀ p c, a.Holds p c → c < a.size) {start : NodeId}
    (hstart : start < a.size) (f : NodeFilter) :
    a.Drains [start] (Array.replicate a.size false) [] (a.preorder (some start)) ∧
      ∃ order, a.Explores [] [start] order ∧
        (∀ order', a.Explores [] [start] order' → order' = order) ∧
        order.Nodup ∧ (∀ u, u ∈ order ↔ a.Reaches start u) ∧
        (a.select (some start) f).ids = .ok (order.filter (a.nodeIs f.accepts)) := by
  obtain ⟨hnone, horder⟩ := explores_preorder hlt hstart
  refine ⟨a.drains_preorder start, _, horder, fun _ => horder.unique, horder.nodup .nil,
    fun u => ?_, ids_select hnone f⟩
  rw [horder.mem_iff]
  simp only [List.mem_singleton, exists_eq_left]

/-- A graph node below a decision and below itself, a leaf below both of its parts, a
decision that is its own child, and a leaf that nothing holds. -/
def knot : Arena where
  schema := .empty
  nodes := #[⟨.decision ⟨0, .byteOf, #[some 1, none, some 0, some 3]⟩, none, 0, true, 0⟩,
    ⟨.graph ⟨some 3, some 2⟩, some 0, 0, false, 0⟩,
    ⟨.decision ⟨0, .byteOf, #[some 1, some 4, some 3]⟩, some 1, 1, false, 0⟩,
    ⟨.leaf (.indices [7]), some 1, 0, false, 0⟩, ⟨.leaf (.indices []), some 2, 1, false, 0⟩,
    ⟨.leaf (.indices [8]), none, 0, false, 0⟩]
  root := some 0

/-- The graph node is passed through and not given. -/
theorem select_explores_knot :
    (∀ p c, knot.Holds p c → c < knot.size) ∧ 0 < knot.size ∧
      (∃ order, knot.Explores [] [0] order ∧ (∀ u, u ∈ order ↔ knot.Reaches 0 u) ∧
        (knot.select (some 0) ⟨true, true, false⟩).ids =
          .ok (order.filter (knot.nodeIs (NodeFilter.accepts ⟨true, true, false⟩)))) ∧
      (knot.select (some 0) ⟨true, true, false⟩).ids = .ok [0, 3, 2, 4] := by
  have hlt : ∀ p c, knot.Holds p c → c < knot.size := by
    intro p c h
    have hp : p < 6 := lt_of_holds h
    have hall : ∀ p < 6, ∀ c ∈ knot.childIds p, c < knot.size := by decide
    exact hall p hp c h
  have hsize : 0 < knot.size := by decide
  obtain ⟨-, order, horder, -, -, hmem, hids⟩ :=
    select_explores knot hlt hsize ⟨true, true, false⟩
  exact ⟨hlt, hsize, ⟨order, horder, hmem, hids⟩, by decide⟩

end Arena

end FeatureTree
