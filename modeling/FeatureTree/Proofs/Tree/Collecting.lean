/-
The payloads below a node, put together.

Payloads that hold indices can be put together, and so can lists of feature vectors; what
comes out holds the elements of all of them, one payload after the other.  In a tree the
payloads below a node hold as many elements as the node counts.

* `Collection.Joins` — a collection holds the elements of several payloads in their order;
* `Payload.Alike`, `Payload.exists_collect` — payloads of one family are put together;
* `Arena.collect_eq` — what is collected below a node are the payloads of the leaves that
  the traversal meets;
* `Cart.sum_ownCount` — the nodes explored from a node hold what that node counts;
* `Cart.collect_below` — so what is collected below it is as long as its count says.
-/
import FeatureTree.Proofs.Tree.Counting
import FeatureTree.Proofs.Tree.Exploring

namespace FeatureTree

open Relation

/-! ### Payloads of one family -/

/-- Parts that each element of a list has make a list of their own. -/
theorem exists_forall₂ {α β : Type} {r : α → β → Prop} {xs : List α}
    (h : ∀ x ∈ xs, ∃ y, r x y) : ∃ ys, List.Forall₂ r xs ys := by
  induction xs with
  | nil => exact ⟨[], .nil⟩
  | cons x xs ih =>
    obtain ⟨y, hy⟩ := h x List.mem_cons_self
    obtain ⟨ys, hys⟩ := ih fun x hx => h x (List.mem_cons_of_mem _ hx)
    exact ⟨y :: ys, .cons hy hys⟩

/-- A collection holds what the payloads hold, one after the other. -/
def Collection.Joins (ps : List Payload) : Collection → Prop
  | indices data => ∃ parts : List (List Int32),
      List.Forall₂ (fun p part => p.indices? = some part) ps parts ∧ data = parts.flatten
  | featureVectors vectors => ∃ parts : List (List FeatureVector),
      List.Forall₂ (fun p part => p = .featureVectors part) ps parts ∧ vectors = parts.flatten

namespace Payload

/-- All payloads hold indices, or all of them hold feature vectors. -/
def Alike (ps : List Payload) : Prop :=
  (∀ p ∈ ps, p.indices?.isSome = true) ∨ ∀ p ∈ ps, ∃ vectors, p = .featureVectors vectors

variable {ps : List Payload} {p : Payload}

theorem dataCount_of_indices? {data : List Int32} (h : p.indices? = some data) :
    p.dataCount = data.length := by
  cases p with
  | indices d => rw [Option.some.inj h, dataCount]
  | weightedIndices w =>
    rw [← Option.some.inj h, dataCount, WeightedIndices.indices, List.length_map]
  | weightedSymbols s =>
    rw [← Option.some.inj h, dataCount, WeightedIndices.indices, List.length_map]
  | gaussian g => cases h
  | featureVectors vs => cases h
  | pdf p => cases h

theorem like?_of_indices? {data : List Int32} (h : p.indices? = some data) :
    Collection.like? p = some (.indices []) := by
  cases p with
  | featureVectors vs => cases h
  | _ => exact congrArg (Option.map fun _ => Collection.indices []) h

theorem foldlM_append_indices {parts : List (List Int32)}
    (h : List.Forall₂ (fun p part => p.indices? = some part) ps parts) (data : List Int32) :
    ps.foldlM Collection.append (.indices data) = .ok (.indices (data ++ parts.flatten)) := by
  induction h generalizing data with
  | nil =>
    rw [List.flatten_nil, List.append_nil]
    rfl
  | @cons p part ps parts hp _ ih =>
    have happend : Collection.append (.indices data) p = .ok (.indices (data ++ part)) := by
      rw [Collection.append, hp]
    rw [List.foldlM_cons, happend, List.flatten_cons, ← List.append_assoc]
    exact ih (data ++ part)

theorem foldlM_append_vectors {parts : List (List FeatureVector)}
    (h : List.Forall₂ (fun p part => p = .featureVectors part) ps parts)
    (vectors : List FeatureVector) :
    ps.foldlM Collection.append (.featureVectors vectors) =
      .ok (.featureVectors (vectors ++ parts.flatten)) := by
  induction h generalizing vectors with
  | nil =>
    rw [List.flatten_nil, List.append_nil]
    rfl
  | @cons p part ps parts hp _ ih =>
    rw [hp, List.foldlM_cons, List.flatten_cons, ← List.append_assoc]
    exact ih (vectors ++ part)

/-- Payloads of one family are put together, if there are any. -/
theorem exists_collect (h : Alike ps) (hne : ps ≠ []) :
    ∃ c, collect ps = .ok (some c) ∧ c.Joins ps := by
  obtain ⟨first, rest, rfl⟩ := List.exists_cons_of_ne_nil hne
  rcases h with h | h
  · obtain ⟨parts, hparts⟩ :=
      exists_forall₂ fun p hp => Option.isSome_iff_exists.mp (h p hp)
    obtain ⟨data, hdata⟩ := Option.isSome_iff_exists.mp (h first List.mem_cons_self)
    refine ⟨.indices parts.flatten, ?_, parts, hparts, rfl⟩
    rw [collect, like?_of_indices? hdata]
    simp only [foldlM_append_indices hparts, List.nil_append]
    rfl
  · obtain ⟨parts, hparts⟩ := exists_forall₂ h
    obtain ⟨vectors, rfl⟩ := h first List.mem_cons_self
    refine ⟨.featureVectors parts.flatten, ?_, parts, hparts, rfl⟩
    rw [collect, Collection.like?]
    simp only [foldlM_append_vectors hparts, List.nil_append]
    rfl

end Payload

theorem length_flatten_of_forall₂ {α : Type} {ps : List Payload} {parts : List (List α)}
    (h : List.Forall₂ (fun p part => p.dataCount = part.length) ps parts) :
    parts.flatten.length = (ps.map Payload.dataCount).sum := by
  induction h with
  | nil => rfl
  | cons hp _ ih => rw [List.flatten_cons, List.length_append, ih, List.map_cons, List.sum_cons, hp]

/-- A collection is as long as the payloads together. -/
theorem Collection.Joins.length_eq {ps : List Payload} {c : Collection} (h : c.Joins ps) :
    c.length = (ps.map Payload.dataCount).sum := by
  cases c with
  | indices data =>
    obtain ⟨parts, hparts, rfl⟩ := h
    exact length_flatten_of_forall₂ (hparts.imp fun _ _ => Payload.dataCount_of_indices?)
  | featureVectors vectors =>
    obtain ⟨parts, hparts, rfl⟩ := h
    exact length_flatten_of_forall₂ (hparts.imp fun _ _ hp => by rw [hp, Payload.dataCount])

/-! ### The payloads that a traversal meets -/

namespace Arena

variable {a : Arena} {id u : NodeId} {ids : List NodeId} {p : Payload}

/-- The payloads of the leaves among these nodes, in their order. -/
def payloads (a : Arena) (ids : List NodeId) : List Payload :=
  ids.filterMap fun u => (a.node? u).bind Node.payload?

theorem payload?_eq_some_iff {n : Node} : n.payload? = some p ↔ n.content = .leaf p := by
  rw [Node.payload?.eq_def]
  cases n.content <;> simp

theorem payload?_of_leavesOnly (n : Node) :
    (if NodeFilter.leavesOnly.accepts n then n.payload? else none) = n.payload? := by
  obtain ⟨content, mother, index, isRoot, count⟩ := n
  cases content <;> rfl

theorem mem_payloads_iff : p ∈ a.payloads ids ↔ ∃ u ∈ ids, a.content? u = some (.leaf p) := by
  simp only [payloads, List.mem_filterMap, Option.bind_eq_some_iff, payload?_eq_some_iff,
    content?_eq_some_iff]

theorem sum_dataCount_payloads (a : Arena) (ids : List NodeId) :
    ((a.payloads ids).map Payload.dataCount).sum = (ids.map a.ownCount).sum := by
  induction ids with
  | nil => rfl
  | cons u ids ih =>
    rw [List.map_cons, List.sum_cons, ← ih, payloads, payloads, List.filterMap_cons]
    cases hn : a.node? u with
    | none => simp [ownCount, content?, hn]
    | some n =>
      cases hc : n.content <;> simp [ownCount, content?, Node.payload?, hn, hc]

/-- What is collected are the payloads of the leaves that are met. -/
theorem collect_eq (h : (a.preorder (some id)).missing = none) :
    a.collect id = Payload.collect (a.payloads ((a.preorder (some id)).nodes.map (·.1))) := by
  have hnodes : ((a.select (some id) .leavesOnly).nodes.filterMap fun e => e.2.payload?) =
      a.payloads ((a.preorder (some id)).nodes.map (·.1)) := by
    rw [payloads, List.filterMap_map, select, List.filterMap_filter]
    refine List.filterMap_congr fun e he => ?_
    rw [Function.comp, node?_of_mem_preorder he, Option.bind_some, payload?_of_leavesOnly]
  rw [collect]
  simp only [hnodes, ids_select h]
  cases a.payloads ((a.preorder (some id)).nodes.map (·.1)) with
  | nil => rfl
  | cons first rest =>
    rw [Payload.collect]
    dsimp only
    cases Collection.like? first with
    | none => rfl
    | some start =>
      cases (first :: rest).foldlM Collection.append start <;> rfl

end Arena

open Arena

namespace Cart

variable (t : Cart) {id : NodeId}

/-- The nodes that are explored from a node hold what that node counts. -/
theorem sum_ownCount {order : List NodeId} (hid : id < t.arena.size)
    (horder : t.arena.Explores [] [id] order) :
    (order.map t.arena.ownCount).sum = t.arena.dataCount id := by
  obtain ⟨n, hn⟩ := exists_node?_iff.mpr hid
  obtain ⟨root, hroot⟩ := t.exists_root hn
  have w := t.wellFormed hroot
  -- a tree is explored as it is walked, up to the order of the nodes
  have hperm : order.Perm (t.arena.walk t.arena.size id) := by
    rw [List.perm_ext_iff_of_nodup (horder.nodup .nil)
      (nodup_walk w.acyclic (t.holders_le_one hroot) _ id)]
    intro u
    rw [horder.mem_iff]
    simp only [List.mem_singleton, exists_eq_left]
    exact ⟨mem_walk_of_reaches w.acyclic w.child_lt hid, reaches_of_mem_walk⟩
  rw [(hperm.map _).sum_eq]
  exact (t.graph.tallies.eq_sum_walk w t.content?_ne_graph hid (t.arena.rank_le_size id)).symm

/-- What is collected below a node of a tree is what its leaves hold.  If all leaves below the
node hold indices, plain or weighted, or if all of them hold feature vectors, their payloads
can be put together.  Nothing comes out exactly if there is no leaf; otherwise it is what the
leaves hold, in the order in which a traversal meets them, and there is as much of it as the
node counts. -/
theorem collect_below (hid : id < t.arena.size)
    (hkind : (∀ u p, t.arena.Reaches id u → t.arena.content? u = some (.leaf p) →
        p.indices?.isSome = true) ∨
      ∀ u p, t.arena.Reaches id u → t.arena.content? u = some (.leaf p) →
        ∃ vectors, p = .featureVectors vectors) :
    ∃ order answer, t.arena.Explores [] [id] order ∧ t.arena.collect id = .ok answer ∧
      (answer = none ↔ ∀ u p, t.arena.Reaches id u → t.arena.content? u ≠ some (.leaf p)) ∧
      ∀ c, answer = some c →
        c.Joins (t.arena.payloads order) ∧ c.length = t.arena.dataCount id := by
  obtain ⟨n, hn⟩ := exists_node?_iff.mpr hid
  obtain ⟨root, hroot⟩ := t.exists_root hn
  obtain ⟨hnone, horder⟩ := explores_preorder (t.wellFormed hroot).child_lt hid
  set order := (t.arena.preorder (some id)).nodes.map (·.1)
  have hmem : ∀ p, p ∈ t.arena.payloads order ↔
      ∃ u, t.arena.Reaches id u ∧ t.arena.content? u = some (.leaf p) := by
    intro p
    simp only [mem_payloads_iff, horder.mem_iff, List.mem_singleton, exists_eq_left]
  have halike : Payload.Alike (t.arena.payloads order) := by
    refine hkind.imp (fun h p hp => ?_) fun h p hp => ?_
    · obtain ⟨u, hu, hleaf⟩ := (hmem p).mp hp
      exact h u p hu hleaf
    · obtain ⟨u, hu, hleaf⟩ := (hmem p).mp hp
      exact h u p hu hleaf
  by_cases hempty : t.arena.payloads order = []
  · refine ⟨order, none, horder, by rw [collect_eq hnone, hempty]; rfl, ?_, by simp⟩
    refine ⟨fun _ u p hu hleaf => ?_, fun _ => rfl⟩
    have : p ∈ t.arena.payloads order := (hmem p).mpr ⟨u, hu, hleaf⟩
    rw [hempty] at this
    exact List.not_mem_nil this
  · obtain ⟨c, hc, hjoins⟩ := Payload.exists_collect halike hempty
    refine ⟨order, some c, horder, by rw [collect_eq hnone, hc], ?_, ?_⟩
    · obtain ⟨p, hp⟩ := List.exists_mem_of_ne_nil _ hempty
      obtain ⟨u, hu, hleaf⟩ := (hmem p).mp hp
      exact ⟨fun h => by simp at h, fun h => absurd hleaf (h u p hu)⟩
    · rintro _ ⟨⟩
      refine ⟨hjoins, ?_⟩
      rw [hjoins.length_eq, sum_dataCount_payloads]
      exact t.sum_ownCount hid horder

/-- Plain and weighted indices in leaves of different depth, the first of which has the
highest number, with an empty leaf and an empty slot. -/
def mixedTree : Except GraphError Cart := do
  let b := (Builder.empty Sample.schema).addDecision (.byteOf 0 4) |>.1
  let b := b.addDecision (.below 2 Sample.tenth) |>.1
  let b := Sample.addLeaves b
    [.weightedIndices ⟨[(3, Floating.zero), (1, Sample.tenth)]⟩, .indices [],
      .weightedSymbols ⟨⟨[(3, Sample.tenth)]⟩, none⟩, .indices [5, 3]]
  Cart.ofBuilder? (← Sample.wire (b.setRoot 0)
    [(0, some 5), (0, none), (0, some 1), (0, some 3), (1, some 2), (1, some 4)])

/-- The leaves are met by their slots and not by their numbers. -/
theorem collect_below_mixedTree :
    ∃ t order, mixedTree = .ok t ∧ 0 < t.arena.size ∧
      (∀ u p, t.arena.Reaches 0 u → t.arena.content? u = some (.leaf p) →
        p.indices?.isSome = true) ∧
      t.arena.Explores [] [0] order ∧
      t.arena.collect 0 = .ok (some (.indices [5, 3, 3, 1, 3])) ∧
      (Collection.indices [5, 3, 3, 1, 3]).Joins (t.arena.payloads order) ∧
      5 = t.arena.dataCount 0 := by
  have hsample : (mixedTree.toOption.any fun t =>
      decide (0 < t.arena.size) &&
        t.arena.nodes.all (fun n => n.payload?.all (·.indices?.isSome)) &&
        (t.arena.collect 0).toOption == some (some (.indices [5, 3, 3, 1, 3]))) = true := by
    decide +kernel
  cases ht : mixedTree with
  | error e => simp [ht, Except.toOption] at hsample
  | ok t =>
    simp only [ht, Except.toOption, Option.any_some, Bool.and_eq_true, decide_eq_true_eq,
      beq_iff_eq] at hsample
    obtain ⟨⟨hsize, hall⟩, hcollect⟩ := hsample
    have hkind : ∀ u p, t.arena.Reaches 0 u → t.arena.content? u = some (.leaf p) →
        p.indices?.isSome = true := by
      intro u p _ hu
      obtain ⟨n, hn, hp⟩ := content?_eq_some_iff.mp hu
      obtain ⟨hlt, rfl⟩ := node?_eq_some_iff.mp hn
      have := Array.all_eq_true.mp hall u hlt
      rwa [payload?_eq_some_iff.mpr hp, Option.all_some] at this
    obtain ⟨order, answer, horder, hanswer, -, hsome⟩ := collect_below t hsize (.inl hkind)
    rw [hanswer] at hcollect
    obtain ⟨hjoins, hlength⟩ := hsome _ (Option.some.inj hcollect)
    refine ⟨t, order, rfl, hsize, hkind, horder, ?_, hjoins, hlength⟩
    rw [hanswer, Option.some.inj hcollect]

end Cart

end FeatureTree
