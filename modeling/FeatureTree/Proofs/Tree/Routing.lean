/-
Every descent through a frozen graph ends.

The descent for a payload is not the only one: another one looks for the node where the
data gets sparse, and an indexer looks for the leaf that a vector belongs to.  None looks
up what is not there or runs out of steps, whatever the ordinals of the vector are.

* `Cart.exists_nodeForLoop`, `Indexer.exists_routeLoop` — the other two descents end;
* `Indexer.Serves.sameWays` — adding vectors to leaves leaves the ways down as they are;
* `Schema.Builds.descents_end` — they end for every vector that was built for a schema
  equal to that of the graph.
-/
import FeatureTree.Proofs.Tree.Filling

namespace FeatureTree

open Relation

namespace Arena

/-- The count of a node, zero for a number without a node. -/
def dataCount (a : Arena) (u : NodeId) : Nat := ((a.node? u).map Node.count).getD 0

theorem dataCount_of_node? {a : Arena} {u : NodeId} {n : Node} (h : a.node? u = some n) :
    a.dataCount u = n.count := by
  rw [dataCount, h]
  rfl

/-- A node has no more data points than asked for; asking for none does not matter. -/
def Sparse (a : Arena) (minCount : Nat) (u : NodeId) : Prop :=
  0 < minCount ∧ a.dataCount u ≤ minCount

instance (a : Arena) (minCount : Nat) (u : NodeId) : Decidable (a.Sparse minCount u) :=
  inferInstanceAs (Decidable (_ ∧ _))

end Arena

open Arena

/-! ### The node where the data gets sparse -/

namespace Cart

variable {t : Cart} {v : FeatureVector}

theorem nodeForLoop_of_leaf {u : NodeId} {p : Payload} (h : t.arena.content? u = some (.leaf p))
    (v : FeatureVector) (minCount fuel : Nat) :
    t.nodeForLoop v minCount (fuel + 1) u = .ok u := by
  obtain ⟨n, hn, hc⟩ := content?_eq_some_iff.mp h
  rw [nodeForLoop, node, hn]
  simp only [bind, Except.bind, hc]
  rfl

/-- At a decision the descent goes on to the selected child, unless the data gets sparse
at the decision or at that child. -/
theorem nodeForLoop_of_decision (hlt : ∀ p c, t.arena.Holds p c → c < t.arena.size)
    {u : NodeId} {d : Decision} (h : t.arena.content? u = some (.decision d)) (v : FeatureVector)
    (minCount fuel : Nat) :
    t.nodeForLoop v minCount (fuel + 1) u =
      if t.arena.Sparse minCount u then .ok u
      else (d.next? v).bind fun child => child.elim (.ok u) fun c =>
        if t.arena.Sparse minCount c then .ok u else t.nodeForLoop v minCount fuel c := by
  obtain ⟨n, hn, hc⟩ := content?_eq_some_iff.mp h
  rw [nodeForLoop, node, hn]
  simp only [bind, Except.bind, hc, Sparse, dataCount_of_node? hn]
  split
  · rfl
  · cases hnext : d.next? v with
    | error e => rfl
    | ok child =>
      cases child with
      | none => rfl
      | some c =>
        obtain ⟨m, hm⟩ := exists_node?_iff.mpr (hlt u c (holds_of_next? h hnext))
        simp only [Option.elim_some, node, hm, dataCount_of_node? hm]
        rfl

theorem exists_nodeForLoop (h : t.arena.Passable v)
    (hgraph : ∀ u g, t.arena.content? u ≠ some (.graph g)) (minCount : Nat) {fuel : Nat}
    {u : NodeId} (hu : u < t.arena.size) (hrank : t.arena.rank u ≤ fuel) :
    ∃ w, t.nodeForLoop v minCount fuel u = .ok w := by
  refine induct_below h.acyclic h.child_lt (fun fuel u hu ih => ?_) hu hrank
  obtain ⟨x, hx⟩ := exists_content? hu
  cases x with
  | leaf p => exact ⟨u, nodeForLoop_of_leaf hx v minCount fuel⟩
  | graph g => exact absurd hx (hgraph u g)
  | decision d =>
    obtain ⟨child, hnext, hhold⟩ := h.exists_next? hx
    rw [nodeForLoop_of_decision h.child_lt hx, hnext]
    split
    · exact ⟨u, rfl⟩
    · cases child with
      | none => exact ⟨u, rfl⟩
      | some c =>
        simp only [Except.bind, Option.elim_some]
        split
        · exact ⟨u, rfl⟩
        · exact ih c (hhold c rfl)

theorem passable (t : Cart) {root : NodeId} (hroot : t.arena.root = some root)
    (hv : t.arena.schema.Fits v) : t.arena.Passable v :=
  (t.wellFormed hroot).passable hv

theorem exists_nodeFor (t : Cart) (hv : t.arena.schema.Fits v) (minCount : Nat) :
    ∃ u, t.nodeFor v minCount = .ok u := by
  rw [nodeFor]
  cases hroot : t.arena.root with
  | none => exact ⟨none, rfl⟩
  | some root =>
    obtain ⟨u, hu⟩ := exists_nodeForLoop (t.passable hroot hv) t.content?_ne_graph
      minCount (t.wellFormed hroot).root_lt (t.arena.rank_le_succ root)
    exact ⟨some u, by simp only [hu]; rfl⟩

end Cart

/-! ### Indexers -/

namespace Indexer

/-- The indexers of a tree: the one that was started from it, with any vectors added. -/
inductive Serves (t : Cart) : Indexer → Prop
  | start {x : Indexer} : ofCart? t = .ok x → Serves t x
  | add {x x' : Indexer} {v : FeatureVector} {leaf : Option NodeId} :
      Serves t x → x.add v = .ok (x', leaf) → Serves t x'

theorem ofCart?_arena {t : Cart} {x : Indexer} (h : ofCart? t = .ok x) : x.arena = t.arena := by
  rw [ofCart?] at h
  split at h
  · simp at h
  · rw [← Except.ok.inj h]

theorem sameWays_of_add {x x' : Indexer} {v : FeatureVector} {leaf : Option NodeId}
    (h : x.add v = .ok (x', leaf)) : SameWays x.arena x'.arena := by
  rw [Indexer.add] at h
  obtain ⟨found, -, h⟩ := bind_eq_ok_iff.mp h
  cases found with
  | none =>
    obtain ⟨rfl, -⟩ := Prod.mk.inj (Except.ok.inj h)
    exact ⟨rfl, rfl, fun _ => rfl, fun _ _ h => h⟩
  | some leaf =>
    obtain ⟨rfl, -⟩ := Prod.mk.inj (Except.ok.inj h)
    exact sameWays_modify x.arena leaf v

theorem Serves.sameWays {t : Cart} {x : Indexer} (h : Serves t x) : SameWays t.arena x.arena := by
  induction h with
  | start h =>
    rw [ofCart?_arena h]
    exact ⟨rfl, rfl, fun _ => rfl, fun _ _ h => h⟩
  | add _ h ih => exact ih.trans (sameWays_of_add h)

section Step

variable {x : Indexer} {u : NodeId}

theorem routeLoop_of_leaf {p : Payload} (h : x.arena.content? u = some (.leaf p))
    (v : FeatureVector) (fuel : Nat) : x.routeLoop v (fuel + 1) u = .ok (some u) := by
  obtain ⟨n, hn, hc⟩ := content?_eq_some_iff.mp h
  rw [routeLoop, node, hn]
  simp only [bind, Except.bind, hc]
  rfl

theorem routeLoop_of_graph {g : GraphNode} (h : x.arena.content? u = some (.graph g))
    (v : FeatureVector) (fuel : Nat) : x.routeLoop v (fuel + 1) u = .ok none := by
  obtain ⟨n, hn, hc⟩ := content?_eq_some_iff.mp h
  rw [routeLoop, node, hn]
  simp only [bind, Except.bind, hc]
  rfl

theorem routeLoop_of_decision {d : Decision} (h : x.arena.content? u = some (.decision d))
    (v : FeatureVector) (fuel : Nat) :
    x.routeLoop v (fuel + 1) u =
      (d.next? v).bind fun child => child.elim (.ok none) (x.routeLoop v fuel) := by
  obtain ⟨n, hn, hc⟩ := content?_eq_some_iff.mp h
  rw [routeLoop, node, hn]
  simp only [bind, Except.bind, hc]
  cases d.next? v with
  | error e => rfl
  | ok child => cases child <;> rfl

end Step

theorem exists_routeLoop {x : Indexer} {v : FeatureVector} (h : x.arena.Passable v) {fuel : Nat}
    {u : NodeId} (hu : u < x.arena.size) (hrank : x.arena.rank u ≤ fuel) :
    ∃ leaf, x.routeLoop v fuel u = .ok leaf := by
  refine induct_below h.acyclic h.child_lt (fun fuel u hu ih => ?_) hu hrank
  obtain ⟨content, hcontent⟩ := exists_content? hu
  cases content with
  | leaf p => exact ⟨some u, routeLoop_of_leaf hcontent v fuel⟩
  | graph g => exact ⟨none, routeLoop_of_graph hcontent v fuel⟩
  | decision d =>
    obtain ⟨child, hnext, hhold⟩ := h.exists_next? hcontent
    rw [routeLoop_of_decision hcontent, hnext]
    cases child with
    | none => exact ⟨none, rfl⟩
    | some c => exact ih c (hhold c rfl)

theorem Serves.exists_route {t : Cart} {x : Indexer} (h : Serves t x) {v : FeatureVector}
    (hv : t.arena.schema.Fits v) : ∃ leaf, x.route v = .ok leaf := by
  have hways := h.sameWays
  rw [route, hways.root]
  cases hroot : t.arena.root with
  | none => exact ⟨none, rfl⟩
  | some root =>
    refine exists_routeLoop (hways.passable (t.passable hroot hv)) ?_ (x.arena.rank_le_succ root)
    rw [hways.size]
    exact (t.wellFormed hroot).root_lt

end Indexer

/-! ### All descents -/

/-- A vector that was built for a schema gets through every graph over an equal one: its
payload is found or its absence established, the node where the data gets sparse is
found, and an indexer finds a leaf or none.  No descent looks up a node that the arena
does not hold or a feature that the vector does not have, and none goes on for ever. -/
theorem Schema.Builds.descents_end {s : Schema} {v : FeatureVector} (h : s.Builds v) :
    (∀ g : Graph, Cart.joinable true s g.arena.schema = true →
      ∃ p, g.arena.interpret v = .ok p) ∧
    ∀ t : Cart, Cart.joinable true s t.arena.schema = true →
      (∃ p, t.arena.interpret v = .ok p) ∧
      (∀ minCount, ∃ u, t.nodeFor v minCount = .ok u) ∧
      ∀ x : Indexer, x.Serves t → ∃ leaf, x.route v = .ok leaf := by
  constructor
  · intro g hg
    exact g.exists_interpret (h.fits.of_declared (declared_of_joinable hg))
  · intro t ht
    have hv := h.fits.of_declared (declared_of_joinable ht)
    exact ⟨t.graph.exists_interpret hv, t.exists_nodeFor hv, fun x hx => hx.exists_route hv⟩

/-- A tree for indexing: a threshold test above two many-way tests, one of which has an
empty slot. -/
def Sample.vectorTree : Except GraphError Cart := do
  let b := (Builder.empty schema).addDecision (.below 2 tenth) |>.1
  let b := b.addDecision (.byteOf 0 4) |>.1
  let b := b.addDecision (.shortOf 1 4) |>.1
  let b := addLeaves b (List.replicate 7 (.featureVectors []))
  Cart.ofBuilder? (← wire (b.setRoot 0)
    [(0, some 1), (0, some 2), (1, some 3), (1, some 4), (1, none), (1, some 5),
      (2, some 6), (2, some 7), (2, some 8), (2, some 9)])

/-- Ordinals that no value has, one of them negative, select no child. -/
theorem descents_end_sample :
    ∃ t x v, Sample.vectorTree = .ok t ∧ Indexer.ofCart? t = .ok x ∧
      Sample.schema.vector ⟨7, #[200], #[-5], #[Floating.ofInt 1]⟩ = .ok v ∧
      (∃ p, t.graph.arena.interpret v = .ok p) ∧ (∃ u, t.nodeFor v 0 = .ok u) ∧
      ∃ leaf, x.route v = .ok leaf := by
  have hsample : (Sample.vectorTree.toOption.any fun t =>
      Cart.joinable true Sample.schema t.arena.schema &&
        (Indexer.ofCart? t).toOption.isSome) = true := by
    decide +kernel
  cases ht : Sample.vectorTree with
  | error e => simp [ht, Except.toOption] at hsample
  | ok t =>
    simp only [ht, Except.toOption, Option.any_some, Bool.and_eq_true] at hsample
    obtain ⟨hjoin, hindexer⟩ := hsample
    cases hx : Indexer.ofCart? t with
    | error e => simp [hx] at hindexer
    | ok x =>
      have hvector : Sample.schema.vector ⟨7, #[200], #[-5], #[Floating.ofInt 1]⟩ = .ok _ :=
        if_pos (by decide +kernel)
      obtain ⟨hgraph, htree⟩ := (Schema.Builds.vector hvector).descents_end
      obtain ⟨-, hnode, hroute⟩ := htree t hjoin
      exact ⟨t, x, _, rfl, hx, hvector, hgraph t.graph hjoin, hnode 0, hroute x (.start hx)⟩

end FeatureTree
