/-
The three descents agree.

A tree is walked down in three places: for a payload, for the node at which the data gets
too sparse, and, over the tree that an indexer fills, for the leaf of a vector.  All three
follow the route of the vector.  So they end at the same node, which is a leaf or a decision
that selects no child, and additions to the leaves change no route.

* `Decision.Misses`, `Decision.next?_eq_none_iff` — how a decision selects no child;
* `Arena.Stops`, `Arena.Route.exists_stops` — what the end of a route is;
* `Arena.Route.descend_eq` — the descent for a payload goes to the end of the route;
* `Indexer.Refills`, `Indexer.Refills.run` — calls to an indexer change leaves only;
* `Cart.descents_agree` — the three descents.
-/
import FeatureTree.Proofs.Tree.Indexing

namespace FeatureTree

/-! ### Where a way ends -/

/-- A decision selects no child for a vector: the ordinal is negative, the slot lies beyond
the last one, or it is empty. -/
inductive Decision.Misses (d : Decision) (v : FeatureVector) : Prop
  | negative : d.slot v = .ok none → Misses d v
  | beyond {i : Nat} : d.slot v = .ok (some i) → d.children.size ≤ i → Misses d v
  | empty {i : Nat} : d.slot v = .ok (some i) → d.children[i]? = some none → Misses d v

theorem Decision.child?_eq_none_iff {d : Decision} {i : Nat} :
    d.child? i = none ↔ d.children.size ≤ i ∨ d.children[i]? = some none := by
  rw [child?, ← Array.getElem?_eq_none_iff]
  cases d.children[i]? <;> simp

theorem Decision.next?_eq_none_iff {d : Decision} {v : FeatureVector} :
    d.next? v = .ok none ↔ d.Misses v := by
  constructor
  · intro h
    obtain ⟨slot, hslot, hchild⟩ := bind_eq_ok_iff.mp h
    cases slot with
    | none => exact .negative hslot
    | some i =>
      rcases child?_eq_none_iff.mp (Except.ok.inj hchild) with hbeyond | hempty
      · exact .beyond hslot hbeyond
      · exact .empty hslot hempty
  · intro h
    rw [next?, bind_eq_ok_iff]
    cases h with
    | negative hslot => exact ⟨_, hslot, rfl⟩
    | beyond hslot hbeyond =>
      exact ⟨_, hslot, congrArg Except.ok (child?_eq_none_iff.mpr (.inl hbeyond))⟩
    | empty hslot hempty =>
      exact ⟨_, hslot, congrArg Except.ok (child?_eq_none_iff.mpr (.inr hempty))⟩

namespace Arena

/-- A way ends at this node, with the payload of a leaf or with none. -/
inductive Stops (a : Arena) (v : FeatureVector) (w : NodeId) : Option Payload → Prop
  | leaf {p : Payload} : a.content? w = some (.leaf p) → Stops a v w (some p)
  | gap {d : Decision} : a.content? w = some (.decision d) → d.Misses v → Stops a v w none

variable {a : Arena} {v : FeatureVector} {u w : NodeId} {path : List NodeId}
  {answer : Option Payload}

theorem Stops.eq_some_iff (h : a.Stops v w answer) (p : Payload) :
    answer = some p ↔ a.content? w = some (.leaf p) := by
  cases h with
  | leaf hw => rw [hw, Option.some_inj, Option.some_inj, NodeContent.leaf.injEq]
  | gap hw _ => simp [hw]

theorem Stops.eq_none_iff (h : a.Stops v w answer) :
    answer = none ↔ ∃ d, a.content? w = some (.decision d) ∧ d.Misses v := by
  cases h with
  | leaf hw => simp [hw]
  | gap hw hmisses => exact ⟨fun _ => ⟨_, hw, hmisses⟩, fun _ => rfl⟩

/-- The last node of a route is a leaf, or a decision that selects no child. -/
theorem Route.exists_stops (h : a.Route v u path) :
    ∃ w answer, path.getLast? = some w ∧ a.Stops v w answer := by
  induction h with
  | leaf hu => exact ⟨_, _, List.getLast?_singleton, .leaf hu⟩
  | gap hu hnext =>
    exact ⟨_, _, List.getLast?_singleton, .gap hu (Decision.next?_eq_none_iff.mp hnext)⟩
  | step _ _ hrest ih =>
    obtain ⟨w, answer, hw, hstops⟩ := ih
    obtain ⟨rest, rfl⟩ := hrest.exists_cons
    exact ⟨w, answer, hw, hstops⟩

/-- The descent for a payload answers with what stands at the end of the route. -/
theorem Route.descend_eq (h : a.Route v u path) (hw : path.getLast? = some w)
    (hstops : a.Stops v w answer) :
    ∀ {fuel : Nat}, path.length ≤ fuel → a.descend v fuel u = .ok answer := by
  induction h with
  | leaf hu =>
    intro fuel hfuel
    obtain ⟨fuel, rfl⟩ := Nat.exists_eq_add_one.mpr hfuel
    obtain rfl := Option.some_inj.mp hw
    rw [descend_of_leaf hu, (hstops.eq_some_iff _).mpr hu]
  | gap hu hnext =>
    intro fuel hfuel
    obtain ⟨fuel, rfl⟩ := Nat.exists_eq_add_one.mpr hfuel
    obtain rfl := Option.some_inj.mp hw
    rw [descend_of_decision hu, hnext,
      hstops.eq_none_iff.mpr ⟨_, hu, Decision.next?_eq_none_iff.mp hnext⟩]
    rfl
  | step hu hnext hrest ih =>
    intro fuel hfuel
    obtain ⟨fuel, rfl⟩ := Nat.exists_eq_add_one.mpr (Nat.zero_lt_of_lt hfuel)
    obtain ⟨rest, rfl⟩ := hrest.exists_cons
    rw [List.getLast?_cons_cons] at hw
    rw [descend_of_decision hu, hnext]
    exact ih hw (Nat.le_of_succ_le_succ hfuel)

end Arena

open Arena

/-! ### Calls to an indexer -/

namespace Indexer

/-- The indexer holds an arena whose leaves may have received vectors. -/
def Refills (a : Arena) (x : Indexer) : Prop := ∃ f, x.arena = a.filled f

namespace Refills

variable {a : Arena} {x x' : Indexer}

theorem start (a : Arena) : Refills a ⟨a, 0, 0⟩ := ⟨fun _ => [], a.filled_nil.symm⟩

theorem add (h : Refills a x) {v : FeatureVector} {leaf : Option NodeId}
    (hadd : x.add v = .ok (x', leaf)) : Refills a x' := by
  obtain ⟨f, hf⟩ := h
  rw [Indexer.add] at hadd
  obtain ⟨stop, -, hadd⟩ := bind_eq_ok_iff.mp hadd
  cases stop with
  | none =>
    obtain ⟨rfl, -⟩ := Prod.mk.inj (Except.ok.inj hadd)
    exact ⟨f, hf⟩
  | some u =>
    obtain ⟨rfl, -⟩ := Prod.mk.inj (Except.ok.inj hadd)
    refine ⟨_, Eq.trans ?_ (a.filled_modify f u v)⟩
    simp only [hf]

theorem fill (h : Refills a x) {vs : List FeatureVector} {found : Nat}
    (hfill : x.fill vs = .ok (x', found)) : Refills a x' := by
  induction vs generalizing x found with
  | nil =>
    obtain ⟨rfl, -⟩ := Prod.mk.inj (Except.ok.inj hfill)
    exact h
  | cons v vs ih =>
    rw [Indexer.fill] at hfill
    obtain ⟨⟨x₁, leaf⟩, hadd, hfill⟩ := bind_eq_ok_iff.mp hfill
    obtain ⟨⟨x₂, more⟩, hrest, hfill⟩ := bind_eq_ok_iff.mp hfill
    obtain ⟨rfl, -⟩ := Prod.mk.inj (Except.ok.inj hfill)
    exact ih (h.add hadd) hrest

theorem serve (h : Refills a x) {request : Request} (hserve : x.serve request = .ok x') :
    Refills a x' := by
  cases request with
  | add v =>
    obtain ⟨⟨x₁, leaf⟩, hadd, heq⟩ := bind_eq_ok_iff.mp hserve
    obtain rfl := Except.ok.inj heq
    exact h.add hadd
  | fill vs =>
    obtain ⟨⟨x₁, found⟩, hfill, heq⟩ := bind_eq_ok_iff.mp hserve
    obtain rfl := Except.ok.inj heq
    exact h.fill hfill

/-- Whatever vectors are handed over, the indexer keeps all ways. -/
theorem run (h : Refills a x) {requests : List Request} (hrun : x.run requests = .ok x') :
    Refills a x' := by
  induction requests generalizing x with
  | nil =>
    obtain rfl := Except.ok.inj hrun
    exact h
  | cons request requests ih =>
    rw [Indexer.run, List.foldlM_cons] at hrun
    obtain ⟨x₁, hserve, hrun⟩ := bind_eq_ok_iff.mp hrun
    exact ih (h.serve hserve) hrun

end Refills

/-- An indexer routes a vector to the node at which the descent stops if that is a leaf, and
nowhere if it is not. -/
theorem Refills.route_eq {t : Cart} {x : Indexer} {v : FeatureVector} {w : NodeId}
    {answer : Option Payload} (h : Refills t.arena x) {root : NodeId}
    (hroot : t.arena.root = some root) (hv : t.arena.schema.Fits v)
    (hnode : t.nodeFor v 0 = .ok (some w)) (hstops : t.arena.Stops v w answer) :
    x.route v = .ok (if answer.isSome then some w else none) := by
  obtain ⟨f, hf⟩ := h
  obtain ⟨w', -, hnode', hroute⟩ := route_filled hf hroot hv
  obtain rfl : w = w' := by simpa [hnode] using hnode'
  have hleaf : x.arena.nodeIs Node.isLeaf w = answer.isSome := by
    rw [hf, Bool.eq_iff_iff, nodeIs_isLeaf_iff, content?_filled]
    cases hstops with
    | leaf hw =>
      rw [hw]
      cases ‹Payload› <;> simp [NodeContent.receive]
    | gap hw _ =>
      rw [hw]
      simp [NodeContent.receive]
  rw [hroute, hleaf]

end Indexer

/-- The three descents agree.  For every vector of its schema a tree has an answer and a node
at which the descent stops.  The answer is a payload just if that node is the leaf with this
payload, and there is none just if the tree is empty or that node is a decision that selects
no child.  If all leaves hold feature vectors, an indexer starts from the tree and takes all
vectors of the schema; and after any calls that it has served it routes the vector to that
same leaf, or nowhere where there is no answer. -/
theorem Cart.descents_agree (t : Cart) {v : FeatureVector} (hv : t.arena.schema.Fits v) :
    ∃ answer stop, t.arena.interpret v = .ok answer ∧ t.nodeFor v 0 = .ok stop ∧
      (∀ p, answer = some p ↔ ∃ u, stop = some u ∧ t.arena.content? u = some (.leaf p)) ∧
      (answer = none ↔ t.isEmpty = true ∨
        ∃ u d, stop = some u ∧ t.arena.content? u = some (.decision d) ∧ d.Misses v) ∧
      (t.arena.VectorLeaves → ∃ x₀, Indexer.ofCart? t = .ok x₀ ∧ ∀ requests,
        ((∀ w ∈ requests.flatMap Indexer.Request.vectors, t.arena.schema.Fits w) →
          ∃ x, x₀.run requests = .ok x) ∧
        ∀ x, x₀.run requests = .ok x →
          x.route v = .ok (if answer.isSome then stop else none)) := by
  -- an indexer can be started and used as long as its routes are as claimed
  have hindexer : ∀ target,
      (∀ x, Indexer.Refills t.arena x → x.route v = .ok target) →
      t.arena.VectorLeaves → ∃ x₀, Indexer.ofCart? t = .ok x₀ ∧ ∀ requests,
        ((∀ w ∈ requests.flatMap Indexer.Request.vectors, t.arena.schema.Fits w) →
          ∃ x, x₀.run requests = .ok x) ∧
        ∀ x, x₀.run requests = .ok x → x.route v = .ok target := by
    intro target hroute hleaves
    refine ⟨_, Indexer.ofCart?_eq_ok hleaves, fun requests => ⟨fun hvs => ?_, fun x hrun => ?_⟩⟩
    · obtain ⟨x, hrun, -⟩ := (Indexer.filled_start t).exists_run hleaves hvs
      exact ⟨x, hrun⟩
    · exact hroute x ((Indexer.Refills.start _).run hrun)
  cases hroot : t.arena.root with
  | none =>
    have hnode : t.nodeFor v 0 = .ok none := by
      rw [nodeFor, hroot]
    refine ⟨none, none, by rw [interpret, hroot], hnode, by simp, ?_, hindexer _ ?_⟩
    · simp [isEmpty, hroot]
    · rintro x ⟨f, hf⟩
      exact (Indexer.route_filled_empty hf hroot).2
  | some root =>
    obtain ⟨path, hpath, hlength⟩ := t.exists_route hroot hv
    obtain ⟨w, answer, hw, hstops⟩ := hpath.exists_stops
    have hnode : t.nodeFor v 0 = .ok (some w) := hw ▸ nodeFor_zero hroot hpath hlength
    refine ⟨answer, some w, ?_, hnode, fun p => ?_, ?_, hindexer _ fun x hx => ?_⟩
    · rw [interpret, hroot]
      exact hpath.descend_eq hw hstops hlength
    · simp [hstops.eq_some_iff]
    · simp [hstops.eq_none_iff, isEmpty, hroot]
    · exact hx.route_eq hroot hv hnode hstops

/-- After four vectors were added, the first leaf is still found in all three ways, and a
vector with a negative ordinal, which stops at a decision, is found nowhere. -/
theorem Cart.descents_agree_sample :
    ∃ t x₀ x, Sample.vectorTree = .ok t ∧ t.arena.VectorLeaves ∧ Indexer.ofCart? t = .ok x₀ ∧
      x₀.run Indexer.sampleRequests = .ok x ∧
      (let v := Indexer.sampleVector 5 0 0
       t.arena.schema.Fits v ∧ t.arena.interpret v = .ok (some (.featureVectors [])) ∧
         t.nodeFor v 0 = .ok (some 3) ∧ x.route v = .ok (some 3)) ∧
      (let v : FeatureVector := ⟨6, #[200], #[-5], #[Floating.ofInt 1]⟩
       t.arena.schema.Fits v ∧ t.arena.interpret v = .ok none ∧
         t.nodeFor v 0 = .ok (some 2) ∧ x.route v = .ok none) := by
  have hsample : (Sample.vectorTree.toOption.any fun t =>
      decide t.arena.VectorLeaves &&
        (Indexer.sampleRequests.flatMap Indexer.Request.vectors).all
          (decide <| t.arena.schema.Fits ·) &&
        decide (t.arena.schema.Fits (Indexer.sampleVector 5 0 0)) &&
        decide (t.arena.schema.Fits ⟨6, #[200], #[-5], #[Floating.ofInt 1]⟩) &&
        (t.nodeFor (Indexer.sampleVector 5 0 0) 0).toOption == some (some 3) &&
        (t.nodeFor ⟨6, #[200], #[-5], #[Floating.ofInt 1]⟩ 0).toOption == some (some 2) &&
        t.arena.content? 3 == some (.leaf (.featureVectors [])) &&
        !t.arena.nodeIs Node.isLeaf 2) = true := by
    decide +kernel
  cases ht : Sample.vectorTree with
  | error e => simp [ht, Except.toOption] at hsample
  | ok t =>
    simp only [ht, Except.toOption, Option.any_some, Bool.and_eq_true, Bool.not_eq_true',
      decide_eq_true_eq, List.all_eq_true, beq_iff_eq] at hsample
    obtain ⟨⟨⟨⟨⟨⟨⟨hleaves, hvs⟩, hfits⟩, hfits'⟩, hthree⟩, htwo⟩, hcontent⟩, hinner⟩ := hsample
    obtain ⟨answer, stop, hanswer, hstop, hsome, -, hroute⟩ := t.descents_agree hfits
    obtain ⟨answer', stop', hanswer', hstop', hsome', -, hroute'⟩ := t.descents_agree hfits'
    obtain ⟨x₀, hstart, hcalls⟩ := hroute hleaves
    obtain ⟨x₀', hstart', hcalls'⟩ := hroute' hleaves
    obtain rfl : x₀ = x₀' := Except.ok.inj (hstart.symm.trans hstart')
    obtain ⟨x, hrun⟩ := (hcalls Indexer.sampleRequests).1 hvs
    have hx := (hcalls _).2 x hrun
    have hx' := (hcalls' _).2 x hrun
    rw [hstop] at hthree
    rw [hstop'] at htwo
    obtain rfl := Option.some_inj.mp hthree
    obtain rfl := Option.some_inj.mp htwo
    obtain rfl := (hsome _).mpr ⟨3, rfl, hcontent⟩
    have hnone : answer' = none := by
      refine Option.eq_none_iff_forall_ne_some.mpr fun p hp => ?_
      obtain ⟨u, hu, hleaf⟩ := (hsome' p).mp hp
      obtain rfl := Option.some_inj.mp hu
      rw [nodeIs_isLeaf_iff.mpr ⟨p, hleaf⟩] at hinner
      cases hinner
    subst hnone
    exact ⟨t, x₀, x, rfl, hleaves, hstart, hrun, ⟨hfits, hanswer, hstop, hx⟩,
      hfits', hanswer', hstop', hx'⟩

end FeatureTree
