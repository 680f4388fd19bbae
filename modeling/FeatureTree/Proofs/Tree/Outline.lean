/-
Outlines: graphs with the numbers of their nodes forgotten.

An `Outline` is what one sees on the way down from a node: a leaf, an empty slot,
a test with the outlines in its slots, or a default with the part that comes
before it.  A well-formed arena unfolds into one outline, whatever the numbers
and the order of its nodes.

* `Arena.unfold`, `Arena.outline` — the outline below a slot, and of an arena;
* `Arena.WellFormed.unfold_eq_unfold` — a bound on the way down that is large
  enough does not matter;
* `Outline.descend` — the descent for a vector, read off an outline;
* `Arena.interpret_eq_descend_outline` — it is the descent through the arena.
-/
import FeatureTree.Proofs.Tree.WellFormed
import FeatureTree.Tree.Descent

namespace FeatureTree

open Relation

/-- What lies below a child slot, without the numbers of the nodes. -/
inductive Outline where
  | empty
  | leaf (payload : Payload)
  | branch (feature : Nat) (test : DecisionTest) (children : List Outline)
  | backOff (fallback specific : Outline)

namespace Outline

/-- Induction over outlines: what holds of all children holds of the branch. -/
@[elab_as_elim, induction_eliminator]
theorem induct {motive : Outline → Prop} (empty : motive .empty)
    (leaf : ∀ payload, motive (.leaf payload))
    (branch : ∀ feature test children, (∀ x ∈ children, motive x) →
      motive (.branch feature test children))
    (backOff : ∀ fallback specific, motive fallback → motive specific →
      motive (.backOff fallback specific)) :
    ∀ x, motive x := by
  intro x
  refine @Outline.rec motive (fun xs => ∀ x ∈ xs, motive x) empty leaf branch backOff ?_ ?_ x
  · intro x hx
    exact absurd hx (by simp)
  · intro head tail hhead htail x hx
    rcases List.mem_cons.mp hx with rfl | hx
    · exact hhead
    · exact htail x hx

/-- The descent for a vector. -/
def descend (v : FeatureVector) : Outline → Except Fault (Option Payload)
  | empty => .ok none
  | leaf p => .ok (some p)
  | branch feature test children => do
    let slot ← (Decision.ofSlots feature test 0).slot v
    (slot.bind fun i => (children.map fun x => descend v x)[i]?).getD (.ok none)
  | backOff fallback specific => do
    match (← descend v specific).filter (!·.isEmpty) with
    | some p => return some p
    | none => descend v fallback

end Outline

namespace Arena

variable (a : Arena)

/-- What a node is, without its links and its count. -/
def content? (id : NodeId) : Option NodeContent := (a.node? id).map Node.content

/-- The outline below a slot, as far as the first argument many nodes down. -/
def unfold : Nat → Option NodeId → Outline
  | _, none => .empty
  | 0, some _ => .empty
  | fuel + 1, some id =>
    match a.content? id with
    | some (.leaf p) => .leaf p
    | some (.decision d) => .branch d.feature d.test (d.children.toList.map (unfold fuel))
    | some (.graph g) => .backOff (unfold fuel g.leaf) (unfold fuel g.decision)
    | none => .empty

/-- The outline of an arena. -/
def outline : Outline := a.unfold (a.size + 1) a.root

variable {a} {root u p c : NodeId}

theorem content?_eq_some_iff {content : NodeContent} :
    a.content? u = some content ↔ ∃ n, a.node? u = some n ∧ n.content = content :=
  Option.map_eq_some_iff

theorem childIds_of_content? {content : NodeContent} (h : a.content? u = some content) :
    a.childIds u = content.children.filterMap id := by
  obtain ⟨n, hn, rfl⟩ := content?_eq_some_iff.mp h
  exact childIds_of_node? hn

theorem holds_of_content? {content : NodeContent} (h : a.content? u = some content)
    (hc : some c ∈ content.children) : a.Holds u c := by
  rw [Holds, childIds_of_content? h]
  exact List.mem_filterMap.mpr ⟨some c, hc, rfl⟩

@[simp] theorem unfold_none (a : Arena) (fuel : Nat) : a.unfold fuel none = .empty := by
  cases fuel <;> rfl

theorem content?_eq_none_of_rank (h : a.rank u ≤ 0) : a.content? u = none := by
  have hu : ¬ u < a.size := fun hu => absurd (rank_pos hu) (by omega)
  rw [content?, Option.map_eq_none_iff]
  exact Array.getElem?_eq_none (Nat.le_of_not_lt hu)

theorem unfold_of_content?_eq_none (h : a.content? u = none) (fuel : Nat) :
    a.unfold fuel (some u) = .empty := by
  cases fuel with
  | zero => rfl
  | succ fuel => rw [unfold, h]

/-- A bound on the way down that allows for all nodes below a node does not
matter. -/
theorem unfold_eq_unfold (hac : ∀ u, ¬ TransGen a.Holds u u) :
    ∀ {fuel fuel' : Nat} {slot : Option NodeId}, (∀ u, slot = some u → a.rank u ≤ fuel) →
      (∀ u, slot = some u → a.rank u ≤ fuel') → a.unfold fuel slot = a.unfold fuel' slot := by
  intro fuel
  induction fuel with
  | zero =>
    intro fuel' slot hslot _
    cases slot with
    | none => rw [unfold_none, unfold_none]
    | some u =>
      have hn := content?_eq_none_of_rank (hslot u rfl)
      rw [unfold_of_content?_eq_none hn, unfold_of_content?_eq_none hn]
  | succ fuel ih =>
    intro fuel' slot hslot hslot'
    cases slot with
    | none => rw [unfold_none, unfold_none]
    | some u =>
      have hu := hslot u rfl
      have hu' := hslot' u rfl
      cases fuel' with
      | zero =>
        have hn := content?_eq_none_of_rank hu'
        rw [unfold_of_content?_eq_none hn, unfold_of_content?_eq_none hn]
      | succ fuel' =>
        -- a child ranks lower, so either bound still allows for it
        have hchild : ∀ content, a.content? u = some content → ∀ slot ∈ content.children,
            a.unfold fuel slot = a.unfold fuel' slot := by
          intro content hcontent slot hmem
          refine ih (fun c hc => ?_) (fun c hc => ?_)
          · have := rank_lt_of_holds hac (holds_of_content? hcontent (hc ▸ hmem))
            omega
          · have := rank_lt_of_holds hac (holds_of_content? hcontent (hc ▸ hmem))
            omega
        rw [unfold, unfold]
        cases hcontent : a.content? u with
        | none => rfl
        | some content =>
          cases content with
          | leaf payload => rfl
          | decision d =>
            simp only [Outline.branch.injEq, true_and]
            exact List.map_congr_left (hchild _ hcontent)
          | graph g =>
            simp only [Outline.backOff.injEq]
            exact ⟨hchild _ hcontent _ (by simp [NodeContent.children]),
              hchild _ hcontent _ (by simp [NodeContent.children])⟩

/-! ### The descent -/

/-- The child that a vector selects is the one in the slot that the test selects. -/
theorem next?_eq (d : Decision) (v : FeatureVector) :
    d.next? v = (do
      let slot ← (Decision.ofSlots d.feature d.test 0).slot v
      return slot.bind d.child?) := rfl

/-- The descent through an arena is that through the outline below its start. -/
theorem descend_eq_descend_unfold (hac : ∀ u, ¬ TransGen a.Holds u u)
    (hlt : ∀ p c, a.Holds p c → c < a.size) (v : FeatureVector) {fuel : Nat} {u : NodeId}
    (hu : u < a.size) (hrank : a.rank u ≤ fuel) :
    a.descend v fuel u = (a.unfold fuel (some u)).descend v := by
  refine induct_below hac hlt (fun fuel u hu ih => ?_) hu hrank
  obtain ⟨n, hn⟩ := exists_node?_iff.mpr hu
  have hcontent : a.content? u = some n.content := content?_eq_some_iff.mpr ⟨n, hn, rfl⟩
  have hchild : ∀ c, some c ∈ n.content.children →
      a.descend v fuel c = (a.unfold fuel (some c)).descend v :=
    fun c hc => ih c (holds_of_content? hcontent hc)
  -- an empty slot has no answer, like the empty outline
  have hslot : ∀ slot ∈ n.content.children,
      slot.elim (.ok none) (a.descend v fuel) = (a.unfold fuel slot).descend v := by
    intro slot hmem
    cases slot with
    | none => simp [Outline.descend]
    | some c => exact hchild c hmem
  rw [descend, unfold, hcontent, node, hn]
  simp only [bind, Except.bind]
  cases hc : n.content with
  | leaf payload => simp [Outline.descend, pure, Except.pure]
  | decision d =>
    simp only [next?_eq, Outline.descend, bind, Except.bind]
    cases (Decision.ofSlots d.feature d.test 0).slot v with
    | error e => rfl
    | ok slot =>
      cases slot with
      | none => rfl
      | some i =>
        simp only [Option.bind_some, pure, Except.pure, Decision.child?, List.map_map,
          List.getElem?_map, Array.getElem?_toList]
        cases hi : d.children[i]? with
        | none => rfl
        | some slot =>
          have hmem : slot ∈ n.content.children := by
            rw [hc, NodeContent.children]
            exact List.mem_of_getElem? (by rw [Array.getElem?_toList, hi])
          simp only [Option.join_some, Option.map_some, Option.getD_some, Function.comp]
          refine Eq.trans ?_ (hslot slot hmem)
          cases slot <;> rfl
  | graph g =>
    have hl := hslot g.leaf (by simp [hc, NodeContent.children])
    have hd := hslot g.decision (by simp [hc, NodeContent.children])
    simp only [Outline.descend, ← hl, ← hd, bind, Except.bind, pure, Except.pure]
    cases g.decision with
    | none => cases g.leaf <;> simp
    | some d =>
      simp only [Option.elim_some]
      cases a.descend v fuel d with
      | error e => rfl
      | ok r => cases g.leaf <;> rfl

theorem WellFormed.interpret_eq_descend_outline (w : a.WellFormed root) (hroot : a.root = some root)
    (v : FeatureVector) : a.interpret v = a.outline.descend v := by
  rw [interpret.eq_def, outline, hroot]
  refine descend_eq_descend_unfold w.acyclic w.child_lt v w.root_lt ?_
  have := rank_le_size a root
  omega

end Arena

end FeatureTree
