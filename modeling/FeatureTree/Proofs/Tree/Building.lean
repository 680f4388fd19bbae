/-
What the steps of a builder change.

A step is described by what it does to the contents of the nodes, to their links
and to the number of slots that were filled in order; all else stays.

* `Builder.setChild_eq_ok_iff`, `Builder.pushChild_eq_ok_iff` — when a child can be
  attached, and what comes out;
* `Builder.content?_place`, `Builder.parentLink?_place` — the nodes afterwards;
* `Builder.InOrder` — no decision got more children than it has slots.
-/
import FeatureTree.Proofs.Tree.Outline
import FeatureTree.Tree.Builder
import Mathlib.Algebra.BigOperators.Group.Finset.Piecewise
import Mathlib.Algebra.Order.BigOperators.Group.Finset

namespace FeatureTree

namespace Arena

variable (a : Arena)

/-- How a node hangs in the graph: the parent it was attached to, and whether it is
the root. -/
def parentLink? (u : NodeId) : Option (Option NodeId × Bool) :=
  (a.node? u).map fun n => (n.mother, n.isRoot)

/-- Number of child slots of a node. -/
def slotsOf (u : NodeId) : Nat := ((a.content? u).map fun x => x.children.length).getD 0

/-- Number of child slots of all nodes, filled or not. -/
def slotCount : Nat := ∑ u ∈ Finset.range a.size, a.slotsOf u

variable {a} {u : NodeId}

theorem lt_size_of_content? {x : NodeContent} (h : a.content? u = some x) : u < a.size := by
  obtain ⟨n, hn, -⟩ := content?_eq_some_iff.mp h
  exact lt_of_node? hn

theorem content?_eq_none_iff : a.content? u = none ↔ a.size ≤ u := by
  rw [content?, Option.map_eq_none_iff, node?, Array.getElem?_eq_none_iff, size]

theorem exists_content? (h : u < a.size) : ∃ x, a.content? u = some x := by
  obtain ⟨n, hn⟩ := exists_node?_iff.mpr h
  exact ⟨n.content, content?_eq_some_iff.mpr ⟨n, hn, rfl⟩⟩

end Arena

namespace Builder

open Arena

variable (b : Builder) {p u c : NodeId} {x : NodeContent} {slot : Nat} {child : Option NodeId}

@[simp] theorem content?_empty (s : Schema) : (empty s).content? u = none := by
  rw [content?_eq_none_iff]
  exact Nat.zero_le u

@[simp] theorem size_empty (s : Schema) : (empty s).size = 0 := rfl

/-! ### A new node -/

@[simp] theorem size_add : (b.add x).1.size = b.size + 1 := Array.size_push ..

theorem content?_add : (b.add x).1.content? u = if u = b.size then some x else b.content? u := by
  show ((b.nodes.push { content := x })[u]?).map Node.content = _
  rw [Array.getElem?_push, size]
  by_cases h : u = b.nodes.size
  · rw [if_pos h, if_pos h]
    rfl
  · rw [if_neg h, if_neg h]
    rfl

theorem content?_add_of_eq_some {y : NodeContent} (h : b.content? u = some y) :
    (b.add x).1.content? u = some y := by
  rw [content?_add, if_neg (Nat.ne_of_lt (lt_size_of_content? h)), h]

theorem parentLink?_add :
    (b.add x).1.parentLink? u = if u = b.size then some (none, false) else b.parentLink? u := by
  show ((b.nodes.push { content := x })[u]?).map _ = _
  rw [Array.getElem?_push, size]
  by_cases h : u = b.nodes.size
  · rw [if_pos h, if_pos h]
    rfl
  · rw [if_neg h, if_neg h]
    rfl

@[simp] theorem filledSlots_add : (b.add x).1.filledSlots u = b.filledSlots u := by
  show ((b.filled.push 0)[u]?).getD 0 = _
  rw [Array.getElem?_push, filledSlots]
  by_cases h : u = b.filled.size
  · rw [if_pos h, Array.getElem?_eq_none (Nat.le_of_eq h.symm)]
    rfl
  · rw [if_neg h]

/-! ### The content of a node -/

theorem content?_setContent (h : p < b.size) :
    (b.setContent p x).content? u = if u = p then some x else b.content? u := by
  show ((b.nodes.modify p _)[u]?).map _ = _
  rw [Array.getElem?_modify]
  by_cases hu : p = u
  · subst hu
    obtain ⟨n, hn⟩ := exists_node?_iff.mpr h
    rw [if_pos rfl, if_pos rfl, show b.nodes[p]? = some n from hn]
    rfl
  · rw [if_neg hu, if_neg fun h => hu h.symm]
    rfl

@[simp] theorem size_setContent : (b.setContent p x).size = b.size := Array.size_modify ..

@[simp] theorem parentLink?_setContent : (b.setContent p x).parentLink? u = b.parentLink? u := by
  show ((b.nodes.modify p _)[u]?).map _ = (b.nodes[u]?).map _
  rw [Array.getElem?_modify]
  by_cases hu : p = u
  · rw [if_pos hu, Option.map_map]
    rfl
  · rw [if_neg hu]

/-! ### The link to a parent -/

@[simp] theorem content?_link? : (b.link? p slot child).content? u = b.content? u := by
  cases child with
  | none => rfl
  | some c =>
    show ((b.nodes.modify c _)[u]?).map _ = (b.nodes[u]?).map _
    rw [Array.getElem?_modify]
    by_cases hu : c = u
    · rw [if_pos hu, Option.map_map]
      cases b.nodes[u]? with
      | none => rfl
      | some n =>
        simp only [Option.map_some, Function.comp]
        split <;> rfl
    · rw [if_neg hu]

@[simp] theorem size_link? : (b.link? p slot child).size = b.size := by
  cases child with
  | none => rfl
  | some c => exact Array.size_modify ..

@[simp] theorem filled_link? : (b.link? p slot child).filled = b.filled := by
  cases child <;> rfl

@[simp] theorem root_link? : (b.link? p slot child).root = b.root := by
  cases child <;> rfl

@[simp] theorem schema_link? : (b.link? p slot child).schema = b.schema := by
  cases child <;> rfl

@[simp] theorem properties_link? : (b.link? p slot child).properties = b.properties := by
  cases child <;> rfl

/-- Only a child without a parent that is not the root is linked. -/
theorem parentLink?_link? :
    (b.link? p slot child).parentLink? u =
      if child = some u ∧ b.parentLink? u = some (none, false) then some (some p, false)
      else b.parentLink? u := by
  cases child with
  | none => simp [link?]
  | some c =>
    show ((b.nodes.modify c _)[u]?).map _ = _
    rw [Array.getElem?_modify]
    by_cases hu : c = u
    · subst hu
      rw [if_pos rfl, parentLink?, node?]
      cases b.nodes[c]? with
      | none => simp
      | some n =>
        cases hm : n.mother <;> cases hr : n.isRoot <;> simp [hm, hr]
    · rw [if_neg hu, if_neg fun h => hu (Option.some_inj.mp h.1)]
      rfl

/-! ### The root -/

@[simp] theorem size_setRoot : (b.setRoot c).size = b.size := by
  rw [setRoot, size, Array.size_modify]
  cases b.root with
  | none => rfl
  | some old => exact Array.size_modify ..

@[simp] theorem content?_setRoot : (b.setRoot c).content? u = b.content? u := by
  rw [content?, content?, node?, node?, setRoot]
  cases b.root with
  | none =>
    show ((b.nodes.modify c _)[u]?).map _ = _
    rw [Array.getElem?_modify]
    by_cases hu : c = u
    · rw [if_pos hu, Option.map_map]
      rfl
    · rw [if_neg hu]
  | some old =>
    show (((b.nodes.modify old _).modify c _)[u]?).map _ = _
    rw [Array.getElem?_modify, Array.getElem?_modify]
    by_cases hu : c = u <;> by_cases ho : old = u <;> simp [hu, ho, Function.comp_def]

theorem parentLink?_setRoot (h : b.root = none) (hc : c < b.size) :
    (b.setRoot c).parentLink? u = if u = c then some (none, true) else b.parentLink? u := by
  rw [parentLink?, node?, setRoot]
  simp only [h]
  rw [Array.getElem?_modify]
  by_cases hu : c = u
  · subst hu
    obtain ⟨n, hn⟩ := exists_node?_iff.mpr hc
    rw [if_pos rfl, if_pos rfl, show b.nodes[c]? = some n from hn]
    rfl
  · rw [if_neg hu, if_neg fun h => hu h.symm]
    rfl

@[simp] theorem filled_setRoot : (b.setRoot c).filled = b.filled := rfl

/-! ### A child in a slot -/

/-- The builder with a child in a slot of a decision. -/
def place (p : NodeId) (d : Decision) (slot : Nat) (child : Option NodeId) : Builder :=
  (b.setContent p (.decision { d with children := d.children.setIfInBounds slot child })).link?
    p slot child

theorem decisionAt_eq_ok_iff {d : Decision} :
    b.decisionAt p = .ok d ↔ b.content? p = some (.decision d) := by
  rw [decisionAt, content?]
  cases hn : b.node? p with
  | none => simp
  | some n =>
    simp only [Option.bind_some, Node.decision?, Option.map_some, Option.some_inj]
    cases n.content <;> simp

theorem check_eq_ok_iff : b.check c = .ok () ↔ c < b.size := by
  rw [check]
  split <;> simp_all

theorem check?_eq_ok_iff : b.check? child = .ok () ↔ ∀ c, child = some c → c < b.size := by
  cases child with
  | none => simp [check?]
  | some c => simp [check?, check_eq_ok_iff]

theorem setChild_eq_ok_iff {b' : Builder} :
    b.setChild p slot child = .ok b' ↔
      ∃ d, b.content? p = some (.decision d) ∧ (∀ c, child = some c → c < b.size) ∧
        slot < d.children.size ∧ b' = b.place p d slot child := by
  rw [← check?_eq_ok_iff, setChild]
  simp only [bind, Except.bind, pure, Except.pure]
  constructor
  · intro h
    cases hp : b.check p with
    | error e => simp [hp] at h
    | ok _ =>
      cases hc : b.check? child with
      | error e => simp [hp, hc] at h
      | ok _ =>
        cases hd : b.decisionAt p with
        | error e => simp [hp, hc, hd] at h
        | ok d =>
          simp only [hp, hc, hd] at h
          split at h
          · next hslot =>
            exact ⟨d, b.decisionAt_eq_ok_iff.mp hd, rfl, hslot, (Except.ok.inj h).symm⟩
          · simp at h
  · rintro ⟨d, hd, hc, hslot, rfl⟩
    have hp : b.check p = .ok () := b.check_eq_ok_iff.mpr (lt_size_of_content? hd)
    rw [hp, hc, b.decisionAt_eq_ok_iff.mpr hd]
    simp only [if_pos hslot]
    rfl

variable {d : Decision}

@[simp] theorem size_place : (b.place p d slot child).size = b.size := by
  rw [place, size_link?, size_setContent]

@[simp] theorem filled_place : (b.place p d slot child).filled = b.filled := by
  rw [place, filled_link?]
  rfl

@[simp] theorem root_place : (b.place p d slot child).root = b.root := by
  rw [place, root_link?]
  rfl

@[simp] theorem schema_place : (b.place p d slot child).schema = b.schema := by
  rw [place, schema_link?]
  rfl

@[simp] theorem properties_place : (b.place p d slot child).properties = b.properties := by
  rw [place, properties_link?]
  rfl

theorem content?_place (h : p < b.size) :
    (b.place p d slot child).content? u =
      if u = p then some (.decision { d with children := d.children.setIfInBounds slot child })
      else b.content? u := by
  rw [place, content?_link?, b.content?_setContent h]

theorem parentLink?_place :
    (b.place p d slot child).parentLink? u =
      if child = some u ∧ b.parentLink? u = some (none, false) then some (some p, false)
      else b.parentLink? u := by
  rw [place, parentLink?_link?, parentLink?_setContent]

/-! ### A child in the next slot -/

/-- The builder with a child in the next slot of a decision. -/
def push (p : NodeId) (d : Decision) (child : Option NodeId) : Builder :=
  { b.place p d (b.filledSlots p) child with filled := b.filled.modify p (· + 1) }

theorem pushChild_eq_ok_iff {b' : Builder} :
    b.pushChild p child = .ok (b', slot) ↔
      ∃ d, b.content? p = some (.decision d) ∧ (∀ c, child = some c → c < b.size) ∧
        b.filledSlots p < d.children.size ∧ slot = b.filledSlots p ∧ b' = b.push p d child := by
  rw [pushChild]
  simp only [bind, Except.bind, pure, Except.pure]
  constructor
  · intro h
    cases hp : b.check p with
    | error e => simp [hp] at h
    | ok _ =>
      cases hd : b.decisionAt p with
      | error e => simp [hp, hd] at h
      | ok d =>
        simp only [hp, hd] at h
        split at h
        · simp at h
        · next hfree =>
          cases hset : b.setChild p (b.filledSlots p) child with
          | error e => simp [hset] at h
          | ok b'' =>
            obtain ⟨d', hd', hc, hslot, rfl⟩ := b.setChild_eq_ok_iff.mp hset
            -- the decision is looked up twice
            obtain rfl : d = d' := by
              have := hd'.symm.trans (b.decisionAt_eq_ok_iff.mp hd)
              simpa using this.symm
            simp only [hset, Except.ok.injEq, Prod.mk.injEq] at h
            refine ⟨d, hd', hc, hslot, h.2.symm, ?_⟩
            rw [← h.1, push, filled_place]
  · rintro ⟨d, hd, hc, hslot, rfl, rfl⟩
    have hp : b.check p = .ok () := b.check_eq_ok_iff.mpr (lt_size_of_content? hd)
    have hset : b.setChild p (b.filledSlots p) child = .ok (b.place p d (b.filledSlots p) child) :=
      b.setChild_eq_ok_iff.mpr ⟨d, hd, hc, hslot, rfl⟩
    rw [hp, b.decisionAt_eq_ok_iff.mpr hd]
    simp only [hset, if_neg (Nat.not_le.mpr hslot), filled_place]
    rfl

@[simp] theorem size_push : (b.push p d child).size = b.size := b.size_place

@[simp] theorem root_push : (b.push p d child).root = b.root := b.root_place

@[simp] theorem schema_push : (b.push p d child).schema = b.schema := b.schema_place

theorem content?_push (h : p < b.size) :
    (b.push p d child).content? u =
      if u = p then
        some (.decision { d with children := d.children.setIfInBounds (b.filledSlots p) child })
      else b.content? u :=
  b.content?_place h

theorem parentLink?_push :
    (b.push p d child).parentLink? u =
      if child = some u ∧ b.parentLink? u = some (none, false) then some (some p, false)
      else b.parentLink? u :=
  b.parentLink?_place

theorem filledSlots_push (h : p < b.filled.size) :
    (b.push p d child).filledSlots u = if u = p then b.filledSlots p + 1 else b.filledSlots u := by
  show ((b.filled.modify p _)[u]?).getD 0 = _
  rw [Array.getElem?_modify]
  by_cases hu : p = u
  · subst hu
    rw [if_pos rfl, if_pos rfl, filledSlots, Array.getElem?_eq_getElem h]
    rfl
  · rw [if_neg hu, if_neg fun h => hu h.symm]
    rfl

/-! ### Filling in order -/

/-- Slots are counted for every node, and no node has more of them filled than it
has. -/
structure InOrder : Prop where
  size_eq : b.filled.size = b.size
  filled_le : ∀ u, b.filledSlots u ≤ b.slotsOf u

/-- Number of slots that were filled in order. -/
def filledCount : Nat := ∑ u ∈ Finset.range b.size, b.filledSlots u

variable {b}

theorem InOrder.empty (s : Schema) : (empty s).InOrder := by
  constructor
  · rfl
  · intro u
    exact Nat.zero_le _

theorem filledSlots_eq_zero (h : b.InOrder) (hu : b.size ≤ u) : b.filledSlots u = 0 := by
  rw [filledSlots, Array.getElem?_eq_none (h.size_eq ▸ hu)]
  rfl

theorem InOrder.add (h : b.InOrder) : (b.add x).1.InOrder := by
  constructor
  · show (b.filled.push 0).size = _
    rw [Array.size_push, size_add, h.size_eq]
  · intro u
    rw [filledSlots_add, slotsOf, content?_add]
    by_cases hu : u = b.size
    · rw [filledSlots_eq_zero h (Nat.le_of_eq hu.symm)]
      exact Nat.zero_le _
    · rw [if_neg hu]
      exact h.filled_le u

theorem InOrder.setRoot (h : b.InOrder) : (b.setRoot c).InOrder := by
  constructor
  · rw [filled_setRoot, size_setRoot, h.size_eq]
  · intro u
    rw [slotsOf, content?_setRoot]
    exact h.filled_le u

theorem InOrder.push (h : b.InOrder) (hd : b.content? p = some (.decision d))
    (hfree : b.filledSlots p < d.children.size) : (b.push p d child).InOrder := by
  have hp := lt_size_of_content? hd
  constructor
  · show (b.filled.modify p _).size = _
    rw [Array.size_modify, size_push, h.size_eq]
  · intro u
    rw [filledSlots_push _ (h.size_eq ▸ hp), slotsOf, content?_push _ hp]
    by_cases hu : u = p
    · rw [if_pos hu, if_pos hu]
      show _ ≤ (d.children.setIfInBounds _ child).toList.length
      rw [Array.length_toList, Array.size_setIfInBounds]
      exact hfree
    · rw [if_neg hu, if_neg hu]
      exact h.filled_le u

theorem filledCount_add (h : b.InOrder) : (b.add x).1.filledCount = b.filledCount := by
  rw [filledCount, size_add, Finset.sum_range_succ, filledSlots_add,
    filledSlots_eq_zero h (Nat.le_refl _), Nat.add_zero]
  exact Finset.sum_congr rfl fun u _ => b.filledSlots_add

theorem filledCount_push (h : b.InOrder) (hp : p < b.size) :
    (b.push p d child).filledCount = b.filledCount + 1 := by
  have hstep : ∀ u, (b.push p d child).filledSlots u =
      b.filledSlots u + if u = p then 1 else 0 := by
    intro u
    rw [filledSlots_push _ (h.size_eq ▸ hp)]
    by_cases hu : u = p
    · rw [if_pos hu, if_pos hu, hu]
    · rw [if_neg hu, if_neg hu, Nat.add_zero]
  rw [filledCount, size_push, Finset.sum_congr rfl fun u _ => hstep u, Finset.sum_add_distrib,
    Finset.sum_ite_eq', if_pos (Finset.mem_range.mpr hp)]
  rfl

/-- All slots are filled if there are as many filled slots as slots. -/
theorem InOrder.filledSlots_eq (h : b.InOrder) (hcount : b.filledCount = b.slotCount)
    (hu : u < b.size) : b.filledSlots u = b.slotsOf u :=
  (Finset.sum_eq_sum_iff_of_le fun u _ => h.filled_le u).mp hcount u (Finset.mem_range.mpr hu)

end Builder

end FeatureTree
