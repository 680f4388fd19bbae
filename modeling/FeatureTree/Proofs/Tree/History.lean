/-
The history of a builder, and what the links of its nodes have to do with it.

A node is linked to the parent and slot it was first attached to, and the link stays when
the slot is filled anew or the node moves.  Attachments do not count while the node is the
root, and those from before it was made the root are forgotten.  What was attached when is
read off the history of the builder.

* `Builder.Edit`, `Builder.Trace` — the steps of a builder, and their history;
* `Builder.firstAttachment` — the attachment that counts;
* `Builder.Linked` — the links are in line with the history;
* `Builder.Linked.add`, `Builder.Linked.link`, `Builder.Linked.setRoot` — they stay so.
-/
import FeatureTree.Proofs.Tree.Routing
import Mathlib.Data.List.DropRight

namespace FeatureTree

open Arena

namespace Builder

/-! ### Steps and their history -/

/-- A step in the building of a graph.  Reopening freezes the builder and goes on with
the frozen graph. -/
inductive Edit where
  | addDecision (d : Decision)
  | addLeaf (p : Payload)
  | addGraphNode (g : GraphNode)
  | setRoot (id : NodeId)
  | setChild (parent : NodeId) (slot : Nat) (child : Option NodeId)
  | pushChild (parent : NodeId) (child : Option NodeId)
  | setGraphLeaf (parent : NodeId) (child : Option NodeId)
  | setGraphDecision (parent : NodeId) (child : Option NodeId)
  | reopen

/-- What becomes of a node: it is made the root, or it comes into a slot.  A number may be
made the root before there is such a node.  A node that comes into a slot is attached
there, unless it is the root at the time or was in the slot when the parent came. -/
inductive Event where
  | root (id : NodeId) (there : Bool)
  | fill (child parent : NodeId) (slot : Nat) (attached : Bool)
  deriving DecidableEq

namespace Event

/-- Whether a node is made the root. -/
def isRootOf (u : NodeId) : Event → Bool
  | root id _ => id == u
  | fill .. => false

/-- Whether something becomes of a node. -/
def touches (u : NodeId) : Event → Bool
  | root id _ => id == u
  | fill child .. => child == u

/-- The parent and slot that a node is attached to. -/
def attachment? (u : NodeId) : Event → Option (NodeId × Nat)
  | fill child parent slot true => if child = u then some (parent, slot) else none
  | _ => none

/-- The number that is made the root, and whether there is such a node. -/
def chosen? : Event → Option (NodeId × Bool)
  | root id there => some (id, there)
  | fill .. => none

end Event

/-- The parent and slot of the first attachment of a node, not counting those from before
it was last made the root. -/
def firstAttachment (u : NodeId) (log : List Event) : Option (NodeId × Nat) :=
  (log.rtakeWhile (!·.isRootOf u)).findSome? (·.attachment? u)

/-- The number that was last made the root, and whether there was such a node. -/
def lastChosen (log : List Event) : Option (NodeId × Bool) := log.reverse.findSome? (·.chosen?)

variable (b : Builder)

/-- Whether a node is there and is not the root. -/
def linkable (c : NodeId) : Bool := (b.node? c).any (!·.isRoot)

/-- The attachment of a child, if there is one. -/
def fills (parent : NodeId) (slot : Nat) (child : Option NodeId) : List Event :=
  (child.map fun c => .fill c parent slot (b.linkable c)).toList

/-- The children that a decision has when it comes. -/
def brought (id : NodeId) (d : Decision) : List Event :=
  d.children.toList.zipIdx.filterMap fun place => place.1.map (.fill · id place.2 false)

/-- A builder and what became of its nodes so far. -/
structure Trace where
  builder : Builder
  log : List Event

namespace Trace

variable (t : Trace)

/-- The trace after a child was put into a slot, or after the attempt. -/
def attach (parent : NodeId) (slot : Nat) (child : Option NodeId)
    (result : Except GraphError Builder) : Trace :=
  match result with
  | .ok b => ⟨b, t.log ++ t.builder.fills parent slot child⟩
  | .error _ => t

/-- The trace after a step.  A step that fails changes nothing. -/
def step : Edit → Trace
  | .addDecision d => ⟨(t.builder.addDecision d).1, t.log ++ brought t.builder.size d⟩
  | .addLeaf p => { t with builder := (t.builder.addLeaf p).1 }
  | .addGraphNode g =>
    let added := (t.builder.add (.graph g)).1
    ⟨(t.builder.addGraphNode g).1,
      t.log ++ added.fills t.builder.size 0 g.leaf ++ added.fills t.builder.size 1 g.decision⟩
  | .setRoot id => ⟨t.builder.setRoot id, t.log ++ [.root id (id < t.builder.size)]⟩
  | .setChild parent slot child =>
    t.attach parent slot child (t.builder.setChild parent slot child)
  | .pushChild parent child =>
    t.attach parent (t.builder.filledSlots parent) child
      ((t.builder.pushChild parent child).map Prod.fst)
  | .setGraphLeaf parent child => t.attach parent 0 child (t.builder.setGraphLeaf parent child)
  | .setGraphDecision parent child =>
    t.attach parent 1 child (t.builder.setGraphDecision parent child)
  | .reopen =>
    match t.builder.finish with
    | .ok g => { t with builder := .ofArena g.arena }
    | .error _ => t

/-- The trace of a sequence of steps from the empty builder. -/
def run (s : Schema) (es : List Edit) : Trace := es.foldl step ⟨empty s, []⟩

end Trace

/-! ### Histories -/

section History

variable {log : List Event} {u c p : NodeId} {slot : Nat}

@[simp] theorem firstAttachment_nil : firstAttachment u [] = none := rfl

theorem firstAttachment_concat (e : Event) :
    firstAttachment u (log ++ [e]) =
      if e.isRootOf u then none else (firstAttachment u log).or (e.attachment? u) := by
  rw [firstAttachment, List.rtakeWhile_concat]
  cases e.isRootOf u with
  | true => rfl
  | false =>
    simp only [Bool.not_false, if_true, List.findSome?_append, List.findSome?_cons,
      List.findSome?_nil, Bool.false_eq_true, if_false, firstAttachment]
    cases e.attachment? u <;> rfl

theorem firstAttachment_root (there : Bool) :
    firstAttachment u (log ++ [.root c there]) =
      if c = u then none else firstAttachment u log := by
  rw [firstAttachment_concat]
  by_cases h : c = u
  · simp [Event.isRootOf, h]
  · simp [Event.isRootOf, Event.attachment?, h]

theorem firstAttachment_fill (attached : Bool) :
    firstAttachment u (log ++ [.fill c p slot attached]) =
      (firstAttachment u log).or (if c = u ∧ attached = true then some (p, slot) else none) := by
  rw [firstAttachment_concat]
  cases attached <;> simp [Event.isRootOf, Event.attachment?]

/-- Only what becomes of a node counts for its first attachment. -/
theorem firstAttachment_filter (log : List Event) (u : NodeId) :
    firstAttachment u (log.filter (·.touches u)) = firstAttachment u log := by
  induction log using List.reverseRecOn with
  | nil => rfl
  | append_singleton log e ih =>
    rw [List.filter_append]
    by_cases h : e.touches u
    · rw [List.filter_cons_of_pos h, List.filter_nil, firstAttachment_concat,
        firstAttachment_concat, ih]
    · rw [List.filter_cons_of_neg h, List.filter_nil, List.append_nil, ih]
      cases e with
      | root id there =>
        rw [firstAttachment_root, if_neg fun heq => h (by simp [Event.touches, heq])]
      | fill child parent slot attached =>
        rw [firstAttachment_fill, if_neg fun heq => h (by simp [Event.touches, heq.1]),
          Option.or_none]

theorem lastChosen_concat (e : Event) :
    lastChosen (log ++ [e]) = e.chosen?.or (lastChosen log) := by
  rw [lastChosen, List.reverse_append, List.reverse_singleton, List.singleton_append,
    List.findSome?_cons, lastChosen]
  cases e.chosen? <;> rfl

end History

/-! ### The nodes after a step -/

section Nodes

variable {b : Builder} {u p c : NodeId} {slot : Nat} {x : NodeContent}

theorem node?_add :
    (b.add x).1.node? u = if u = b.size then some { content := x } else b.node? u :=
  Array.getElem?_push

theorem node?_setContent :
    (b.setContent p x).node? u =
      (b.node? u).map fun n => if p = u then { n with content := x } else n := by
  show (b.nodes.modify p _)[u]? = _
  rw [Array.getElem?_modify]
  by_cases h : p = u
  · simp only [h, if_true]
    rfl
  · simp only [h, if_false]
    exact (Option.map_id' ..).symm

theorem node?_link :
    (b.link p slot c).node? u = (b.node? u).map fun n =>
      if c = u ∧ n.mother = none ∧ n.isRoot = false then { n with mother := some p, index := slot }
      else n := by
  show (b.nodes.modify c _)[u]? = _
  rw [Array.getElem?_modify]
  by_cases h : c = u
  · simp only [h, if_true, true_and, Bool.and_eq_true, Option.isNone_iff_eq_none,
      Bool.not_eq_true']
    rfl
  · simp only [h, if_false, false_and]
    exact (Option.map_id' ..).symm

theorem node?_setRoot :
    (b.setRoot c).node? u = (b.node? u).map fun n =>
      if c = u then { n with isRoot := true, mother := none }
      else if b.root = some u then { n with isRoot := false } else n := by
  rw [node?, setRoot]
  cases hroot : b.root with
  | none =>
    show (b.nodes.modify c _)[u]? = _
    rw [Array.getElem?_modify]
    by_cases h : c = u
    · simp only [h, if_true]
      rfl
    · simp only [h, if_false, reduceCtorEq]
      exact (Option.map_id' ..).symm
  | some old =>
    show ((b.nodes.modify old _).modify c _)[u]? = _
    rw [Array.getElem?_modify, Array.getElem?_modify]
    by_cases h : c = u <;> by_cases ho : old = u <;>
      simp [h, ho, node?, Function.comp_def]

end Nodes

/-! ### Links and history -/

/-- The links of a builder are in line with its history: a node knows the parent and slot
of its first attachment, the root has no parent, and it is the node last chosen. -/
structure Linked (b : Builder) (log : List Event) : Prop where
  mother : ∀ u n, b.node? u = some n → n.mother = (firstAttachment u log).map Prod.fst
  index : ∀ u n p slot, b.node? u = some n → firstAttachment u log = some (p, slot) →
    n.index = slot
  root : b.root = (lastChosen log).map Prod.fst
  isRoot : ∀ u n, b.node? u = some n → (n.isRoot = true ↔ lastChosen log = some (u, true))
  orphan : ∀ u n, b.node? u = some n → n.isRoot = true → n.mother = none
  fresh : ∀ u, b.size ≤ u → firstAttachment u log = none
  chosen_lt : ∀ u, lastChosen log = some (u, true) → u < b.size

namespace Linked

variable {b b' : Builder} {log : List Event} {u p c : NodeId} {slot : Nat} {x : NodeContent}

theorem start (s : Schema) : Linked (empty s) [] where
  mother := fun u n hn => absurd hn (by simp [empty, node?])
  index := fun u n _ _ hn => absurd hn (by simp [empty, node?])
  root := rfl
  isRoot := fun u n hn => absurd hn (by simp [empty, node?])
  orphan := fun u n hn => absurd hn (by simp [empty, node?])
  fresh := fun _ _ => rfl
  chosen_lt := fun u hu => absurd hu (by simp [lastChosen])

variable (h : b.Linked log)
include h

/-- Contents and counts do not matter for links. -/
theorem congr (hroot : b'.root = b.root) (hsize : b'.size = b.size)
    (hnode : ∀ u n', b'.node? u = some n' → ∃ n, b.node? u = some n ∧ n'.mother = n.mother ∧
      n'.index = n.index ∧ n'.isRoot = n.isRoot) : b'.Linked log where
  mother := by
    intro u n' hn'
    obtain ⟨n, hn, hm, -, -⟩ := hnode u n' hn'
    rw [hm, h.mother u n hn]
  index := by
    intro u n' p slot hn' hfirst
    obtain ⟨n, hn, -, hi, -⟩ := hnode u n' hn'
    rw [hi, h.index u n p slot hn hfirst]
  root := hroot.trans h.root
  isRoot := by
    intro u n' hn'
    obtain ⟨n, hn, -, -, hr⟩ := hnode u n' hn'
    rw [hr, h.isRoot u n hn]
  orphan := by
    intro u n' hn'
    obtain ⟨n, hn, hm, -, hr⟩ := hnode u n' hn'
    rw [hm, hr]
    exact h.orphan u n hn
  fresh := fun u hu => h.fresh u (hsize ▸ hu)
  chosen_lt := fun u hu => hsize ▸ h.chosen_lt u hu

theorem setContent : (b.setContent p x).Linked log := by
  refine h.congr rfl b.size_setContent fun u n' hn' => ?_
  rw [node?_setContent] at hn'
  obtain ⟨n, hn, rfl⟩ := Option.map_eq_some_iff.mp hn'
  refine ⟨n, hn, ?_⟩
  split <;> exact ⟨rfl, rfl, rfl⟩

/-- What becomes of other nodes does not matter for the links either. -/
theorem of_log {log' : List Event} (hfirst : ∀ u, firstAttachment u log' = firstAttachment u log)
    (hchosen : lastChosen log' = lastChosen log) : b.Linked log' where
  mother := fun u n hn => by rw [hfirst, h.mother u n hn]
  index := fun u n p slot hn hf => h.index u n p slot hn (hfirst u ▸ hf)
  root := by rw [hchosen, h.root]
  isRoot := fun u n hn => by rw [hchosen, h.isRoot u n hn]
  orphan := h.orphan
  fresh := fun u hu => by rw [hfirst, h.fresh u hu]
  chosen_lt := fun u hu => h.chosen_lt u (hchosen ▸ hu)

/-- A new number was never attached, and it was not there when it was made the root. -/
theorem add : (b.add x).1.Linked log := by
  have hcases : ∀ {u n}, (b.add x).1.node? u = some n →
      (u = b.size ∧ n = { content := x }) ∨ b.node? u = some n := by
    intro u n hn
    rw [node?_add] at hn
    split at hn
    · next hu => exact .inl ⟨hu, (Option.some_inj.mp hn).symm⟩
    · exact .inr hn
  refine
    { mother := ?_, index := ?_, root := h.root, isRoot := ?_, orphan := ?_, fresh := ?_,
      chosen_lt := ?_ }
  · intro u n hn
    rcases hcases hn with ⟨rfl, rfl⟩ | hn
    · rw [h.fresh _ le_rfl]
      rfl
    · exact h.mother u n hn
  · intro u n p slot hn hfirst
    rcases hcases hn with ⟨rfl, rfl⟩ | hn
    · rw [h.fresh _ le_rfl] at hfirst
      exact absurd hfirst (by simp)
    · exact h.index u n p slot hn hfirst
  · intro u n hn
    rcases hcases hn with ⟨rfl, rfl⟩ | hn
    · exact ⟨fun hr => absurd hr (by simp), fun hr => absurd (h.chosen_lt _ hr) (Nat.lt_irrefl _)⟩
    · exact h.isRoot u n hn
  · intro u n hn hr
    rcases hcases hn with ⟨rfl, rfl⟩ | hn
    · rfl
    · exact h.orphan u n hn hr
  · intro u hu
    rw [size_add] at hu
    exact h.fresh u (Nat.le_of_succ_le hu)
  · intro u hu
    rw [size_add]
    exact Nat.lt_succ_of_lt (h.chosen_lt u hu)

/-- Linking a child is its attachment: the first one is kept. -/
theorem link : (b.link p slot c).Linked (log ++ [.fill c p slot (b.linkable c)]) := by
  have hchosen : lastChosen (log ++ [.fill c p slot (b.linkable c)]) = lastChosen log := by
    rw [lastChosen_concat]
    rfl
  have hfirst : ∀ u n, b.node? u = some n →
      firstAttachment u (log ++ [.fill c p slot (b.linkable c)]) =
        if c = u ∧ n.mother = none ∧ n.isRoot = false then some (p, slot)
        else firstAttachment u log := by
    intro u n hn
    have hmother := h.mother u n hn
    rw [firstAttachment_fill]
    by_cases hc : c = u
    · subst hc
      have hlinkable : b.linkable c = !n.isRoot := by
        rw [linkable, hn]
        rfl
      rw [hlinkable, hmother]
      cases firstAttachment c log <;> cases n.isRoot <;> simp
    · simp [hc]
  have hcases : ∀ {u n'}, (b.link p slot c).node? u = some n' → ∃ n, b.node? u = some n ∧
      n' = if c = u ∧ n.mother = none ∧ n.isRoot = false then
        { n with mother := some p, index := slot } else n := by
    intro u n' hn'
    rw [node?_link] at hn'
    obtain ⟨n, hn, rfl⟩ := Option.map_eq_some_iff.mp hn'
    exact ⟨n, hn, rfl⟩
  have hsize : (b.link p slot c).size = b.size := Array.size_modify ..
  refine
    { mother := ?_, index := ?_, root := hchosen ▸ h.root, isRoot := ?_, orphan := ?_,
      fresh := ?_, chosen_lt := fun u hu => hsize ▸ h.chosen_lt u (hchosen ▸ hu) }
  · intro u n' hn'
    obtain ⟨n, hn, rfl⟩ := hcases hn'
    rw [hfirst u n hn]
    split
    · rfl
    · exact h.mother u n hn
  · intro u n' q i hn' hq
    obtain ⟨n, hn, rfl⟩ := hcases hn'
    rw [hfirst u n hn] at hq
    split at hq
    · next hlink =>
      rw [if_pos hlink]
      exact (Prod.mk.inj (Option.some_inj.mp hq)).2
    · next hlink =>
      rw [if_neg hlink]
      exact h.index u n q i hn hq
  · intro u n' hn'
    obtain ⟨n, hn, rfl⟩ := hcases hn'
    rw [hchosen, ← h.isRoot u n hn]
    split <;> rfl
  · intro u n' hn' hr
    obtain ⟨n, hn, rfl⟩ := hcases hn'
    split at hr
    · next hlink => exact absurd hr (by simp [hlink.2.2])
    · next hlink =>
      rw [if_neg hlink]
      exact h.orphan u n hn hr
  · intro u hu
    rw [hsize] at hu
    have hnot : ¬ (c = u ∧ b.linkable c = true) := by
      rintro ⟨rfl, hc⟩
      rw [linkable, Option.any_eq_true] at hc
      obtain ⟨n, hn, -⟩ := hc
      exact absurd (lt_of_node? hn) (Nat.not_lt.mpr hu)
    rw [firstAttachment_fill, if_neg hnot, Option.or_none, h.fresh u hu]

theorem link? (child : Option NodeId) :
    (b.link? p slot child).Linked (log ++ b.fills p slot child) := by
  cases child with
  | none =>
    rw [fills, Option.map_none, Option.toList_none, List.append_nil]
    exact h
  | some c => exact h.link

/-- The new root forgets its attachments, and the old one is a node like others again. -/
theorem setRoot : (b.setRoot c).Linked (log ++ [.root c (c < b.size)]) := by
  have hchosen : lastChosen (log ++ [.root c (c < b.size)]) = some (c, decide (c < b.size)) := by
    rw [lastChosen_concat]
    rfl
  have hcases : ∀ {u n'}, (b.setRoot c).node? u = some n' → ∃ n, b.node? u = some n ∧
      n' = if c = u then { n with isRoot := true, mother := none }
        else if b.root = some u then { n with isRoot := false } else n := by
    intro u n' hn'
    rw [node?_setRoot] at hn'
    obtain ⟨n, hn, rfl⟩ := Option.map_eq_some_iff.mp hn'
    exact ⟨n, hn, rfl⟩
  refine
    { mother := ?_, index := ?_, root := by rw [hchosen]; rfl, isRoot := ?_, orphan := ?_,
      fresh := ?_, chosen_lt := ?_ }
  · intro u n' hn'
    obtain ⟨n, hn, rfl⟩ := hcases hn'
    rw [firstAttachment_root]
    split
    · rfl
    · rw [← h.mother u n hn]
      split <;> rfl
  · intro u n' p slot hn' hfirst
    obtain ⟨n, hn, rfl⟩ := hcases hn'
    rw [firstAttachment_root] at hfirst
    split at hfirst
    · exact absurd hfirst (by simp)
    · next hu =>
      rw [if_neg hu, ← h.index u n p slot hn hfirst]
      split <;> rfl
  · intro u n' hn'
    obtain ⟨n, hn, rfl⟩ := hcases hn'
    rw [hchosen]
    by_cases hu : c = u
    · subst hu
      simp [lt_of_node? hn]
    · -- the mark of the root goes away where the root was
      have hroot := h.isRoot u n hn
      simp only [hu, if_false, Option.some.injEq, Prod.mk.injEq, false_and, iff_false]
      split
      · simp
      · next hne =>
        rw [hroot]
        intro hlast
        exact hne (by rw [h.root, hlast]; rfl)
  · intro u n' hn' hr
    obtain ⟨n, hn, rfl⟩ := hcases hn'
    split at hr
    · next hu => rw [if_pos hu]
    · next hu =>
      rw [if_neg hu]
      split at hr
      · exact absurd hr (by simp)
      · next hne =>
        rw [if_neg hne]
        exact h.orphan u n hn hr
  · intro u hu
    rw [size_setRoot] at hu
    rw [firstAttachment_root, h.fresh u hu, ite_self]
  · intro u hu
    rw [hchosen, Option.some_inj, Prod.mk.injEq] at hu
    rw [size_setRoot, ← hu.1]
    exact of_decide_eq_true hu.2

/-- Children that a decision brings with it are not attached. -/
theorem brought (id : NodeId) (d : Decision) : b.Linked (log ++ brought id d) := by
  have hnone : ∀ es : List Event, (∀ e ∈ es, ∃ c p slot, e = .fill c p slot false) →
      (∀ u, firstAttachment u (log ++ es) = firstAttachment u log) ∧
        lastChosen (log ++ es) = lastChosen log := by
    intro es
    induction es using List.reverseRecOn with
    | nil => exact fun _ => ⟨fun u => by rw [List.append_nil], by rw [List.append_nil]⟩
    | append_singleton es e ih =>
      intro hes
      obtain ⟨hfirst, hchosen⟩ := ih fun e he => hes e (List.mem_append_left _ he)
      obtain ⟨c, p, slot, rfl⟩ := hes e (by simp)
      rw [← List.append_assoc]
      exact ⟨fun u => by rw [firstAttachment_fill]; simp [hfirst],
        by rw [lastChosen_concat, hchosen]; rfl⟩
  obtain ⟨hfirst, hchosen⟩ := hnone (Builder.brought id d) fun e he => by
    obtain ⟨place, -, hplace⟩ := List.mem_filterMap.mp he
    obtain ⟨c, -, rfl⟩ := Option.map_eq_some_iff.mp hplace
    exact ⟨c, id, place.2, rfl⟩
  exact h.of_log hfirst hchosen

end Linked

end Builder

end FeatureTree
