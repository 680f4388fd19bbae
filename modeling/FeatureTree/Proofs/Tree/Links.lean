/-
The links from the nodes of a graph to their parents.

* `Builder.Trace.Faithful.step` — every step keeps links and slots in line with the history;
* `Arena.Way` — the slots on the way from the root to a node;
* `Arena.Way.depth_eq`, `Arena.Way.decisionPath_eq` — depth and decision path where the
  links agree with the slots;
* `Builder.Trace.links_of_finish` — the links of a frozen graph.
-/
import FeatureTree.Proofs.Tree.History

namespace FeatureTree

open Arena

namespace Builder

/-! ### Slots and history -/

/-- Whatever a slot holds came into it. -/
def Filled (b : Builder) (log : List Event) : Prop :=
  ∀ p slot u, b.HeldAt p slot u → ∃ attached, Event.fill u p slot attached ∈ log

section Slots

variable {b b' : Builder} {log : List Event} {p q c u : NodeId} {slot i : Nat} {x : NodeContent}
  {child : Option NodeId}

theorem heldAt_add (h : (b.add x).1.HeldAt q i u) :
    b.HeldAt q i u ∨ q = b.size ∧ x.children[i]? = some (some u) := by
  obtain ⟨y, hy, hu⟩ := h
  rw [content?_add] at hy
  split at hy
  · next hq => exact .inr ⟨hq, Option.some_inj.mp hy ▸ hu⟩
  · exact .inl ⟨y, hy, hu⟩

theorem mem_brought {id : NodeId} {d : Decision} :
    Event.fill u p i false ∈ brought id d ↔ p = id ∧ d.children.toList[i]? = some (some u) := by
  rw [brought, List.mem_filterMap]
  constructor
  · rintro ⟨⟨place, j⟩, hmem, heq⟩
    obtain ⟨c, rfl, hfill⟩ := Option.map_eq_some_iff.mp heq
    obtain ⟨rfl, rfl, rfl⟩ : c = u ∧ id = p ∧ j = i := by simpa using hfill
    exact ⟨rfl, List.mem_zipIdx_iff_getElem?.mp hmem⟩
  · rintro ⟨rfl, hi⟩
    exact ⟨(some u, i), List.mem_zipIdx_iff_getElem?.mpr hi, rfl⟩

theorem mem_fills (hc : child = some u) :
    Event.fill u p slot (b.linkable u) ∈ b.fills p slot child := by
  simp [fills, hc]

/-- A child was put into one slot of a node: the other slots hold what they held, and the
child was linked. -/
def Attaches (b : Builder) (p : NodeId) (slot : Nat) (child : Option NodeId) (b' : Builder) :
    Prop :=
  ∃ x x', b.content? p = some x ∧
    (∀ i u, x'.children[i]? = some (some u) →
      i = slot ∧ child = some u ∨ x.children[i]? = some (some u)) ∧
    b'.toArena = ((b.setContent p x').link? p slot child).toArena

theorem attaches_of_place {d : Decision} (hd : b.content? p = some (.decision d))
    (hb : b'.toArena = (b.place p d slot child).toArena) : b.Attaches p slot child b' := by
  refine ⟨_, _, hd, fun i u hu => ?_, hb⟩
  rw [NodeContent.children, Array.getElem?_toList, Array.getElem?_setIfInBounds] at hu
  split at hu
  · next h =>
    split at hu
    · exact .inl ⟨h.symm, Option.some_inj.mp hu⟩
    · exact absurd hu (by simp)
  · exact .inr (by rwa [NodeContent.children, Array.getElem?_toList])

theorem attaches_of_setChild (h : b.setChild p slot child = .ok b') :
    b.Attaches p slot child b' := by
  obtain ⟨d, hd, -, -, rfl⟩ := b.setChild_eq_ok_iff.mp h
  exact attaches_of_place hd rfl

theorem attaches_of_pushChild (h : b.pushChild p child = .ok (b', slot)) :
    slot = b.filledSlots p ∧ b.Attaches p slot child b' := by
  obtain ⟨d, hd, -, -, rfl, rfl⟩ := b.pushChild_eq_ok_iff.mp h
  exact ⟨rfl, attaches_of_place hd rfl⟩

theorem setGraphChild_cases {place : GraphNode → GraphNode}
    (h : b.setGraphChild p slot place child = .ok b') :
    ∃ g, b.content? p = some (.graph g) ∧
      b' = (b.setContent p (.graph (place g))).link? p slot child := by
  rw [setGraphChild] at h
  obtain ⟨-, -, h⟩ := bind_eq_ok_iff.mp h
  obtain ⟨-, -, h⟩ := bind_eq_ok_iff.mp h
  split at h
  · next g hg => exact ⟨g, hg, (Except.ok.inj h).symm⟩
  · exact absurd h (by simp)

theorem attaches_of_setGraphLeaf (h : b.setGraphLeaf p child = .ok b') :
    b.Attaches p 0 child b' := by
  obtain ⟨g, hg, rfl⟩ := setGraphChild_cases h
  refine ⟨_, _, hg, fun i u hu => ?_, rfl⟩
  match i, hu with
  | 0, hu => exact .inl ⟨rfl, Option.some_inj.mp hu⟩
  | 1, hu => exact .inr hu

theorem attaches_of_setGraphDecision (h : b.setGraphDecision p child = .ok b') :
    b.Attaches p 1 child b' := by
  obtain ⟨g, hg, rfl⟩ := setGraphChild_cases h
  refine ⟨_, _, hg, fun i u hu => ?_, rfl⟩
  match i, hu with
  | 0, hu => exact .inr hu
  | 1, hu => exact .inl ⟨rfl, Option.some_inj.mp hu⟩

theorem linkable_setContent : (b.setContent p x).linkable c = b.linkable c := by
  rw [linkable, linkable, node?_setContent]
  cases b.node? c with
  | none => rfl
  | some n =>
    simp only [Option.map_some, Option.any_some]
    split <;> rfl

theorem linkable_link? : (b.link? p slot child).linkable c = b.linkable c := by
  cases child with
  | none => rfl
  | some u =>
    show (b.link p slot u).linkable c = _
    rw [linkable, linkable, node?_link]
    cases b.node? c with
    | none => rfl
    | some n =>
      simp only [Option.map_some, Option.any_some]
      split <;> rfl

theorem fills_congr (h : ∀ c, b'.linkable c = b.linkable c) :
    b'.fills p slot child = b.fills p slot child := by
  rw [fills, fills]
  simp only [h]

theorem Linked.attach (h : b.Linked log) (hb : b.Attaches p slot child b') :
    b'.Linked (log ++ b.fills p slot child) := by
  obtain ⟨x, x', -, -, heq⟩ := hb
  have hlink : ((b.setContent p x').link? p slot child).Linked
      (log ++ (b.setContent p x').fills p slot child) := h.setContent.link? child
  rw [fills_congr fun c => linkable_setContent] at hlink
  refine hlink.congr (by rw [heq]) (by rw [heq]) fun u n hn => ⟨n, ?_, rfl, rfl, rfl⟩
  rwa [← heq]

theorem Filled.attach (h : b.Filled log) (hb : b.Attaches p slot child b') :
    b'.Filled (log ++ b.fills p slot child) := by
  obtain ⟨x, x', hx, hslots, heq⟩ := hb
  intro q i u hu
  obtain ⟨y, hy, hu⟩ := hu
  rw [heq, content?_link?, content?_setContent _ (lt_size_of_content? hx)] at hy
  -- a slot of another node, or one that was not touched
  have hkept : b.HeldAt q i u →
      ∃ attached, Event.fill u q i attached ∈ log ++ b.fills p slot child := by
    intro hheld
    obtain ⟨attached, hmem⟩ := h q i u hheld
    exact ⟨attached, List.mem_append_left _ hmem⟩
  split at hy
  · next hq =>
    obtain rfl := Option.some_inj.mp hy
    rcases hslots i u hu with ⟨rfl, hc⟩ | hold
    · rw [hq]
      exact ⟨_, List.mem_append_right _ (mem_fills hc)⟩
    · exact hkept ⟨x, hq ▸ hx, hold⟩
  · exact hkept ⟨y, hy, hu⟩

end Slots

/-! ### Every step, and every run -/

/-- The links and the slots of a trace are in line with its history. -/
structure Trace.Faithful (t : Trace) : Prop where
  linked : t.builder.Linked t.log
  filled : t.builder.Filled t.log

namespace Trace.Faithful

variable {t : Trace} (h : t.Faithful)
include h

theorem attach {p : NodeId} {slot : Nat} {child : Option NodeId}
    {result : Except GraphError Builder}
    (hresult : ∀ b, result = .ok b → t.builder.Attaches p slot child b) :
    (t.attach p slot child result).Faithful := by
  cases result with
  | error e => exact h
  | ok b => exact ⟨h.linked.attach (hresult b rfl), h.filled.attach (hresult b rfl)⟩

theorem addDecision (d : Decision) : (t.step (.addDecision d)).Faithful where
  linked := h.linked.add.brought t.builder.size d
  filled := by
    intro p i u hu
    rcases heldAt_add hu with hu | ⟨hp, hu⟩
    · obtain ⟨attached, hmem⟩ := h.filled p i u hu
      exact ⟨attached, List.mem_append_left _ hmem⟩
    · exact ⟨false, List.mem_append_right _ (mem_brought.mpr ⟨hp, hu⟩)⟩

theorem addLeaf (p : Payload) : (t.step (.addLeaf p)).Faithful where
  linked := h.linked.add
  filled := by
    intro q i u hu
    rcases heldAt_add hu with hu | ⟨-, hu⟩
    · exact h.filled q i u hu
    · exact absurd hu (by simp [NodeContent.children])

theorem addGraphNode (g : GraphNode) : (t.step (.addGraphNode g)).Faithful where
  linked := by
    have hleaf : ((t.builder.add (.graph g)).1.link? t.builder.size 0 g.leaf).Linked
        (t.log ++ (t.builder.add (.graph g)).1.fills t.builder.size 0 g.leaf) :=
      h.linked.add.link? g.leaf
    have hdecision : (t.step (.addGraphNode g)).builder.Linked _ := hleaf.link? g.decision
    rwa [fills_congr fun c => linkable_link?] at hdecision
  filled := by
    intro p i u hu
    obtain ⟨y, hy, hiu⟩ := hu
    rw [show (t.step (.addGraphNode g)).builder.content? p = _ from
      (content?_link? _).trans (content?_link? _)] at hy
    rcases heldAt_add ⟨y, hy, hiu⟩ with hu | ⟨rfl, hu⟩
    · obtain ⟨attached, hmem⟩ := h.filled p i u hu
      exact ⟨attached, List.mem_append_left _ (List.mem_append_left _ hmem)⟩
    · match i, hu with
      | 0, hu =>
        exact ⟨_, List.mem_append_left _ (List.mem_append_right _
          (mem_fills (Option.some_inj.mp hu)))⟩
      | 1, hu => exact ⟨_, List.mem_append_right _ (mem_fills (Option.some_inj.mp hu))⟩

theorem setRoot (id : NodeId) : (t.step (.setRoot id)).Faithful where
  linked := h.linked.setRoot
  filled := by
    rintro p i u ⟨y, hy, hu⟩
    obtain ⟨attached, hmem⟩ := h.filled p i u ⟨y, (content?_setRoot _).symm.trans hy, hu⟩
    exact ⟨attached, List.mem_append_left _ hmem⟩

theorem reopen : (t.step .reopen).Faithful := by
  rw [step]
  cases hg : t.builder.finish with
  | error e => exact h
  | ok g =>
    obtain ⟨count, -, heq⟩ := tallies_of_freeze (Graph.ofArena?_eq_ok_iff.mp hg)
    have hcontent : ∀ u, g.arena.content? u = t.builder.content? u := by
      rw [heq]
      exact Arena.content?_recount _ count
    have hroot : g.arena.root = t.builder.root := by
      rw [heq]
      rfl
    refine ⟨h.linked.congr hroot (size_eq_of_content hcontent) fun u n' hn' => ?_, ?_⟩
    · change g.arena.node? u = some n' at hn'
      rw [heq, node?_recount] at hn'
      obtain ⟨n, hn, rfl⟩ := Option.map_eq_some_iff.mp hn'
      exact ⟨n, hn, rfl, rfl, rfl⟩
    · rintro p i u ⟨y, hy, hu⟩
      exact h.filled p i u ⟨y, (hcontent p).symm.trans hy, hu⟩

/-- Every step keeps a trace faithful. -/
theorem step (e : Edit) : (t.step e).Faithful := by
  cases e with
  | addDecision d => exact h.addDecision d
  | addLeaf p => exact h.addLeaf p
  | addGraphNode g => exact h.addGraphNode g
  | setRoot id => exact h.setRoot id
  | setChild p slot child => exact h.attach fun b hb => attaches_of_setChild hb
  | pushChild p child =>
    refine h.attach fun b hb => ?_
    obtain ⟨⟨b', slot⟩, hpush, rfl⟩ := map_eq_ok_iff.mp hb
    obtain ⟨rfl, hattach⟩ := attaches_of_pushChild hpush
    exact hattach
  | setGraphLeaf p child => exact h.attach fun b hb => attaches_of_setGraphLeaf hb
  | setGraphDecision p child => exact h.attach fun b hb => attaches_of_setGraphDecision hb
  | reopen => exact h.reopen

end Trace.Faithful

theorem Trace.faithful_run (s : Schema) (es : List Edit) : (run s es).Faithful := by
  rw [run]
  induction es using List.reverseRecOn with
  | nil =>
    refine ⟨.start s, fun p i u hu => ?_⟩
    obtain ⟨y, hy, -⟩ := hu
    exact absurd hy (by simp)
  | append_singleton es e ih =>
    rw [List.foldl_append]
    exact ih.step e

end Builder

/-! ### The way up and the way down -/

namespace Arena

/-- A way from the root down to a node: the nodes it leaves, each with the slot through
which it does. -/
inductive Way (a : Arena) (root : NodeId) : List (NodeId × Nat) → NodeId → Prop
  | start : a.Way root [] root
  | step {steps : List (NodeId × Nat)} {p u : NodeId} {slot : Nat} :
      a.Way root steps p → a.HeldAt p slot u → a.Way root (steps ++ [(p, slot)]) u

/-- The outcome of a decision that leads through a slot. -/
def outcome (a : Arena) (step : NodeId × Nat) : String :=
  match a.content? step.1 with
  | some (.decision d) => d.describeBranch a.schema step.2
  | _ => ""

/-- The links agree with the slots: every node is linked to the slot that holds it, and
the root to none. -/
structure LinksAgree (a : Arena) (root : NodeId) : Prop where
  orphan : ∀ n, a.node? root = some n → n.mother = none
  linked : ∀ p slot u n, a.HeldAt p slot u → a.node? u = some n →
    n.mother = some p ∧ n.index = slot

variable {a : Arena} {root u : NodeId} {steps : List (NodeId × Nat)}

theorem exists_way (h : a.Reaches root u) : ∃ steps, a.Way root steps u := by
  induction h with
  | refl => exact ⟨[], .start⟩
  | tail _ hpc ih =>
    obtain ⟨steps, hsteps⟩ := ih
    obtain ⟨slot, hslot⟩ := exists_heldAt hpc
    exact ⟨_, hsteps.step hslot⟩

namespace Way

variable (w : a.WellFormed root)
include w

theorem exists_node? (h : a.Way root steps u) : ∃ n, a.node? u = some n := by
  rw [exists_node?_iff]
  cases h with
  | start => exact w.root_lt
  | step _ hslot => exact w.child_lt _ _ hslot.holds

/-- With every step fewer nodes lie below. -/
theorem length_add_rank_le (h : a.Way root steps u) : steps.length + a.rank u ≤ a.rank root := by
  induction h with
  | start => exact Nat.le_of_eq (Nat.zero_add _)
  | step _ hslot ih =>
    have := rank_lt_of_holds w.acyclic hslot.holds
    rw [List.length_append, List.length_singleton]
    omega

theorem length_lt_size (h : a.Way root steps u) : steps.length < a.size := by
  obtain ⟨n, hn⟩ := h.exists_node? w
  have hlength := h.length_add_rank_le w
  have hpos := rank_pos (lt_of_node? hn)
  have hle := a.rank_le_size root
  omega

/-- Where no two slots hold the same node, no two ways lead to it. -/
theorem eq_of_heldAt
    (hone : ∀ p q slot i u, a.HeldAt p slot u → a.HeldAt q i u → p = q ∧ slot = i)
    (h : a.Way root steps u) :
    ∀ {steps' : List (NodeId × Nat)}, a.Way root steps' u → steps' = steps := by
  induction h with
  | start =>
    intro steps' h'
    cases h' with
    | start => rfl
    | step _ hslot =>
      exact absurd hslot.holds (w.not_holds_root _)
  | @step steps p u slot h hslot ih =>
    intro steps' h'
    cases h' with
    | start => exact absurd hslot.holds (w.not_holds_root _)
    | @step steps' q _ i h' hslot' =>
      obtain ⟨rfl, rfl⟩ := hone p q slot i u hslot hslot'
      rw [ih h']

variable (hagree : a.LinksAgree root)
include hagree

theorem unique (h : a.Way root steps u) :
    ∀ {steps' : List (NodeId × Nat)}, a.Way root steps' u → steps' = steps := by
  refine h.eq_of_heldAt w fun p q slot i u hslot hslot' => ?_
  obtain ⟨n, hn⟩ := exists_node?_iff.mpr (w.child_lt p u hslot.holds)
  obtain ⟨hp, hi⟩ := hagree.linked p slot u n hslot hn
  obtain ⟨hq, hj⟩ := hagree.linked q i u n hslot' hn
  exact ⟨Option.some_inj.mp (hp.symm.trans hq), hi.symm.trans hj⟩

theorem depthLoop_eq (h : a.Way root steps u) :
    ∀ {fuel : Nat}, steps.length < fuel → a.depthLoop fuel u = .ok steps.length := by
  induction h with
  | start =>
    intro fuel hfuel
    obtain ⟨fuel, rfl⟩ := Nat.exists_eq_add_one.mpr hfuel
    obtain ⟨n, hn⟩ := exists_node?_iff.mpr w.root_lt
    rw [depthLoop, node, hn]
    simp only [bind, Except.bind, hagree.orphan n hn]
    rfl
  | @step steps p u slot h hslot ih =>
    intro fuel hfuel
    rw [List.length_append, List.length_singleton] at hfuel
    obtain ⟨fuel, rfl⟩ := Nat.exists_eq_add_one.mpr (Nat.zero_lt_of_lt hfuel)
    obtain ⟨n, hn⟩ := (h.step hslot).exists_node? w
    rw [depthLoop, node, hn]
    simp only [bind, Except.bind, (hagree.linked p slot u n hslot hn).1,
      ih (Nat.lt_of_succ_lt_succ hfuel)]
    rw [List.length_append, List.length_singleton, Nat.add_comm]
    rfl

theorem pathLoop_eq (hgraph : ∀ u g, a.content? u ≠ some (.graph g)) (h : a.Way root steps u) :
    ∀ {fuel room : Nat} {labels : List String}, steps.length < fuel → steps.length ≤ room →
      a.pathLoop fuel room u labels = .ok (steps.map a.outcome ++ labels) := by
  induction h with
  | start =>
    intro fuel room labels hfuel _
    obtain ⟨fuel, rfl⟩ := Nat.exists_eq_add_one.mpr hfuel
    obtain ⟨n, hn⟩ := exists_node?_iff.mpr w.root_lt
    rw [pathLoop, node, hn]
    simp only [bind, Except.bind, hagree.orphan n hn]
    rfl
  | @step steps p u slot h hslot ih =>
    intro fuel room labels hfuel hroom
    rw [List.length_append, List.length_singleton] at hfuel hroom
    obtain ⟨fuel, rfl⟩ := Nat.exists_eq_add_one.mpr (Nat.zero_lt_of_lt hfuel)
    obtain ⟨room, rfl⟩ := Nat.exists_eq_add_one.mpr (Nat.zero_lt_of_lt hroom)
    obtain ⟨n, hn⟩ := (h.step hslot).exists_node? w
    obtain ⟨m, hm⟩ := h.exists_node? w
    obtain ⟨hmother, hindex⟩ := hagree.linked p slot u n hslot hn
    obtain ⟨x, hx, hu⟩ := hslot
    have hcontent : m.content = x :=
      Option.some_inj.mp ((content?_of_node? hm).symm.trans hx)
    -- only a decision has slots
    cases x with
    | leaf q => exact absurd hu (by simp [NodeContent.children])
    | graph g => exact absurd hx (hgraph p g)
    | decision d =>
      have houtcome : a.outcome (p, slot) = d.describeBranch a.schema slot := by
        rw [outcome, hx]
      rw [pathLoop, node, hn]
      simp only [bind, Except.bind, hmother, node, hm, hcontent, hindex,
        ih (Nat.lt_of_succ_lt_succ hfuel) (Nat.le_of_succ_le_succ hroom), List.map_append,
        List.map_cons, List.map_nil, houtcome, List.append_assoc, List.singleton_append]

theorem depth_eq (h : a.Way root steps u) : a.depth u = .ok steps.length :=
  h.depthLoop_eq w hagree (Nat.lt_succ_of_lt (h.length_lt_size w))

theorem decisionPath_eq (hgraph : ∀ u g, a.content? u ≠ some (.graph g))
    (h : a.Way root steps u) :
    a.decisionPath u = .ok (Text.joinWith " - " (steps.map a.outcome)) := by
  have hlength := h.length_lt_size w
  have hfuel : steps.length < (a.size + 1) * (a.size + 1) :=
    (Nat.lt_succ_of_lt hlength).trans_le (Nat.le_mul_of_pos_left _ (Nat.succ_pos _))
  rw [decisionPath, h.pathLoop_eq w hagree hgraph hfuel (Nat.le_of_lt hlength), List.append_nil]
  rfl

end Way

end Arena

namespace Builder

/-- The root of a graph has no parent if it was there when it was last made the root.
Every other node is linked to the parent and slot of its first attachment since it was
last made the root; so it is linked to the slot that holds it exactly if that attachment
put it there, as it surely did if nothing else became of the node.  In a tree in which
this is so of all nodes, depth is the length of the way from the root, and the decision
path lists its outcomes. -/
theorem Trace.links_of_finish (s : Schema) (es : List Edit) {g : Graph}
    (h : (run s es).builder.finish = .ok g) :
    (∀ r, lastChosen (run s es).log = some (r, true) →
      g.arena.root = some r ∧ ∀ n, g.arena.node? r = some n → n.mother = none) ∧
    (∀ u n, g.arena.node? u = some n →
      n.mother = (firstAttachment u (run s es).log).map Prod.fst ∧
      (∀ p slot, firstAttachment u (run s es).log = some (p, slot) → n.index = slot) ∧
      ∀ p slot, g.arena.HeldAt p slot u →
        (n.mother = some p ∧ n.index = slot ↔
          firstAttachment u (run s es).log = some (p, slot)) ∧
        ∀ q i, (run s es).log.filter (·.touches u) = [.fill u q i true] →
          q = p ∧ i = slot ∧ n.mother = some p ∧ n.index = slot) ∧
    ∀ t : Cart, t.graph = g → ∀ root, t.arena.root = some root →
      firstAttachment root (run s es).log = none →
      (∀ p slot u, t.arena.HeldAt p slot u →
        firstAttachment u (run s es).log = some (p, slot)) →
      ∀ u < t.arena.size, ∃ steps, t.arena.Way root steps u ∧
        (∀ steps', t.arena.Way root steps' u → steps' = steps) ∧
        t.arena.depth u = .ok steps.length ∧
        t.arena.decisionPath u = .ok (Text.joinWith " - " (steps.map t.arena.outcome)) := by
  have hreopen := (faithful_run s es).reopen
  rw [step, h] at hreopen
  obtain ⟨linked, filled⟩ : (ofArena g.arena).Linked (run s es).log ∧
    (ofArena g.arena).Filled (run s es).log := ⟨hreopen.linked, hreopen.filled⟩
  have hlinked : ∀ u n p slot, g.arena.node? u = some n →
      (n.mother = some p ∧ n.index = slot ↔
        firstAttachment u (run s es).log = some (p, slot)) := by
    intro u n p slot hn
    rw [linked.mother u n hn]
    constructor
    · rintro ⟨hp, rfl⟩
      obtain ⟨⟨q, i⟩, hfirst, rfl⟩ := Option.map_eq_some_iff.mp hp
      rw [hfirst, linked.index u n q i hn hfirst]
    · intro hfirst
      exact ⟨by rw [hfirst]; rfl, linked.index u n p slot hn hfirst⟩
  refine ⟨fun r hr => ⟨?_, fun n hn => ?_⟩, fun u n hn =>
    ⟨linked.mother u n hn, fun p slot => linked.index u n p slot hn, ?_⟩, ?_⟩
  · exact linked.root.trans (by rw [hr]; rfl)
  · exact linked.orphan r n hn ((linked.isRoot r n hn).mpr hr)
  · intro p slot hheld
    refine ⟨hlinked u n p slot hn, fun q i honce => ?_⟩
    -- the one thing that became of the node put it into the slot that holds it
    obtain ⟨attached, hmem⟩ := filled p slot u hheld
    have hmem' := List.mem_filter.mpr ⟨hmem, show Event.touches u _ = true by simp [Event.touches]⟩
    rw [honce, List.mem_singleton] at hmem'
    obtain ⟨-, rfl, rfl, -⟩ := Event.fill.inj hmem'
    have hfirst : firstAttachment u (run s es).log = some (p, slot) := by
      rw [← firstAttachment_filter, honce, ← List.nil_append [Event.fill u p slot true],
        firstAttachment_fill]
      simp
    exact ⟨rfl, rfl, (hlinked u n p slot hn).mpr hfirst⟩
  · intro t ht root hroot horphan hheld u hu
    subst ht
    have w := t.wellFormed hroot
    have hagree : t.arena.LinksAgree root :=
      { orphan := fun n hn => by
          rw [linked.mother root n hn, horphan]
          rfl
        linked := fun p slot u n hslot hn => (hlinked u n p slot hn).mpr (hheld p slot u hslot) }
    obtain ⟨steps, hsteps⟩ := exists_way (w.reached u hu)
    exact ⟨steps, hsteps, fun steps' h' => hsteps.unique w hagree h', hsteps.depth_eq w hagree,
      hsteps.decisionPath_eq w hagree t.content?_ne_graph⟩

/-- A tree that was frozen and reopened on the way.  One leaf was attached to a decision,
made the root for a while and attached to another decision, so that only the second
attachment counts. -/
def sampleEdits : List Edit :=
  [.addDecision (.byteEquals 0 1), .addDecision (.byteEquals 0 2), .addLeaf (.indices [1]),
    .addLeaf (.indices [2]), .setRoot 0, .setChild 0 0 (some 2), .pushChild 0 none,
    .setRoot 2, .setRoot 0, .pushChild 0 (some 1), .pushChild 1 (some 3),
    .setChild 1 1 (some 2), .reopen, .addLeaf (.indices []), .pushChild 0 (some 4)]

/-- Whether every slot holds the node whose first attachment filled it. -/
def agreesWith (a : Arena) (log : List Event) : Bool :=
  (List.range a.size).all fun p =>
    (((a.content? p).map (·.children)).getD []).zipIdx.all fun place =>
      place.1.all fun u => firstAttachment u log == some (p, place.2)

theorem firstAttachment_of_agreesWith {a : Arena} {log : List Event}
    (h : agreesWith a log = true) {p slot u : Nat} (hu : a.HeldAt p slot u) :
    firstAttachment u log = some (p, slot) := by
  obtain ⟨x, hx, hu⟩ := hu
  have hp := List.all_eq_true.mp h p (List.mem_range.mpr (lt_size_of_content? hx))
  rw [hx] at hp
  have hslot := List.all_eq_true.mp hp (some u, slot) (List.mem_zipIdx_iff_getElem?.mpr hu)
  exact beq_iff_eq.mp hslot

theorem Trace.links_of_finish_sample :
    ∃ (t : Cart) (steps : List (NodeId × Nat)),
      (run Sample.schema sampleEdits).builder.finish = .ok t.graph ∧
      (∀ n, t.arena.node? 0 = some n → n.mother = none) ∧
      t.arena.Way 0 steps 2 ∧ t.arena.depth 2 = .ok steps.length ∧
      t.arena.decisionPath 2 = .ok (Text.joinWith " - " (steps.map t.arena.outcome)) := by
  have hsample : ((run Sample.schema sampleEdits).builder.finish.toOption.any fun g =>
      (Cart.ofGraph? g).toOption.any fun t => decide (t.arena.root = some 0) &&
        decide (2 < t.arena.size) && agreesWith t.arena (run Sample.schema sampleEdits).log &&
        decide (lastChosen (run Sample.schema sampleEdits).log = some (0, true)) &&
        decide (firstAttachment 0 (run Sample.schema sampleEdits).log = none)) = true := by
    decide +kernel
  cases hg : (run Sample.schema sampleEdits).builder.finish with
  | error e => simp [hg, Except.toOption] at hsample
  | ok g =>
    cases ht : Cart.ofGraph? g with
    | error e => simp [hg, ht, Except.toOption] at hsample
    | ok t =>
      obtain rfl := Cart.ofGraph?_eq_ok_iff.mp ht
      simp only [hg, ht, Except.toOption, Option.any_some, Bool.and_eq_true,
        decide_eq_true_eq] at hsample
      obtain ⟨⟨⟨⟨hroot, hsize⟩, hagrees⟩, hchosen⟩, hnever⟩ := hsample
      obtain ⟨horphan, -, htree⟩ := Trace.links_of_finish Sample.schema sampleEdits hg
      obtain ⟨steps, hsteps, -, hdepth, hpath⟩ := htree t rfl 0 hroot hnever
        (fun p slot u hu => firstAttachment_of_agreesWith hagrees hu) 2 hsize
      exact ⟨t, steps, rfl, (horphan 0 hchosen).2, hsteps, hdepth, hpath⟩

/-- A leaf that was put into one slot, and into another one after the first was filled
anew, is still linked to the first one: its decision path names the wrong outcome. -/
def movedLeaf : List Edit :=
  [.addLeaf (.indices []), .addLeaf (.indices []), .addDecision (.byteEquals 0 1),
    .setChild 2 0 (some 0), .setChild 2 0 (some 1), .setChild 2 1 (some 0), .setRoot 2]

theorem Trace.index_movedLeaf :
    ∃ (t : Cart) (n : Node), (run Sample.schema movedLeaf).builder.finish = .ok t.graph ∧
      t.arena.root = some 2 ∧ t.arena.holders 0 = 1 ∧ t.arena.HeldAt 2 1 0 ∧
      t.arena.node? 0 = some n ∧ n.mother = some 2 ∧ n.index = 0 ∧
      t.arena.outcome (2, 1) = "phone!=a" ∧ t.arena.decisionPath 0 = .ok "phone==a" := by
  have hsample : ((run Sample.schema movedLeaf).builder.finish.toOption.any fun g =>
      (Cart.ofGraph? g).toOption.any fun t =>
        decide (t.arena.root = some 2) && decide (t.arena.holders 0 = 1) &&
          ((t.arena.content? 2).any fun x => decide (x.children[1]? = some (some 0))) &&
          ((t.arena.node? 0).any fun n => decide (n.mother = some 2 ∧ n.index = 0)) &&
          decide (t.arena.outcome (2, 1) = "phone!=a") &&
          decide ((t.arena.decisionPath 0).toOption = some "phone==a")) = true := by
    decide +kernel
  cases hg : (run Sample.schema movedLeaf).builder.finish with
  | error e => simp [hg, Except.toOption] at hsample
  | ok g =>
    cases ht : Cart.ofGraph? g with
    | error e => simp [hg, ht, Except.toOption] at hsample
    | ok t =>
      obtain rfl := Cart.ofGraph?_eq_ok_iff.mp ht
      rw [hg] at hsample
      simp only [ht, Except.toOption, Option.any_some, Bool.and_eq_true, decide_eq_true_eq,
        Option.any_eq_true] at hsample
      obtain ⟨⟨⟨⟨⟨hroot, hone⟩, x, hx, hslot⟩, n, hn, hmother, hindex⟩, houtcome⟩, hpath⟩ :=
        hsample
      refine ⟨t, n, rfl, hroot, hone, ⟨x, hx, hslot⟩, hn, hmother, hindex, houtcome, ?_⟩
      cases hd : t.arena.decisionPath 0 with
      | error e => simp [hd] at hpath
      | ok path =>
        have hlabel : path = "phone==a" := by simpa [hd] using hpath
        rw [hlabel]

end Builder

end FeatureTree
