/-
The descent for a payload: it ends, and back-off yields the most specific data.

A vector that fits the schema has a value for every feature that a decision tests, the
children of a node exist, and the number of nodes below a node falls on the way down.  So
a descent neither looks up what is not there nor runs out of steps.

The candidates of a vector below a slot are the payloads that the graph holds for it, the
most specific first: at a decision those of the selected child, and at a graph node those
of its decision and then those of its default.  A descent looks for data at graph nodes
only, and there only at the specific part, but what it finds is the first candidate with
data.

* `Decision.Suits.exists_slot` — a decision selects a slot, or none;
* `Arena.Passable` — what a descent for a vector needs of an arena;
* `Arena.Candidates`, `Arena.Candidates.unique` — the candidates below a slot;
* `Arena.FirstOf`, `Arena.FirstOf.orElse` — an answer against a list of candidates;
* `Arena.Passable.answered` — every slot has candidates, and the descent through it answers
  with the first that holds data;
* `Graph.interpret_eq_first` — so does the descent from the root of every graph.
-/
import FeatureTree.Proofs.Schema.Fitting
import FeatureTree.Proofs.Tree.TreeShape
import FeatureTree.Sample

namespace FeatureTree

open Relation

/-! ### One decision -/

/-- The test of a decision that suits a schema finds its value in every vector that fits
the schema. -/
theorem Decision.Suits.exists_slot {s : Schema} {d : Decision} {v : FeatureVector}
    (h : d.Suits s) (hv : s.Fits v) : ∃ slot, d.slot v = .ok slot := by
  obtain ⟨m, hm, hkind, -⟩ := h
  rw [Decision.slot.eq_def]
  cases ht : d.test with
  | byteEquals value =>
    obtain ⟨b, hb⟩ := hv.exists_byte hm (hkind .byte (by rw [ht]; rfl))
    exact ⟨_, by rw [hb]; rfl⟩
  | shortEquals value =>
    obtain ⟨x, hx⟩ := hv.exists_short hm (hkind .short (by rw [ht]; rfl))
    exact ⟨_, by rw [hx]; rfl⟩
  | below threshold =>
    obtain ⟨x, hx⟩ := hv.exists_number hm
    exact ⟨_, by rw [hx]; rfl⟩
  | byteOf =>
    obtain ⟨b, hb⟩ := hv.exists_byte hm (hkind .byte (by rw [ht]; rfl))
    exact ⟨_, by rw [hb]; rfl⟩
  | shortOf =>
    obtain ⟨x, hx⟩ := hv.exists_short hm (hkind .short (by rw [ht]; rfl))
    exact ⟨_, by rw [hx]; rfl⟩

theorem Decision.mem_of_child? {d : Decision} {slot : Nat} {c : NodeId}
    (h : d.child? slot = some c) : some c ∈ (NodeContent.decision d).children := by
  rw [Decision.child?, Option.join_eq_some_iff] at h
  exact Array.mem_toList_iff.mpr (Array.mem_of_getElem? h)

namespace Arena

/-! ### One step of the descent -/

section Step

variable {a : Arena} {u : NodeId}

theorem descend_of_leaf {p : Payload} (h : a.content? u = some (.leaf p)) (v : FeatureVector)
    (fuel : Nat) : a.descend v (fuel + 1) u = .ok (some p) := by
  obtain ⟨n, hn, hc⟩ := content?_eq_some_iff.mp h
  rw [descend, node, hn]
  simp only [bind, Except.bind, hc]
  rfl

theorem descend_of_decision {d : Decision} (h : a.content? u = some (.decision d))
    (v : FeatureVector) (fuel : Nat) :
    a.descend v (fuel + 1) u =
      (d.next? v).bind fun child => child.elim (.ok none) (a.descend v fuel) := by
  obtain ⟨n, hn, hc⟩ := content?_eq_some_iff.mp h
  rw [descend, node, hn]
  simp only [bind, Except.bind, hc]
  cases d.next? v with
  | error e => rfl
  | ok child => cases child <;> rfl

theorem descend_of_graph {g : GraphNode} (h : a.content? u = some (.graph g))
    (v : FeatureVector) (fuel : Nat) :
    a.descend v (fuel + 1) u =
      (g.decision.elim (.ok none) (a.descend v fuel)).bind fun specific =>
        match specific.filter (!·.isEmpty) with
        | some p => .ok (some p)
        | none => g.leaf.elim (.ok none) (a.descend v fuel) := by
  obtain ⟨n, hn, hc⟩ := content?_eq_some_iff.mp h
  rw [descend, node, hn]
  simp only [bind, Except.bind, hc]
  cases g.decision with
  | none => cases g.leaf <;> rfl
  | some c =>
    simp only [Option.elim_some]
    cases a.descend v fuel c with
    | error e => rfl
    | ok specific =>
      simp only []
      cases specific.filter (!·.isEmpty) with
      | some p => rfl
      | none => cases g.leaf <;> rfl

/-- The child that a decision selects is one of its children. -/
theorem holds_of_next? {d : Decision} {v : FeatureVector} {c : NodeId}
    (hd : a.content? u = some (.decision d)) (h : d.next? v = .ok (some c)) : a.Holds u c := by
  rw [Decision.next?] at h
  obtain ⟨slot, -, h⟩ := bind_eq_ok_iff.mp h
  obtain ⟨i, -, hi⟩ := Option.bind_eq_some_iff.mp (Except.ok.inj h)
  exact holds_of_content? hd (Decision.mem_of_child? hi)

end Step

/-- Nothing stands in the way of a vector: the children exist, nothing lies below itself,
and every decision makes up its mind. -/
structure Passable (a : Arena) (v : FeatureVector) : Prop where
  child_lt : ∀ p c, a.Holds p c → c < a.size
  acyclic : ∀ u, ¬ TransGen a.Holds u u
  slot : ∀ u d, a.content? u = some (.decision d) → ∃ slot, d.slot v = .ok slot

variable {a : Arena} {v : FeatureVector} {root u : NodeId}

theorem WellFormed.passable (w : a.WellFormed root) (hv : a.schema.Fits v) : a.Passable v where
  child_lt := w.child_lt
  acyclic := w.acyclic
  slot := by
    intro u d hd
    obtain ⟨n, hn, hnd⟩ := content?_eq_some_iff.mp hd
    exact (w.decisions u n d hn hnd).exists_slot hv

namespace Passable

variable (h : a.Passable v)
include h

/-- A decision selects one of its children, or none. -/
theorem exists_next? {d : Decision} (hd : a.content? u = some (.decision d)) :
    ∃ child, d.next? v = .ok child ∧ ∀ c, child = some c → a.Holds u c := by
  obtain ⟨slot, hslot⟩ := h.slot u d hd
  have hnext : d.next? v = .ok (slot.bind d.child?) := by
    rw [Decision.next?, hslot]
    rfl
  exact ⟨_, hnext, fun c hc => holds_of_next? hd (hc ▸ hnext)⟩

end Passable

theorem rank_le_succ (a : Arena) (u : NodeId) : a.rank u ≤ a.size + 1 :=
  Nat.le_succ_of_le (a.rank_le_size u)

/-! ### Candidates -/

/-- The payloads that a graph holds for a vector below a slot, the most specific first. -/
inductive Candidates (a : Arena) (v : FeatureVector) : Option NodeId → List Payload → Prop
  | empty : Candidates a v none []
  | leaf {u : NodeId} {p : Payload} : a.content? u = some (.leaf p) → Candidates a v (some u) [p]
  | decision {u : NodeId} {d : Decision} {child : Option NodeId} {ps : List Payload} :
      a.content? u = some (.decision d) → d.next? v = .ok child → Candidates a v child ps →
      Candidates a v (some u) ps
  | graph {u : NodeId} {g : GraphNode} {specific fallback : List Payload} :
      a.content? u = some (.graph g) → Candidates a v g.decision specific →
      Candidates a v g.leaf fallback → Candidates a v (some u) (specific ++ fallback)

variable {a : Arena} {v : FeatureVector} {u : NodeId}

/-- A slot has one list of candidates. -/
theorem Candidates.unique {slot : Option NodeId} {ps qs : List Payload}
    (h : a.Candidates v slot ps) (h' : a.Candidates v slot qs) : ps = qs := by
  induction h generalizing qs with
  | empty =>
    cases h'
    rfl
  | leaf hu =>
    cases h' with
    | leaf hu' => simpa [hu] using hu'
    | decision hu' _ _ => simp [hu] at hu'
    | graph hu' _ _ => simp [hu] at hu'
  | decision hu hnext _ ih =>
    cases h' with
    | leaf hu' => simp [hu] at hu'
    | decision hu' hnext' hchild =>
      obtain rfl : _ = _ := by simpa [hu] using hu'
      obtain rfl : _ = _ := by simpa [hnext] using hnext'
      exact ih hchild
    | graph hu' _ _ => simp [hu] at hu'
  | graph hu _ _ ihspecific ihfallback =>
    cases h' with
    | leaf hu' => simp [hu] at hu'
    | decision hu' _ _ => simp [hu] at hu'
    | graph hu' hspecific hfallback =>
      obtain rfl : _ = _ := by simpa [hu] using hu'
      rw [ihspecific hspecific, ihfallback hfallback]

/-! ### The first candidate with data -/

/-- The answer, where it holds data, is the first of the payloads that does; and if the
answer holds none, none of the payloads does. -/
def FirstOf (ps : List Payload) (answer : Option Payload) : Prop :=
  answer.filter (!·.isEmpty) = ps.find? (!·.isEmpty)

theorem firstOf_nil : FirstOf [] none := rfl

theorem firstOf_singleton (p : Payload) : FirstOf [p] (some p) := by
  cases h : p.isEmpty <;> simp [FirstOf, h]

/-- What backing off does: the specific answer counts where it holds data, and otherwise
the default answer, with or without data. -/
theorem FirstOf.orElse {ps qs : List Payload} {specific fallback : Option Payload}
    (hs : FirstOf ps specific) (hf : FirstOf qs fallback) :
    FirstOf (ps ++ qs) ((specific.filter (!·.isEmpty)).or fallback) := by
  rw [FirstOf, List.find?_append, ← hs, ← hf]
  cases hspecific : specific.filter (!·.isEmpty) with
  | none => rfl
  | some p =>
    obtain ⟨-, hp⟩ := Option.filter_eq_some_iff.mp hspecific
    simp only [Option.some_or, Option.filter_some, hp, if_true]

/-- The descent at a graph node answers with the specific payload if that holds data, and
else with that of the default. -/
theorem descend_of_answers {g : GraphNode} {fuel : Nat} {specific fallback : Option Payload}
    (hu : a.content? u = some (.graph g))
    (hs : g.decision.elim (.ok none) (a.descend v fuel) = .ok specific)
    (hf : g.leaf.elim (.ok none) (a.descend v fuel) = .ok fallback) :
    a.descend v (fuel + 1) u = .ok ((specific.filter (!·.isEmpty)).or fallback) := by
  rw [descend_of_graph hu, hs, hf]
  simp only [Except.bind]
  cases specific.filter (!·.isEmpty) <;> rfl

/-- A slot has candidates, and the descent through it answers with the first of them that
holds data. -/
def Answered (a : Arena) (v : FeatureVector) (fuel : Nat) (slot : Option NodeId) : Prop :=
  ∃ ps answer, a.Candidates v slot ps ∧
    slot.elim (.ok none) (a.descend v fuel) = .ok answer ∧ FirstOf ps answer

theorem answered_none (fuel : Nat) : a.Answered v fuel none :=
  ⟨[], none, .empty, rfl, firstOf_nil⟩

theorem Passable.answered (h : a.Passable v) {fuel : Nat} (hu : u < a.size)
    (hrank : a.rank u ≤ fuel) : a.Answered v fuel (some u) := by
  refine induct_below h.acyclic h.child_lt (fun fuel u hu ih => ?_) hu hrank
  obtain ⟨x, hx⟩ := exists_content? hu
  have hslot : ∀ slot : Option NodeId, (∀ c, slot = some c → a.Holds u c) →
      a.Answered v fuel slot := by
    intro slot hslot
    cases slot with
    | none => exact answered_none fuel
    | some c => exact ih c (hslot c rfl)
  cases x with
  | leaf p => exact ⟨[p], some p, .leaf hx, descend_of_leaf hx v fuel, firstOf_singleton p⟩
  | decision d =>
    obtain ⟨child, hnext, hhold⟩ := h.exists_next? hx
    obtain ⟨ps, answer, hps, hanswer, hfirst⟩ := hslot child hhold
    refine ⟨ps, answer, .decision hx hnext hps, ?_, hfirst⟩
    rw [Option.elim_some, descend_of_decision hx, hnext]
    exact hanswer
  | graph g =>
    have hplace : ∀ place ∈ (NodeContent.graph g).children, a.Answered v fuel place :=
      fun place hmem => hslot place fun c hc => holds_of_content? hx (hc ▸ hmem)
    obtain ⟨ps, specific, hps, hspecific, hfirst⟩ :=
      hplace g.decision (by simp [NodeContent.children])
    obtain ⟨qs, fallback, hqs, hfallback, hnext⟩ :=
      hplace g.leaf (by simp [NodeContent.children])
    exact ⟨ps ++ qs, _, .graph hx hps hqs, descend_of_answers hx hspecific hfallback,
      hfirst.orElse hnext⟩

end Arena

namespace Graph

open Arena

theorem root_cases (g : Graph) :
    g.arena.root = none ∨ ∃ root, g.arena.root = some root ∧ g.arena.WellFormed root := by
  obtain ⟨a, ha⟩ := g.frozen
  obtain ⟨count, -, heq⟩ := tallies_of_freeze ha
  have hroot : g.arena.root = a.root := by
    rw [heq]
    rfl
  rw [hroot]
  rcases exists_freeze_iff.mp ⟨_, ha⟩ with ⟨-, hnone⟩ | ⟨root, hsome, w⟩
  · exact .inl hnone
  · refine .inr ⟨root, hsome, ?_⟩
    rw [heq]
    exact w.of_content rfl (a.content?_recount count)

/-- The graph has candidates for every vector of its schema, and the descent answers with
the first of them that holds data. -/
theorem exists_candidates (g : Graph) {v : FeatureVector} (hv : g.arena.schema.Fits v) :
    ∃ ps answer, g.arena.Candidates v g.arena.root ps ∧
      g.arena.interpret v = .ok answer ∧ FirstOf ps answer := by
  rw [interpret.eq_def]
  rcases g.root_cases with hroot | ⟨root, hroot, w⟩
  · rw [hroot]
    exact answered_none 0
  · rw [hroot]
    exact (w.passable hv).answered w.root_lt (g.arena.rank_le_succ root)

theorem exists_interpret (g : Graph) {v : FeatureVector} (hv : g.arena.schema.Fits v) :
    ∃ p, g.arena.interpret v = .ok p := by
  obtain ⟨_, answer, _, hanswer, _⟩ := g.exists_candidates hv
  exact ⟨answer, hanswer⟩

/-- Back-off yields the most specific payload that holds data.  A graph has one list of
candidates for every vector of its schema, and the descent answers with the first of them
that holds data; where it answers with a payload without data, or with none, no candidate
holds any. -/
theorem interpret_eq_first (g : Graph) {v : FeatureVector} (hv : g.arena.schema.Fits v) :
    ∃ ps answer, g.arena.Candidates v g.arena.root ps ∧
      (∀ qs, g.arena.Candidates v g.arena.root qs → qs = ps) ∧
      g.arena.interpret v = .ok answer ∧
      answer.filter (!·.isEmpty) = ps.find? (!·.isEmpty) := by
  obtain ⟨ps, answer, hps, hanswer, hfirst⟩ := g.exists_candidates hv
  exact ⟨ps, answer, hps, fun qs hqs => hqs.unique hps, hanswer, hfirst⟩

end Graph

/-- A graph with nested back-off: the default of the root holds data, the specific part is
a graph node with a default without data, and the decision below it has a shared graph node
in two of its slots, whose default is without data too. -/
def Sample.backOffGraph : Except GraphError Graph := do
  let b := (Builder.empty schema).addDecision (.shortOf 1 4) |>.1
  let b := addLeaves b [.indices [], .indices [], .indices [9], .indices [4]]
  let b := b.addGraphNode ⟨some 1, none⟩ |>.1
  let b := b.addGraphNode ⟨some 2, some 0⟩ |>.1
  let b := b.addGraphNode ⟨some 3, some 6⟩ |>.1
  (← wire (b.setRoot 7) [(0, some 5), (0, some 5), (0, none), (0, some 4)]).finish

/-- Through the shared node the descent meets two payloads without data before the default
of the root. -/
theorem Graph.interpret_eq_first_sample :
    ∃ g v ps answer, Sample.backOffGraph = .ok g ∧ g.arena.schema.Fits v ∧
      g.arena.Candidates v g.arena.root ps ∧ g.arena.interpret v = .ok answer ∧
      answer.filter (!·.isEmpty) = ps.find? (!·.isEmpty) ∧ answer = some (.indices [9]) := by
  have hsample : (Sample.backOffGraph.toOption.any fun g =>
      decide (g.arena.schema.Fits ⟨7, #[0], #[1], #[Floating.ofInt 1]⟩) &&
        (g.arena.interpret ⟨7, #[0], #[1], #[Floating.ofInt 1]⟩).toOption ==
          some (some (.indices [9]))) = true := by
    decide +kernel
  cases hg : Sample.backOffGraph with
  | error e => simp [hg, Except.toOption] at hsample
  | ok g =>
    simp only [hg, Except.toOption, Option.any_some, Bool.and_eq_true, beq_iff_eq,
      decide_eq_true_eq] at hsample
    obtain ⟨hfits, hinterpret⟩ := hsample
    obtain ⟨ps, answer, hps, -, hanswer, hfirst⟩ := g.interpret_eq_first hfits
    rw [hanswer] at hinterpret
    exact ⟨g, _, ps, answer, rfl, hfits, hps, hanswer, hfirst, Option.some_inj.mp hinterpret⟩

end FeatureTree
