/-
Pushing children, and what it does to children that are there already.

The slot for the next child is counted beside the nodes.  It is the number of children that
were pushed to the parent since the graph was last opened, and children that came in another
way are not counted.  So a pushed child takes the place of what was put into its slot before:
by filling that slot directly, by adding or replacing the parent with children in its slots,
or before the graph was opened.

* `Builder.Puts` — one slot got a child, and nothing else changed;
* `Builder.Act`, `Builder.Ledger` — the steps of a builder, and what they put into slots;
* `Builder.pushes`, `Builder.lastPut` — the pushed children and the content of a slot, read off
  the ledger;
* `Builder.Ledger.Kept.step`, `Builder.Ledger.Kept.run` — every step keeps the ledger true;
* `Builder.Ledger.pushChild_run` — what a pushed child takes the place of.
-/
import FeatureTree.Proofs.Tree.Links

namespace FeatureTree

namespace NodeContent

/-- What a slot holds: nothing if it is empty or there is no such slot. -/
def child? (x : NodeContent) (slot : Nat) : Option NodeId := x.children[slot]?.join

variable {x x' : NodeContent} {slot i : Nat} {child : Option NodeId} {u : NodeId}

theorem child?_eq_some_iff : x.child? slot = some u ↔ x.children[slot]? = some (some u) := by
  rw [child?, Option.join_eq_some_iff]

theorem child?_of_set (h : x'.children = x.children.set slot child)
    (hslot : slot < x.children.length) :
    x'.child? i = if i = slot then child else x.child? i := by
  rw [child?, h, List.getElem?_set]
  by_cases hi : i = slot
  · rw [if_pos hi.symm, if_pos (hi ▸ hslot), if_pos hi]
    rfl
  · rw [if_neg (Ne.symm hi), if_neg hi, child?]

end NodeContent

namespace Arena

/-- What a slot of a node holds. -/
def child? (a : Arena) (p : NodeId) (slot : Nat) : Option NodeId :=
  (a.content? p).bind (·.child? slot)

variable {a b : Arena} {p u : NodeId} {slot : Nat}

theorem child?_of_content {x : NodeContent} (h : a.content? p = some x) :
    a.child? p slot = x.child? slot := by
  rw [child?, h, Option.bind_some]

theorem heldAt_iff : a.HeldAt p slot u ↔ a.child? p slot = some u := by
  rw [child?, Option.bind_eq_some_iff]
  exact exists_congr fun x => and_congr_right fun _ => NodeContent.child?_eq_some_iff.symm

end Arena

open Arena

namespace Builder

/-! ### A child in a slot -/

/-- One slot of a node got a child, and nothing else changed in any slot. -/
structure Puts (b : Builder) (p : NodeId) (slot : Nat) (child : Option NodeId) (b' : Builder) :
    Prop where
  size : b'.size = b.size
  slot_lt : slot < b.slotsOf p
  slotsOf : ∀ q, b'.slotsOf q = b.slotsOf q
  child? : ∀ q i, b'.child? q i = if q = p ∧ i = slot then child else b.child? q i

section Slots

variable {b b' : Builder} {p q : NodeId} {slot i : Nat} {child : Option NodeId}
  {x x' : NodeContent}

theorem child?_add :
    (b.add x).1.child? q i = if q = b.size then x.child? i else b.child? q i := by
  rw [Arena.child?, content?_add]
  split <;> rfl

theorem child?_setContent (h : p < b.size) :
    (b.setContent p x).child? q i = if q = p then x.child? i else b.child? q i := by
  rw [Arena.child?, content?_setContent _ h]
  split <;> rfl

/-- A child comes into one slot of a node, and perhaps is linked to it. -/
theorem puts_of_set (hx : b.content? p = some x) (hset : x'.children = x.children.set slot child)
    (hslot : slot < x.children.length)
    (hb : b'.toArena = ((b.setContent p x').link? p slot child).toArena) :
    b.Puts p slot child b' := by
  have hcontent : ∀ q, b'.content? q = if q = p then some x' else b.content? q := by
    intro q
    rw [hb, content?_link?, content?_setContent _ (lt_size_of_content? hx)]
  refine ⟨by rw [hb, size_link?, size_setContent], ?_, fun q => ?_, fun q i => ?_⟩
  · rw [Arena.slotsOf, hx]
    exact hslot
  · rw [Arena.slotsOf, Arena.slotsOf, hcontent]
    by_cases hq : q = p
    · rw [if_pos hq, hq, hx, Option.map_some, Option.map_some, hset, List.length_set]
    · rw [if_neg hq]
  · rw [Arena.child?, hcontent]
    by_cases hq : q = p
    · rw [if_pos hq, Option.bind_some, NodeContent.child?_of_set hset hslot, hq,
        child?_of_content hx]
      simp only [true_and]
    · rw [if_neg hq, if_neg fun h => hq h.1, Arena.child?]

theorem puts_of_place {d : Decision} (hd : b.content? p = some (.decision d))
    (hslot : slot < d.children.size) (hb : b'.toArena = (b.place p d slot child).toArena) :
    b.Puts p slot child b' := by
  have hset : (NodeContent.decision
      { d with children := d.children.setIfInBounds slot child }).children =
        (NodeContent.decision d).children.set slot child := Array.toList_setIfInBounds
  exact puts_of_set hd hset hslot hb

theorem puts_of_setChild (h : b.setChild p slot child = .ok b') :
    b.Puts p slot child b' ∧ b'.filled = b.filled := by
  obtain ⟨d, hd, -, hslot, rfl⟩ := b.setChild_eq_ok_iff.mp h
  exact ⟨puts_of_place hd hslot rfl, filled_place b⟩

theorem puts_of_pushChild (h : b.pushChild p child = .ok (b', slot)) :
    slot = b.filledSlots p ∧ b.Puts p slot child b' ∧ b'.filled = b.filled.modify p (· + 1) := by
  obtain ⟨d, hd, -, hslot, rfl, rfl⟩ := b.pushChild_eq_ok_iff.mp h
  exact ⟨rfl, puts_of_place hd hslot rfl, rfl⟩

theorem puts_of_setGraphChild {place : GraphNode → GraphNode} (hslot : slot < 2)
    (hplace : ∀ g, (NodeContent.graph (place g)).children =
      (NodeContent.graph g).children.set slot child)
    (h : b.setGraphChild p slot place child = .ok b') :
    b.Puts p slot child b' ∧ b'.filled = b.filled := by
  obtain ⟨g, hg, rfl⟩ := setGraphChild_cases h
  exact ⟨puts_of_set hg (hplace g) hslot rfl, filled_link? _⟩

theorem puts_of_setGraphLeaf (h : b.setGraphLeaf p child = .ok b') :
    b.Puts p 0 child b' ∧ b'.filled = b.filled :=
  puts_of_setGraphChild (by decide) (fun _ => rfl) h

theorem puts_of_setGraphDecision (h : b.setGraphDecision p child = .ok b') :
    b.Puts p 1 child b' ∧ b'.filled = b.filled :=
  puts_of_setGraphChild (by decide) (fun _ => rfl) h

/-- A child in a slot drives out another one that is there, and no other child. -/
theorem Puts.keeps_iff (h : b.Puts p slot child b') :
    (∀ q i u, b.HeldAt q i u → b'.HeldAt q i u) ↔
      b.child? p slot = none ∨ b.child? p slot = child := by
  simp only [heldAt_iff]
  constructor
  · intro hkeeps
    cases hu : b.child? p slot with
    | none => exact .inl rfl
    | some u =>
      have hu' := hkeeps p slot u hu
      rw [h.child?, if_pos ⟨rfl, rfl⟩] at hu'
      exact .inr hu'.symm
  · intro hslot q i u hu
    rw [h.child?]
    split
    · next hqi =>
      rw [hqi.1, hqi.2] at hu
      rcases hslot with hnone | hsame
      · rw [hnone] at hu
        cases hu
      · rw [← hsame, hu]
    · exact hu

end Slots

/-! ### Ledgers -/

/-- A step in the building of a graph.  Besides the edits, the graph is frozen as a tree,
another tree is put in the place of a leaf, and the result is opened; or a node is replaced in
its place; or the properties are set. -/
inductive Act where
  | edit (e : Edit)
  | graft (other : Cart) (shared : Bool) (leaf : NodeId)
  | replace (id : NodeId) (x : NodeContent)
  | setProperties (properties : Properties)

/-- What comes into slots: the children of all nodes when a graph is opened, those that a
node has when it comes, a child in a chosen slot, or one that is pushed. -/
inductive Filling where
  | opened (a : Arena)
  | came (id : NodeId) (x : NodeContent)
  | put (parent : NodeId) (slot : Nat) (child : Option NodeId)
  | pushed (parent : NodeId) (child : Option NodeId)

/-- How many children were pushed to a node since the graph was opened. -/
def pushes (p : NodeId) : List Filling → Nat
  | .opened _ :: _ => 0
  | .pushed q _ :: log => pushes p log + if q = p then 1 else 0
  | _ :: log => pushes p log
  | [] => 0

/-- What was last put into a slot; the last filling comes first. -/
def lastPut (p : NodeId) (slot : Nat) : List Filling → Option NodeId
  | .opened a :: _ => a.child? p slot
  | .came id x :: log => if p = id then x.child? slot else lastPut p slot log
  | .put q i child :: log => if p = q ∧ slot = i then child else lastPut p slot log
  | .pushed q child :: log => if p = q ∧ slot = pushes q log then child else lastPut p slot log
  | [] => none

/-- What comes into a slot otherwise than by pushing. -/
def Filling.brings (p : NodeId) (slot : Nat) : Filling → Option NodeId
  | .opened a => a.child? p slot
  | .came id x => if p = id then x.child? slot else none
  | .put q i child => if p = q ∧ slot = i then child else none
  | .pushed _ _ => none

/-- A builder and what came into its slots since it was opened, the last first. -/
structure Ledger where
  builder : Builder
  log : List Filling

namespace Ledger

variable (l : Ledger)

/-- The ledger after a filling, or after the attempt. -/
def record (f : Filling) (result : Except GraphError Builder) : Ledger :=
  match result with
  | .ok b => ⟨b, f :: l.log⟩
  | .error _ => l

/-- The ledger of a graph that is opened. -/
def ofGraph (g : Graph) : Ledger := ⟨.ofArena g.arena, [.opened g.arena]⟩

/-- The ledger of a new builder. -/
def empty (s : Schema) : Ledger := ⟨Builder.empty s, []⟩

/-- The tree that grafting makes of a builder, if it makes any. -/
def grafted? (b : Builder) (other : Cart) (shared : Bool) (leaf : NodeId) : Option Cart :=
  (Cart.ofBuilder? b).toOption.bind fun t => (t.graft other shared leaf).toOption

/-- The ledger after a step.  A step that fails changes nothing. -/
def step : Act → Ledger
  | .edit (.addDecision d) =>
    ⟨(l.builder.addDecision d).1, .came l.builder.size (.decision d) :: l.log⟩
  | .edit (.addLeaf p) => ⟨(l.builder.addLeaf p).1, .came l.builder.size (.leaf p) :: l.log⟩
  | .edit (.addGraphNode g) =>
    ⟨(l.builder.addGraphNode g).1, .came l.builder.size (.graph g) :: l.log⟩
  | .edit (.setRoot id) => { l with builder := l.builder.setRoot id }
  | .edit (.setChild p slot child) =>
    l.record (.put p slot child) (l.builder.setChild p slot child)
  | .edit (.pushChild p child) =>
    l.record (.pushed p child) ((l.builder.pushChild p child).map Prod.fst)
  | .edit (.setGraphLeaf p child) => l.record (.put p 0 child) (l.builder.setGraphLeaf p child)
  | .edit (.setGraphDecision p child) =>
    l.record (.put p 1 child) (l.builder.setGraphDecision p child)
  | .edit .reopen => (l.builder.finish.toOption.map ofGraph).getD l
  | .graft other shared leaf =>
    ((grafted? l.builder other shared leaf).map fun t => ofGraph t.graph).getD l
  | .replace id x =>
    if id < l.builder.size then ⟨l.builder.setContent id x, .came id x :: l.log⟩ else l
  | .setProperties properties => { l with builder := l.builder.setProperties properties }

/-- The ledger after several steps. -/
def run (acts : List Act) : Ledger := acts.foldl step l

end Ledger

/-! ### Every step, and every run -/

namespace Ledger

/-- The ledger is true: it tells how many slots of a node are counted as filled, and what the
slots hold. -/
structure Kept (l : Ledger) : Prop where
  size : l.builder.filled.size = l.builder.size
  filledSlots : ∀ p, l.builder.filledSlots p = pushes p l.log
  child? : ∀ p slot, l.builder.child? p slot = lastPut p slot l.log

theorem kept_empty (s : Schema) : (empty s).Kept where
  size := rfl
  filledSlots := fun _ => rfl
  child? := by
    intro p slot
    show (Builder.empty s).child? p slot = none
    rw [Arena.child?, content?_empty]
    rfl

theorem kept_ofGraph (g : Graph) : (ofGraph g).Kept where
  size := Array.size_replicate
  filledSlots := by
    intro p
    show ((Array.replicate g.arena.size 0)[p]?).getD 0 = 0
    rw [Array.getElem?_replicate]
    split <;> rfl
  child? := fun _ _ => rfl

namespace Kept

variable {l : Ledger} (h : l.Kept)
include h

theorem came {b : Builder} {x : NodeContent} (hsize : b.size = l.builder.size + 1)
    (hfilled : b.filled = l.builder.filled.push 0)
    (hchild : ∀ q i, b.child? q i = (l.builder.add x).1.child? q i) :
    (⟨b, .came l.builder.size x :: l.log⟩ : Ledger).Kept where
  size := by
    show b.filled.size = b.size
    rw [hfilled, Array.size_push, h.size, hsize]
  filledSlots := by
    intro p
    have hadd : b.filledSlots p = (l.builder.add x).1.filledSlots p := by
      rw [Builder.filledSlots, hfilled]
      rfl
    exact (hadd.trans (filledSlots_add _)).trans (h.filledSlots p)
  child? := by
    intro p slot
    show b.child? p slot = lastPut p slot (.came l.builder.size x :: l.log)
    rw [hchild, child?_add, h.child?, lastPut]

theorem record {f : Filling} {result : Except GraphError Builder}
    (hresult : ∀ b, result = .ok b → (⟨b, f :: l.log⟩ : Ledger).Kept) :
    (l.record f result).Kept := by
  cases result with
  | error e => exact h
  | ok b => exact hresult b rfl

theorem put {b : Builder} {p : NodeId} {slot : Nat} {child : Option NodeId}
    (hb : l.builder.Puts p slot child b ∧ b.filled = l.builder.filled) :
    (⟨b, .put p slot child :: l.log⟩ : Ledger).Kept where
  size := by
    show b.filled.size = b.size
    rw [hb.2, h.size, hb.1.size]
  filledSlots := by
    intro q
    show (b.filled[q]?).getD 0 = pushes q l.log
    rw [hb.2]
    exact h.filledSlots q
  child? := by
    intro q i
    show b.child? q i = lastPut q i (.put p slot child :: l.log)
    rw [hb.1.child?, h.child?, lastPut]

/-- The slot of a pushed child is the number of those that were pushed before. -/
theorem pushed {b : Builder} {p : NodeId} {slot : Nat} {child : Option NodeId}
    (hb : l.builder.pushChild p child = .ok (b, slot)) :
    (⟨b, .pushed p child :: l.log⟩ : Ledger).Kept := by
  obtain ⟨rfl, hputs, hfilled⟩ := puts_of_pushChild hb
  have hp : p < l.builder.filled.size := by
    obtain ⟨d, hd, -⟩ := l.builder.pushChild_eq_ok_iff.mp hb
    rw [h.size]
    exact lt_size_of_content? hd
  refine ⟨?_, fun q => ?_, fun q i => ?_⟩
  · show b.filled.size = b.size
    rw [hfilled, Array.size_modify, h.size, hputs.size]
  · show (b.filled[q]?).getD 0 = pushes q l.log + if p = q then 1 else 0
    rw [hfilled, Array.getElem?_modify, ← h.filledSlots q]
    by_cases hq : p = q
    · subst hq
      rw [if_pos rfl, if_pos rfl, Builder.filledSlots, Array.getElem?_eq_getElem hp]
      rfl
    · rw [if_neg hq, if_neg hq]
      rfl
  · show b.child? q i = lastPut q i (.pushed p child :: l.log)
    rw [hputs.child?, h.child?, lastPut, h.filledSlots]

theorem replace {id : NodeId} {x : NodeContent} (hid : id < l.builder.size) :
    (⟨l.builder.setContent id x, .came id x :: l.log⟩ : Ledger).Kept where
  size := h.size.trans (size_setContent _).symm
  filledSlots := h.filledSlots
  child? := by
    intro p slot
    show (l.builder.setContent id x).child? p slot = lastPut p slot (.came id x :: l.log)
    rw [child?_setContent hid, h.child?, lastPut]

/-- Every step keeps a ledger true. -/
theorem step (act : Act) : (l.step act).Kept := by
  cases act with
  | edit e =>
    cases e with
    | addDecision d => exact h.came (size_add _) rfl fun _ _ => rfl
    | addLeaf p => exact h.came (size_add _) rfl fun _ _ => rfl
    | addGraphNode g =>
      refine h.came ?_ ?_ fun q i => ?_
      · exact ((size_link? _).trans (size_link? _)).trans (size_add _)
      · exact (filled_link? _).trans (filled_link? _)
      · rw [Arena.child?, Arena.child?]
        exact congrArg (Option.bind · _) ((content?_link? _).trans (content?_link? _))
    | setRoot id =>
      refine ⟨h.size.trans (size_setRoot _).symm, h.filledSlots, fun p slot => ?_⟩
      exact (congrArg (Option.bind · _) (content?_setRoot _)).trans (h.child? p slot)
    | setChild p slot child => exact h.record fun b hb => h.put (puts_of_setChild hb)
    | pushChild p child =>
      refine h.record fun b hb => ?_
      obtain ⟨⟨b', slot⟩, hpush, rfl⟩ := map_eq_ok_iff.mp hb
      exact h.pushed hpush
    | setGraphLeaf p child => exact h.record fun b hb => h.put (puts_of_setGraphLeaf hb)
    | setGraphDecision p child => exact h.record fun b hb => h.put (puts_of_setGraphDecision hb)
    | reopen =>
      -- a graph that is opened starts a ledger of its own
      rw [Ledger.step]
      cases l.builder.finish.toOption with
      | none => exact h
      | some g => exact kept_ofGraph g
  | graft other shared leaf =>
    rw [Ledger.step]
    cases grafted? l.builder other shared leaf with
    | none => exact h
    | some t => exact kept_ofGraph t.graph
  | replace id x =>
    rw [Ledger.step]
    split
    · next hid => exact h.replace hid
    · exact h
  | setProperties properties => exact ⟨h.size, h.filledSlots, h.child?⟩

theorem run (acts : List Act) : (l.run acts).Kept := by
  rw [Ledger.run]
  induction acts generalizing l with
  | nil => exact h
  | cons act acts ih => exact ih (h.step act)

end Kept

end Ledger

/-- A slot that is not yet counted as filled is empty if nothing came into it but by pushing. -/
theorem lastPut_eq_none {log : List Filling} {p : NodeId} {slot : Nat}
    (h : ∀ f ∈ log, f.brings p slot = none) (hslot : pushes p log ≤ slot) :
    lastPut p slot log = none := by
  induction log with
  | nil => rfl
  | cons f log ih =>
    have hf := h f List.mem_cons_self
    have hlog := fun f hf => h f (List.mem_cons_of_mem _ hf)
    cases f with
    | opened a => exact hf
    | came id x =>
      rw [Filling.brings] at hf
      rw [lastPut]
      split
      · next hid => rwa [if_pos hid] at hf
      · exact ih hlog hslot
    | put q i child =>
      rw [Filling.brings] at hf
      rw [lastPut]
      split
      · next hqi => rwa [if_pos hqi] at hf
      · exact ih hlog hslot
    | pushed q child =>
      -- the slot of that child is counted as filled
      rw [pushes] at hslot
      rw [lastPut, if_neg]
      · exact ih hlog (Nat.le_trans (Nat.le_add_right _ _) hslot)
      · rintro ⟨rfl, rfl⟩
        rw [if_pos rfl] at hslot
        exact Nat.not_succ_le_self _ hslot

namespace Ledger

/-- A new builder, or a graph that is opened. -/
inductive Begins : Ledger → Prop
  | empty (s : Schema) : Begins (empty s)
  | ofGraph (g : Graph) : Begins (ofGraph g)

theorem Begins.kept {l : Ledger} (h : l.Begins) : l.Kept := by
  cases h with
  | empty s => exact kept_empty s
  | ofGraph g => exact kept_ofGraph g

/-- After any steps a pushed child comes into the slot whose number is that of the children
pushed before, and takes the place of what was last put there; no other slot of any node
changes.  So a child that was there before is lost unless it is the pushed child itself.  If
nothing but pushing put a child into that slot, it was empty. -/
theorem pushChild_run {start l : Ledger} (hstart : start.Begins) (acts : List Act)
    (hl : start.run acts = l) {p : NodeId} {slot : Nat} {child : Option NodeId} {b : Builder}
    (h : l.builder.pushChild p child = .ok (b, slot)) :
    slot = pushes p l.log ∧ slot < l.builder.slotsOf p ∧
      l.builder.child? p slot = lastPut p slot l.log ∧ b.child? p slot = child ∧
      (∀ q, b.slotsOf q = l.builder.slotsOf q) ∧
      (∀ q i, ¬ (q = p ∧ i = slot) → b.child? q i = l.builder.child? q i) ∧
      ((∀ q i u, l.builder.HeldAt q i u → b.HeldAt q i u) ↔
        lastPut p slot l.log = none ∨ lastPut p slot l.log = child) ∧
      ((∀ f ∈ l.log, f.brings p slot = none) → l.builder.child? p slot = none) := by
  subst hl
  have hkept := hstart.kept.run acts
  obtain ⟨hslot, hputs, -⟩ := puts_of_pushChild h
  rw [hkept.filledSlots] at hslot
  refine ⟨hslot, hputs.slot_lt, hkept.child? p slot, ?_, hputs.slotsOf, fun q i hqi => ?_, ?_,
    fun hbrings => ?_⟩
  · rw [hputs.child?, if_pos ⟨rfl, rfl⟩]
  · rw [hputs.child?, if_neg hqi]
  · rw [hputs.keeps_iff, hkept.child?]
  · rw [hkept.child?, lastPut_eq_none hbrings (Nat.le_of_eq hslot.symm)]

/-- A decision gets its two children by pushing, another tree takes the place of the first one,
and a leaf is added. -/
def regrownActs (other : Cart) : List Act :=
  [.edit (.addDecision (.byteEquals 0 1)), .edit (.addLeaf (.indices [1])),
    .edit (.addLeaf (.indices [2])), .edit (.setRoot 0), .edit (.pushChild 0 (some 1)),
    .edit (.pushChild 0 (some 2)), .graft other false 1, .edit (.addLeaf (.indices [3]))]

/-- Grafting opened the graph anew, so the leaf drives out the tree that was grafted. -/
theorem pushChild_run_regrownActs :
    ∃ other l b, Sample.regressionTree = .ok other ∧
      (empty Sample.schema).run (regrownActs other) = l ∧
      l.builder.pushChild 0 (some 5) = .ok (b, 0) ∧ pushes 0 l.log = 0 ∧
      l.builder.child? 0 0 = some 1 ∧ b.child? 0 0 = some 5 ∧ b.child? 0 1 = some 2 ∧
      ¬ ∀ q i u, l.builder.HeldAt q i u → b.HeldAt q i u := by
  have hsample : (Sample.regressionTree.toOption.any fun other =>
      let l := (empty Sample.schema).run (regrownActs other)
      l.builder.child? 0 0 == some 1 && l.builder.child? 0 1 == some 2 &&
        (l.builder.pushChild 0 (some 5)).toOption.any (·.2 == 0)) = true := by
    decide +kernel
  cases ho : Sample.regressionTree with
  | error e => simp [ho, Except.toOption] at hsample
  | ok other =>
    simp only [ho, Except.toOption, Option.any_some, Bool.and_eq_true, beq_iff_eq] at hsample
    obtain ⟨⟨hfirst, hsecond⟩, hpush⟩ := hsample
    cases h : ((empty Sample.schema).run (regrownActs other)).builder.pushChild 0 (some 5) with
    | error e => simp [h] at hpush
    | ok r =>
      obtain ⟨b, slot⟩ := r
      obtain rfl : slot = 0 := by simpa [h] using hpush
      obtain ⟨hslot, -, hlast, hchild, -, hothers, hkeeps, -⟩ :=
        pushChild_run (.empty Sample.schema) (regrownActs other) rfl h
      refine ⟨other, _, b, rfl, rfl, h, hslot.symm, hfirst, hchild, ?_, ?_⟩
      · rw [hothers 0 1 (by decide), hsecond]
      · rw [hkeeps, ← hlast, hfirst]
        decide

/-- A child is put into the first slot of a decision by its number. -/
def chosenActs : List Act :=
  [.edit (.addDecision (.byteEquals 0 1)), .edit (.addLeaf (.indices [1])),
    .edit (.addLeaf (.indices [2])), .edit (.setRoot 0), .edit (.setChild 0 0 (some 1))]

/-- The next child that is pushed comes into the same slot although the other one is free, and
the first child is lost. -/
theorem pushChild_overwrites_chosenActs :
    ∃ b, ((empty Sample.schema).run chosenActs).builder.pushChild 0 (some 2) = .ok (b, 0) ∧
      ((empty Sample.schema).run chosenActs).builder.child? 0 0 = some 1 ∧
      ((empty Sample.schema).run chosenActs).builder.child? 0 1 = none ∧
      b.child? 0 0 = some 2 ∧ b.child? 0 1 = none ∧ ¬ b.HeldAt 0 0 1 ∧
      b.finish.toOption.isNone = true := by
  have hsample : (((empty Sample.schema).run chosenActs).builder.pushChild 0
      (some 2)).toOption.any (fun r => r.2 == 0 && r.1.child? 0 0 == some 2 &&
        r.1.child? 0 1 == none && r.1.finish.toOption.isNone) = true := by
    decide +kernel
  cases h : ((empty Sample.schema).run chosenActs).builder.pushChild 0 (some 2) with
  | error e => simp [h, Except.toOption] at hsample
  | ok r =>
    obtain ⟨b, slot⟩ := r
    simp only [h, Except.toOption, Option.any_some, Bool.and_eq_true, beq_iff_eq] at hsample
    obtain ⟨⟨⟨rfl, hfirst⟩, hsecond⟩, hfinish⟩ := hsample
    refine ⟨b, rfl, by decide +kernel, by decide +kernel, hfirst, hsecond, ?_, hfinish⟩
    rw [heldAt_iff, hfirst]
    decide

end Ledger

end Builder

end FeatureTree
