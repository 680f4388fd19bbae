/-
The bookkeeping of a builder.

Four records have to fit together: the nodes, the counts of the slots filled in order, the
flags and links of the nodes, and the number of the root.  Some operations take numbers that
nothing checks, and a splice takes over nodes from another arena; still the records fit after
any sequence of operations.  So nothing is looked up that is not there when a child is pushed
and when the links are followed up; whether the links come to an end is another matter.

* `Builder.Reachable` — the builders that come about by the operations;
* `Builder.Tidy` — the records fit together;
* `Builder.Tidy.add`, `Builder.Tidy.link?`, `Builder.Tidy.setRoot`, `Builder.Tidy.splice` —
  every operation keeps them so;
* `Builder.Reachable.bookkeeping` — all of it for every builder.
-/
import FeatureTree.Proofs.Stream.Reads
import FeatureTree.Proofs.Tree.Climbing
import FeatureTree.Proofs.Tree.Links
import FeatureTree.Proofs.Tree.Splicing
import FeatureTree.Sample

namespace FeatureTree

open Arena

namespace Builder

/-! ### The operations -/

/-- The builders that come about by the operations.  Numbers of children and of the root
are taken as they are given; the flag says whether there was a node with the number that was
last made the root when it was.  An operation that fails leaves the builder alone. -/
inductive Reachable : Bool → Builder → Prop
  | empty (s : Schema) : Reachable true (empty s)
  | addDecision {there : Bool} {b : Builder} (d : Decision) :
      Reachable there b → Reachable there (b.addDecision d).1
  | addLeaf {there : Bool} {b : Builder} (p : Payload) :
      Reachable there b → Reachable there (b.addLeaf p).1
  | addGraphNode {there : Bool} {b : Builder} (g : GraphNode) :
      Reachable there b → Reachable there (b.addGraphNode g).1
  | setRoot {there : Bool} {b : Builder} (id : NodeId) :
      Reachable there b → Reachable (id < b.size) (b.setRoot id)
  | setChild {there : Bool} {b b' : Builder} {parent slot : Nat} {child : Option NodeId} :
      Reachable there b → b.setChild parent slot child = .ok b' → Reachable there b'
  | pushChild {there : Bool} {b b' : Builder} {parent slot : Nat} {child : Option NodeId} :
      Reachable there b → b.pushChild parent child = .ok (b', slot) → Reachable there b'
  | setGraphLeaf {there : Bool} {b b' : Builder} {parent : NodeId} {child : Option NodeId} :
      Reachable there b → b.setGraphLeaf parent child = .ok b' → Reachable there b'
  | setGraphDecision {there : Bool} {b b' : Builder} {parent : NodeId} {child : Option NodeId} :
      Reachable there b → b.setGraphDecision parent child = .ok b' → Reachable there b'
  | setContent {there : Bool} {b : Builder} (id : NodeId) (x : NodeContent) :
      Reachable there b → Reachable there (b.setContent id x)
  | setProperties {there : Bool} {b : Builder} (properties : Properties) :
      Reachable there b → Reachable there (b.setProperties properties)
  | reopen {there : Bool} {b : Builder} {g : Graph} :
      Reachable there b → b.finish = .ok g → Reachable there (ofArena g.arena)
  | splice {there there' : Bool} {b o : Builder} {g : Graph} {target root : NodeId} :
      Reachable there b → Reachable there' o → o.finish = .ok g → g.arena.root = some root →
      target < b.size → Reachable there (b.splice target g.arena root)

/-! ### The records -/

/-- The records of a builder fit together.  The flag says whether there was a node with the
number of the root when it was made the root. -/
structure Tidy (there : Bool) (b : Builder) : Prop where
  filled_size : b.filled.size = b.size
  isRoot : ∀ u n, b.node? u = some n → (n.isRoot = true ↔ there = true ∧ b.root = some u)
  orphan : ∀ u n, b.node? u = some n → n.isRoot = true → n.mother = none
  mother_lt : ∀ u n m, b.node? u = some n → n.mother = some m → m < b.size
  root_lt : ∀ r, there = true → b.root = some r → r < b.size

namespace Tidy

variable {there there' : Bool} {b b' : Builder} {p c u target root : NodeId} {slot : Nat}
  {x : NodeContent} {child : Option NodeId}

theorem empty (s : Schema) : Tidy true (empty s) where
  filled_size := rfl
  isRoot := fun u n hn => absurd hn (by simp [Builder.empty, node?])
  orphan := fun u n hn => absurd hn (by simp [Builder.empty, node?])
  mother_lt := fun u n m hn => absurd hn (by simp [Builder.empty, node?])
  root_lt := fun r _ hr => absurd hr (by simp [Builder.empty])

variable (h : Tidy there b)
include h

/-- Contents, counts of data, properties and the numbers in the counts of slots have no part
in it. -/
theorem congr (hroot : b'.root = b.root) (hsize : b'.size = b.size)
    (hfilled : b'.filled.size = b'.size)
    (hnode : ∀ u n', b'.node? u = some n' →
      ∃ n, b.node? u = some n ∧ n'.mother = n.mother ∧ n'.isRoot = n.isRoot) :
    Tidy there b' where
  filled_size := hfilled
  isRoot := by
    intro u n' hn'
    obtain ⟨n, hn, -, hr⟩ := hnode u n' hn'
    rw [hr, hroot]
    exact h.isRoot u n hn
  orphan := by
    intro u n' hn'
    obtain ⟨n, hn, hm, hr⟩ := hnode u n' hn'
    rw [hm, hr]
    exact h.orphan u n hn
  mother_lt := by
    intro u n' m hn'
    obtain ⟨n, hn, hm, -⟩ := hnode u n' hn'
    rw [hm, hsize]
    exact h.mother_lt u n m hn
  root_lt := by
    rw [hroot, hsize]
    exact h.root_lt

theorem setContent : Tidy there (b.setContent p x) := by
  refine h.congr rfl b.size_setContent (h.filled_size.trans b.size_setContent.symm)
    fun u n' hn' => ?_
  rw [node?_setContent] at hn'
  obtain ⟨n, hn, rfl⟩ := Option.map_eq_some_iff.mp hn'
  refine ⟨n, hn, ?_⟩
  split <;> exact ⟨rfl, rfl⟩

theorem setProperties (properties : Properties) : Tidy there (b.setProperties properties) :=
  h.congr rfl rfl h.filled_size fun _ n hn => ⟨n, hn, rfl, rfl⟩

/-- Freezing leaves flags and links alone, and filling in order starts anew. -/
theorem reopen {g : Graph} (hg : b.finish = .ok g) : Tidy there (ofArena g.arena) := by
  obtain ⟨count, -, heq⟩ := tallies_of_freeze (Graph.ofArena?_eq_ok_iff.mp hg)
  refine h.congr ?_ (size_eq_of_content (content?_of_finish hg)) Array.size_replicate
    fun u n' hn' => ?_
  · show g.arena.root = b.root
    rw [heq]
    rfl
  · change g.arena.node? u = some n' at hn'
    rw [heq, node?_recount] at hn'
    obtain ⟨n, hn, rfl⟩ := Option.map_eq_some_iff.mp hn'
    exact ⟨n, hn, rfl, rfl⟩

/-- A new node is neither flagged nor linked, and its number is not that of a root that was
there. -/
theorem add : Tidy there (b.add x).1 := by
  have hcases : ∀ {u n}, (b.add x).1.node? u = some n →
      (u = b.size ∧ n = { content := x }) ∨ b.node? u = some n := by
    intro u n hn
    rw [node?_add] at hn
    split at hn
    · next hu => exact .inl ⟨hu, (Option.some_inj.mp hn).symm⟩
    · exact .inr hn
  refine { filled_size := ?_, isRoot := ?_, orphan := ?_, mother_lt := ?_, root_lt := ?_ }
  · show (b.filled.push 0).size = _
    rw [Array.size_push, size_add, h.filled_size]
  · intro u n hn
    rcases hcases hn with ⟨rfl, rfl⟩ | hn
    · constructor
      · intro hr
        exact absurd hr (by simp)
      · rintro ⟨hthere, hr⟩
        exact absurd (h.root_lt _ hthere hr) (Nat.lt_irrefl _)
    · exact h.isRoot u n hn
  · intro u n hn hr
    rcases hcases hn with ⟨rfl, rfl⟩ | hn
    · rfl
    · exact h.orphan u n hn hr
  · intro u n m hn hm
    rw [size_add]
    rcases hcases hn with ⟨rfl, rfl⟩ | hn
    · exact absurd hm (by simp)
    · exact Nat.lt_succ_of_lt (h.mother_lt u n m hn hm)
  · intro r hthere hr
    rw [size_add]
    exact Nat.lt_succ_of_lt (h.root_lt r hthere hr)

/-- Only the number of the parent matters: a child that is not there is not linked, and the
root is not linked either. -/
theorem link (hp : p < b.size) : Tidy there (b.link p slot c) := by
  have hsize : (b.link p slot c).size = b.size := Array.size_modify ..
  have hcases : ∀ {u n'}, (b.link p slot c).node? u = some n' → ∃ n, b.node? u = some n ∧
      n'.isRoot = n.isRoot ∧
      (n'.mother = n.mother ∨ n.isRoot = false ∧ n'.mother = some p) := by
    intro u n' hn'
    rw [node?_link] at hn'
    obtain ⟨n, hn, rfl⟩ := Option.map_eq_some_iff.mp hn'
    refine ⟨n, hn, ?_⟩
    split
    · next hlink => exact ⟨rfl, .inr ⟨hlink.2.2, rfl⟩⟩
    · exact ⟨rfl, .inl rfl⟩
  refine { filled_size := h.filled_size.trans hsize.symm, isRoot := ?_, orphan := ?_,
           mother_lt := ?_, root_lt := hsize.symm ▸ h.root_lt }
  · intro u n' hn'
    obtain ⟨n, hn, hr, -⟩ := hcases hn'
    rw [hr]
    exact h.isRoot u n hn
  · intro u n' hn' hflag
    obtain ⟨n, hn, hr, hm | ⟨hnot, -⟩⟩ := hcases hn'
    · rw [hm]
      exact h.orphan u n hn (hr ▸ hflag)
    · rw [hr, hnot] at hflag
      exact absurd hflag (by simp)
  · intro u n' m hn' hmother
    rw [hsize]
    obtain ⟨n, hn, -, hm | ⟨-, hm⟩⟩ := hcases hn'
    · exact h.mother_lt u n m hn (hm ▸ hmother)
    · obtain rfl : p = m := Option.some_inj.mp (hm.symm.trans hmother)
      exact hp

theorem link? (hp : p < b.size) (child : Option NodeId) :
    Tidy there (b.link? p slot child) := by
  cases child with
  | none => exact h
  | some c => exact h.link hp

theorem addGraphNode (g : GraphNode) : Tidy there (b.addGraphNode g).1 := by
  have hlt : b.size < (b.add (.graph g)).1.size := by
    rw [size_add]
    exact Nat.lt_succ_self _
  refine (h.add.link? hlt g.leaf).link? ?_ g.decision
  rwa [size_link?]

theorem place {d : Decision} (hp : p < b.size) : Tidy there (b.place p d slot child) :=
  h.setContent.link? (b.size_setContent.symm ▸ hp) child

theorem setChild (hset : b.setChild p slot child = .ok b') : Tidy there b' := by
  obtain ⟨d, hd, -, -, rfl⟩ := b.setChild_eq_ok_iff.mp hset
  exact h.place (lt_size_of_content? hd)

theorem pushChild (hpush : b.pushChild p child = .ok (b', slot)) : Tidy there b' := by
  obtain ⟨d, hd, -, -, -, rfl⟩ := b.pushChild_eq_ok_iff.mp hpush
  refine (h.place (lt_size_of_content? hd)).congr rfl rfl ?_ fun _ n hn => ⟨n, hn, rfl, rfl⟩
  show (b.filled.modify p _).size = _
  rw [Array.size_modify, size_push, h.filled_size]

theorem setGraphChild {place : GraphNode → GraphNode}
    (hset : b.setGraphChild p slot place child = .ok b') : Tidy there b' := by
  obtain ⟨g, hg, rfl⟩ := setGraphChild_cases hset
  exact h.setContent.link? (b.size_setContent.symm ▸ lt_size_of_content? hg) child

/-- The flag goes from the old root to the new one, which loses its link. -/
theorem setRoot (c : NodeId) : Tidy (c < b.size) (b.setRoot c) := by
  have hcases : ∀ {u n'}, (b.setRoot c).node? u = some n' → ∃ n, b.node? u = some n ∧
      n' = if c = u then { n with isRoot := true, mother := none }
        else if b.root = some u then { n with isRoot := false } else n := by
    intro u n' hn'
    rw [node?_setRoot] at hn'
    obtain ⟨n, hn, rfl⟩ := Option.map_eq_some_iff.mp hn'
    exact ⟨n, hn, rfl⟩
  have hroot : (b.setRoot c).root = some c := rfl
  refine { filled_size := h.filled_size.trans b.size_setRoot.symm, isRoot := ?_, orphan := ?_,
           mother_lt := ?_, root_lt := ?_ }
  · intro u n' hn'
    obtain ⟨n, hn, rfl⟩ := hcases hn'
    rw [hroot, decide_eq_true_eq, Option.some_inj]
    by_cases hu : c = u
    · rw [if_pos hu]
      exact ⟨fun _ => ⟨hu ▸ lt_of_node? hn, hu⟩, fun _ => rfl⟩
    · -- a flag that stood elsewhere stood at the old root, and was taken away there
      rw [if_neg hu]
      refine ⟨fun hr => ?_, fun hr => absurd hr.2 hu⟩
      split at hr
      · exact absurd hr (by simp)
      · next hne => exact absurd ((h.isRoot u n hn).mp hr).2 hne
  · intro u n' hn' hr
    obtain ⟨n, hn, rfl⟩ := hcases hn'
    split at hr
    · next hu => rw [if_pos hu]
    · next hu =>
      rw [if_neg hu]
      split at hr
      · exact absurd hr (by simp)
      · next hne =>
        rw [if_neg hne]
        exact h.orphan u n hn hr
  · intro u n' m hn' hm
    obtain ⟨n, hn, rfl⟩ := hcases hn'
    rw [size_setRoot]
    split at hm
    · exact absurd hm (by simp)
    · refine h.mother_lt u n m hn ?_
      split at hm <;> exact hm
  · intro r hc hr
    obtain rfl : c = r := Option.some_inj.mp (hroot.symm.trans hr)
    rw [size_setRoot]
    exact of_decide_eq_true hc

/-- The nodes that come from the other arena are not its root, so that none of them is
flagged; and their links lead to nodes that come along, or to the target. -/
theorem splice {a : Arena} (h' : Tidy there' (ofArena a)) (hroot : a.root = some root)
    (htop : root < a.size) (htarget : target < b.size) :
    Tidy there (b.splice target a root) := by
  have hspliced := spliced_splice htarget htop
  have hle : b.size ≤ (b.splice target a root).size := by
    have hsize : (b.splice target a root).size + 1 = b.size + a.size := hspliced.size_eq
    have hpos : 0 < a.size := Nat.zero_lt_of_lt htop
    omega
  have hflag : ∀ w n, w ≠ root → a.node? w = some n → n.isRoot = false := by
    intro w n hne hn
    refine Bool.eq_false_iff.mpr fun hflag => hne ?_
    obtain ⟨-, hw⟩ := (h'.isRoot w n hn).mp hflag
    exact Option.some_inj.mp (hw.symm.trans hroot)
  refine { filled_size := ?_, isRoot := ?_, orphan := ?_, mother_lt := ?_, root_lt := ?_ }
  · obtain ⟨top, hr⟩ := exists_node?_iff.mpr htop
    have hfilled := h.filled_size
    rw [size] at hfilled
    rw [size, Builder.splice, hr]
    simp only [Array.size_append, Array.size_replicate, Array.size_modify, hfilled]
  · intro u n' hn'
    rcases hspliced.node?_cases htarget htop hn' with
      ⟨n, hn, -, hr⟩ | ⟨hu, w, n, hne, hn, -, hr⟩
    · rw [hr]
      exact h.isRoot u n hn
    · rw [hr, hflag w n hne hn]
      constructor
      · intro hfalse
        exact absurd hfalse (by simp)
      · rintro ⟨hthere, hroot'⟩
        exact absurd (h.root_lt u hthere hroot') (Nat.not_lt.mpr hu)
  · intro u n' hn' hr'
    rcases hspliced.node?_cases htarget htop hn' with
      ⟨n, hn, hm, hr⟩ | ⟨-, w, n, hne, hn, -, hr⟩
    · rw [hm]
      exact h.orphan u n hn (hr ▸ hr')
    · exact absurd (hr'.symm.trans (hr.trans (hflag w n hne hn))) (by simp)
  · intro u n' m hn' hm'
    rcases hspliced.node?_cases htarget htop hn' with
      ⟨n, hn, hm, -⟩ | ⟨-, w, n, -, hn, hm, -⟩
    · exact (h.mother_lt u n m hn (hm ▸ hm')).trans_le hle
    · obtain ⟨q, hq, rfl⟩ := Option.map_eq_some_iff.mp (hm.symm.trans hm')
      have hlt : q < a.size := h'.mother_lt w n q hn hq
      exact (hspliced.grafted htarget htop).rename_lt hlt
  · exact fun r hthere hr' => (h.root_lt r hthere hr').trans_le hle

end Tidy

/-! ### Every builder -/

/-- Every operation keeps the records in line. -/
theorem Reachable.tidy {there : Bool} {b : Builder} (h : Reachable there b) : Tidy there b := by
  induction h with
  | empty s => exact .empty s
  | addDecision d _ ih => exact ih.add
  | addLeaf p _ ih => exact ih.add
  | addGraphNode g _ ih => exact ih.addGraphNode g
  | setRoot id _ ih => exact ih.setRoot id
  | setChild _ hset ih => exact ih.setChild hset
  | pushChild _ hpush ih => exact ih.pushChild hpush
  | setGraphLeaf _ hset ih => exact ih.setGraphChild hset
  | setGraphDecision _ hset ih => exact ih.setGraphChild hset
  | setContent id x _ ih => exact ih.setContent
  | setProperties properties _ ih => exact ih.setProperties properties
  | reopen _ hg ih => exact ih.reopen hg
  | splice _ _ hg hroot htarget ih ih' =>
    exact ih.splice (ih'.reopen hg) hroot (Graph.wellFormed _ hroot).root_lt htarget

/-- Where there is a count for every node, pushing a child reads and raises the one of its
parent. -/
theorem Tidy.filled_pushChild {there : Bool} {b b' : Builder} {p : NodeId} {slot : Nat}
    {child : Option NodeId} (h : Tidy there b) (hpush : b.pushChild p child = .ok (b', slot)) :
    b.filled[p]? = some slot ∧ b'.filled[p]? = some (slot + 1) := by
  obtain ⟨d, hd, -, -, rfl, rfl⟩ := b.pushChild_eq_ok_iff.mp hpush
  have hp : p < b.filled.size := h.filled_size ▸ lt_size_of_content? hd
  have hslot : b.filled[p]? = some (b.filledSlots p) := by
    rw [filledSlots, Array.getElem?_eq_getElem hp]
    rfl
  refine ⟨hslot, ?_⟩
  show (b.filled.modify p _)[p]? = _
  rw [Array.getElem?_modify, if_pos rfl, hslot]
  rfl

/-- Whatever operations were done, there is a count of filled slots for every node; a node
is flagged exactly if it is the root, provided that there was such a node when it was made
the root; a node that is flagged has no parent, and every parent is there.  So pushing a
child finds the count it reads and raises, and the ways up from a node, followed as far as
one likes, find every node on the way: the depth is always told, and the decision path unless
the links never end. -/
theorem Reachable.bookkeeping {there : Bool} {b : Builder} (h : Reachable there b) :
    b.filled.size = b.size ∧
    (∀ u n, b.node? u = some n →
      (n.isRoot = true ↔ there = true ∧ b.root = some u) ∧
      (n.isRoot = true → n.mother = none) ∧ ∀ m, n.mother = some m → m < b.size) ∧
    (∀ r, there = true → b.root = some r →
      ∃ n, b.node? r = some n ∧ n.isRoot = true ∧ n.mother = none) ∧
    (∀ p < b.size, b.filled[p]? = some (b.filledSlots p)) ∧
    (∀ p child b' slot, b.pushChild p child = .ok (b', slot) →
      b.filled[p]? = some slot ∧ b'.filled[p]? = some (slot + 1)) ∧
    ∀ u < b.size,
      (∀ fuel, ∃ k, b.depthLoop fuel u = .ok k) ∧
      (∀ fuel room steps, (∃ labels, b.pathLoop fuel room u steps = .ok labels) ∨
        b.pathLoop fuel room u steps = .error .endless) ∧
      (∃ k, b.depth u = .ok k) ∧
      ((∃ path, b.decisionPath u = .ok path) ∨
        b.decisionPath u = .error .endless ∧
          ∀ fuel, b.pathLoop fuel b.size u [] = .error .endless) := by
  have hb := h.tidy
  refine ⟨hb.filled_size, fun u n hn => ⟨hb.isRoot u n hn, hb.orphan u n hn,
    fun m => hb.mother_lt u n m hn⟩, fun r hthere hr => ?_, fun p hp => ?_,
    fun p child b' slot => hb.filled_pushChild, fun u hu => ?_⟩
  · obtain ⟨n, hn⟩ := exists_node?_iff.mpr (hb.root_lt r hthere hr)
    have hflag := (hb.isRoot r n hn).mpr ⟨hthere, hr⟩
    exact ⟨n, hn, hflag, hb.orphan r n hn hflag⟩
  · rw [filledSlots, Array.getElem?_eq_getElem (hb.filled_size.symm ▸ hp)]
    rfl
  · have hpath := fun fuel room steps => pathLoop_cases hb.mother_lt fuel room steps hu
    refine ⟨fun fuel => exists_depthLoop hb.mother_lt fuel hu, hpath,
      exists_depthLoop hb.mother_lt (b.size + 1) hu, ?_⟩
    rcases decisionPath_cases hb.mother_lt hu with hok | hendless
    · exact .inl hok
    · exact .inr ⟨hendless, (decisionPath_eq_endless_iff u).mp hendless⟩

/-- A graph node over numbers that are not there when it comes; it becomes the root after one
of its children was. -/
def unlinked : Builder :=
  let b := (Builder.empty Sample.schema).addGraphNode ⟨some 1, some 2⟩ |>.1
  let b := b.addLeaf (.indices [1]) |>.1
  let b := b.addDecision (.below 2 Sample.tenth) |>.1
  let b := b.addLeaf (.indices [2, 3]) |>.1
  (b.setRoot 1).setRoot 0

/-- The graph put in the place of one of its own leaves. -/
def doubled : Except GraphError Builder := do
  let (b, _) ← unlinked.pushChild 2 (some 3)
  let g ← b.finish
  return (ofArena g.arena).splice 3 g.arena 0

theorem reachable_unlinked : Reachable true unlinked := by
  have h := ((((Reachable.empty Sample.schema).addGraphNode ⟨some 1, some 2⟩).addLeaf
    (.indices [1])).addDecision (.below 2 Sample.tenth)).addLeaf (.indices [2, 3])
  exact (h.setRoot 1).setRoot 0

theorem reachable_doubled {b : Builder} (h : doubled = .ok b) (hroot : b.root = some 0) :
    Reachable true b := by
  obtain ⟨⟨b', slot⟩, hpush, h⟩ := bind_eq_ok_iff.mp h
  obtain ⟨g, hg, h⟩ := bind_eq_ok_iff.mp h
  obtain rfl := Except.ok.inj h
  have hb' : Reachable true b' := reachable_unlinked.pushChild hpush
  have hsize : (ofArena g.arena).size = unlinked.size := by
    obtain ⟨d, -, -, -, -, rfl⟩ := unlinked.pushChild_eq_ok_iff.mp hpush
    exact (size_eq_of_content (content?_of_finish hg)).trans (size_push _)
  exact (hb'.reopen hg).splice hb' hg hroot (hsize ▸ by decide)

theorem bookkeeping_doubled :
    ∃ b n, doubled = .ok b ∧ Reachable true b ∧ b.filled.size = 7 ∧ b.root = some 0 ∧
      b.node? 0 = some n ∧ n.isRoot = true ∧ n.mother = none ∧
      (∃ k, b.depth 6 = .ok k) ∧ ∃ path, b.decisionPath 6 = .ok path := by
  have hsample : (doubled.toOption.any fun b => b.size == 7 && b.root == some 0 &&
      (b.pathLoop 2 b.size 6 []).toOption.isSome) = true := by
    decide +kernel
  obtain ⟨b, hb, hsample⟩ := exists_of_any_toOption hsample
  simp only [Bool.and_eq_true, beq_iff_eq] at hsample
  obtain ⟨⟨hsize, hroot⟩, hends⟩ := hsample
  have h := reachable_doubled hb hroot
  obtain ⟨hfilled, -, htop, -, -, hways⟩ := h.bookkeeping
  obtain ⟨n, hn, hflag, hmother⟩ := htop 0 rfl hroot
  obtain ⟨-, -, hdepth, hpath | ⟨-, hendless⟩⟩ := hways 6 (by omega)
  · exact ⟨b, n, hb, h, hfilled.trans hsize, hroot, hn, hflag, hmother, hdepth, hpath⟩
  · rw [hendless 2] at hends
    exact absurd hends (by simp [Except.toOption])

/-- Two graph nodes that were each the child of the other, one after the other. -/
def circling : Except GraphError Builder := do
  let b := (Builder.empty Sample.schema).addLeaf (.indices [1]) |>.1
  let b := b.addGraphNode ⟨none, none⟩ |>.1
  let b := b.addGraphNode ⟨some 0, some 1⟩ |>.1
  let b ← b.setGraphDecision 1 (some 2)
  let b ← b.setGraphDecision 1 none
  let b := b.addLeaf (.indices [2]) |>.1
  let b ← b.setGraphLeaf 1 (some 3)
  let b := b.addGraphNode ⟨none, some 2⟩ |>.1
  return b.setRoot 4

-- the slots run in no circle, so that freezing succeeds; the links do
example : (circling.toOption.any fun b => b.finish.toOption.isSome &&
    decide (b.depth 1 = .ok 6) && decide (b.decisionPath 1 = .error .endless)) = true := by
  decide +kernel

end Builder

end FeatureTree
