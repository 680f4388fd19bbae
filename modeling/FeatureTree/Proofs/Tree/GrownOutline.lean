/-
Outlines in a builder that goes on growing.

What lies below a slot stays as it is when nodes are added elsewhere, so an outline
that is complete can be told from the nodes that were added for it.

* `Builder.Path` — nodes that are each a child of the next one, up to the root;
* `Builder.Extends` — a builder that goes on from another one;
* `Builder.Suited` — contents that suit the schema and the kind of leaves;
* `Builder.Shows` — an outline is found below a slot, whatever is added later;
* `Builder.Shows.branch` — a decision shows what its slots show.
-/
import FeatureTree.Proofs.Tree.Growing

namespace FeatureTree

namespace Builder

variable {b b' : Builder} {u p : NodeId} {path : List NodeId}

/-- Every node of a list is a child of the next one, and the last one is the root. -/
inductive Path (b : Builder) : List NodeId → Prop
  | root {u : NodeId} {m : Option NodeId} : b.parentLink? u = some (m, true) → Path b [u]
  | child {u p : NodeId} {rest : List NodeId} :
      b.parentLink? u = some (some p, false) → Path b (p :: rest) → Path b (u :: p :: rest)

theorem Path.of_links (hlinks : ∀ v x, b.parentLink? v = some x → b'.parentLink? v = some x)
    (h : b.Path path) : b'.Path path := by
  induction h with
  | root hu => exact .root (hlinks _ _ hu)
  | child hu _ ih => exact .child (hlinks _ _ hu) ih

theorem Path.ne_nil (h : b.Path path) : path ≠ [] := by
  cases h <;> simp

theorem Path.drop {n : Nat} (h : b.Path path) (hn : n < path.length) : b.Path (path.drop n) := by
  induction h generalizing n with
  | root hu =>
    obtain rfl : n = 0 := by simpa using hn
    exact .root hu
  | child hu hrest ih =>
    cases n with
    | zero => exact .child hu hrest
    | succ n => exact ih (Nat.lt_of_succ_lt_succ hn)

/-! ### Outlines in a growing builder -/

/-- From some bound on, an outline is found below a slot in every arena that has the
same nodes from a number on. -/
def Shows (b : Builder) (low : NodeId) (slot : Option NodeId) (x : Outline) : Prop :=
  ∃ bound, ∀ a : Arena, (∀ u, low ≤ u → u < b.size → a.content? u = b.content? u) →
    ∀ fuel, bound ≤ fuel → a.unfold fuel slot = x

section Shows

variable {low low' : NodeId} {slot : Option NodeId} {x : Outline}

theorem Shows.empty (b : Builder) (low : NodeId) : b.Shows low none .empty :=
  ⟨0, fun a _ fuel _ => a.unfold_none fuel⟩

theorem Shows.leaf {payload : Payload} (hlow : low ≤ u)
    (hu : b.content? u = some (.leaf payload)) : b.Shows low (some u) (.leaf payload) := by
  refine ⟨1, fun a ha fuel hfuel => ?_⟩
  obtain ⟨fuel, rfl⟩ := Nat.exists_eq_add_of_le' hfuel
  rw [Arena.unfold, ha u hlow (Arena.lt_size_of_content? hu), hu]

theorem Shows.mono (h : b.Shows low slot x) (hlow : low' ≤ low) (hsize : b.size ≤ b'.size)
    (hkeep : ∀ u, low ≤ u → u < b.size → b'.content? u = b.content? u) :
    b'.Shows low' slot x := by
  obtain ⟨bound, h⟩ := h
  refine ⟨bound, fun a ha fuel hfuel => h a (fun u hu hlt => ?_) fuel hfuel⟩
  rw [ha u (Nat.le_trans hlow hu) (Nat.lt_of_lt_of_le hlt hsize), hkeep u hu hlt]

theorem exists_bound {slots : List (Option NodeId)} {xs : List Outline}
    (h : List.Forall₂ (b.Shows low) slots xs) :
    ∃ bound, ∀ a : Arena, (∀ u, low ≤ u → u < b.size → a.content? u = b.content? u) →
      ∀ fuel, bound ≤ fuel → slots.map (a.unfold fuel) = xs := by
  induction h with
  | nil => exact ⟨0, fun _ _ _ _ => rfl⟩
  | cons hslot _ ih =>
    obtain ⟨m, hm⟩ := hslot
    obtain ⟨k, hk⟩ := ih
    refine ⟨max m k, fun a ha fuel hfuel => ?_⟩
    rw [List.map_cons, hm a ha fuel (by omega), hk a ha fuel (by omega)]

theorem Shows.branch {d : Decision} {xs : List Outline} (hlow : low ≤ u)
    (hu : b.content? u = some (.decision d))
    (h : List.Forall₂ (b.Shows low) d.children.toList xs) :
    b.Shows low (some u) (.branch d.feature d.test xs) := by
  obtain ⟨bound, hbound⟩ := exists_bound h
  refine ⟨bound + 1, fun a ha fuel hfuel => ?_⟩
  obtain ⟨fuel, rfl⟩ := Nat.exists_eq_add_of_le' (Nat.le_of_add_left_le hfuel)
  rw [Arena.unfold, ha u hlow (Arena.lt_size_of_content? hu), hu]
  simp only [hbound a ha fuel (by omega)]

end Shows

/-- A builder that goes on from another one: of the nodes that were there, only one got
more children. -/
structure Extends (b b' : Builder) (p : NodeId) : Prop where
  size_le : b.size ≤ b'.size
  content : ∀ u < b.size, u ≠ p → b'.content? u = b.content? u
  filled : ∀ u < b.size, u ≠ p → b'.filledSlots u = b.filledSlots u
  links : ∀ u < b.size, b'.parentLink? u = b.parentLink? u
  root : b'.root = b.root

/-- The contents suit the schema, and the leaves are of one kind. -/
structure Suited (b : Builder) (kind : LeafKind) : Prop where
  decisions : ∀ u d, b.content? u = some (.decision d) → d.Suits b.schema
  leaves : ∀ u payload, b.content? u = some (.leaf payload) → payload.kind = kind

/-- What was added below a new node was added below the node that holds it. -/
theorem Extends.below {b'' : Builder} {q : NodeId} (h : Extends b b' p) (h' : Extends b' b'' q)
    (hq : b.size ≤ q) : Extends b b'' p where
  size_le := Nat.le_trans h.size_le h'.size_le
  content := fun u hu hne =>
    (h'.content u (Nat.lt_of_lt_of_le hu h.size_le) (Nat.ne_of_lt (Nat.lt_of_lt_of_le hu hq))).trans
      (h.content u hu hne)
  filled := fun u hu hne =>
    (h'.filled u (Nat.lt_of_lt_of_le hu h.size_le) (Nat.ne_of_lt (Nat.lt_of_lt_of_le hu hq))).trans
      (h.filled u hu hne)
  links := fun u hu => (h'.links u (Nat.lt_of_lt_of_le hu h.size_le)).trans (h.links u hu)
  root := h'.root.trans h.root

theorem Extends.trans {b'' : Builder} (h : Extends b b' p) (h' : Extends b' b'' p) :
    Extends b b'' p where
  size_le := Nat.le_trans h.size_le h'.size_le
  content := fun u hu hne => (h'.content u (Nat.lt_of_lt_of_le hu h.size_le) hne).trans
    (h.content u hu hne)
  filled := fun u hu hne => (h'.filled u (Nat.lt_of_lt_of_le hu h.size_le) hne).trans
    (h.filled u hu hne)
  links := fun u hu => (h'.links u (Nat.lt_of_lt_of_le hu h.size_le)).trans (h.links u hu)
  root := h'.root.trans h.root

theorem Extends.isPath (h : Extends b b' p) (hpath : b.Path path) : b'.Path path := by
  refine hpath.of_links fun v x hv => ?_
  obtain ⟨m, hm, -⟩ := Option.map_eq_some_iff.mp hv
  rw [h.links v (Arena.lt_of_node? hm), hv]

section Extend

variable {d : Decision} {x : Option NodeContent}

theorem extends_extend (h : b.InOrder) (hp : p < b.size) : Extends b (b.extend p d x) p where
  size_le := by
    rw [size_extend]
    exact size_le_size_grown
  content := by
    intro u hu hne
    rw [content?_extend hp, if_neg hne, if_neg (Nat.ne_of_lt hu)]
  filled := by
    intro u _ hne
    rw [filledSlots_extend h hp, if_neg hne]
  links := fun u hu => parentLink?_extend hu
  root := root_extend

theorem Suited.extend {kind : LeafKind} (h : b.Suited kind) (hd : b.content? p = some (.decision d))
    (hdecision : ∀ e, x = some (.decision e) → e.Suits b.schema)
    (hleaf : ∀ payload, x = some (.leaf payload) → payload.kind = kind) :
    (b.extend p d x).Suited kind := by
  have hp := Arena.lt_size_of_content? hd
  constructor
  · intro u e he
    rw [schema_extend]
    rw [content?_extend hp] at he
    split at he
    -- a filled slot changes neither the test nor the number of slots
    · obtain ⟨m, hm, hkind, hsize⟩ := h.decisions p d hd
      obtain rfl : _ = e := by simpa using he
      exact ⟨m, hm, hkind, (Array.size_setIfInBounds ..).trans hsize⟩
    · split at he
      · exact hdecision e he
      · exact h.decisions u e he
  · intro u payload hu
    rw [content?_extend hp] at hu
    split at hu
    · simp at hu
    · split at hu
      · exact hleaf payload hu
      · exact h.leaves u payload hu

end Extend

theorem suited_planted {s : Schema} {y : NodeContent} {kind : LeafKind}
    (hdecision : ∀ e, y = .decision e → e.Suits s)
    (hleaf : ∀ payload, y = .leaf payload → payload.kind = kind) : (planted s y).Suited kind := by
  constructor
  · intro u e he
    rw [content?_planted] at he
    split at he
    · exact hdecision e (Option.some_inj.mp he)
    · simp at he
  · intro u payload hu
    rw [content?_planted] at hu
    split at hu
    · exact hleaf payload (Option.some_inj.mp hu)
    · simp at hu

end Builder

end FeatureTree
