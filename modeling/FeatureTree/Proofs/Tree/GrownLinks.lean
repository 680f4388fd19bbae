/-
Links of builders that grow like a tree.

A new node is linked to the slot it is put into, and nothing is put into that slot again.  So
the links keep agreeing with the slots while the builder grows, and no two slots hold one
node.

* `Builder.node?_extend_of_lt`, `Builder.node?_extend_new` — the nodes after a new one was put
  into a slot;
* `Builder.SlotLinked` — every node that is held is linked to the slot that holds it;
* `Builder.SlotLinked.extend` — a new node in the next slot keeps it so;
* `Builder.Treelike.exists_slot` — the one slot of a node other than the root.
-/
import FeatureTree.Proofs.Tree.Growing
import FeatureTree.Proofs.Tree.History

namespace FeatureTree

open Arena

namespace Builder

variable {b : Builder} {p q u c root : NodeId} {i : Nat} {d : Decision} {x : Option NodeContent}

/-- Every node that is held is linked to the slot that holds it. -/
def SlotLinked (b : Builder) : Prop :=
  ∀ p slot u n, b.HeldAt p slot u → b.node? u = some n → n.mother = some p ∧ n.index = slot

/-! ### The nodes after a new one was put into a slot -/

/-- The content of a decision with a child, or nothing, in its next slot. -/
def nextFilled (b : Builder) (p : NodeId) (d : Decision) (x : Option NodeContent) : NodeContent :=
  .decision { d with children := d.children.setIfInBounds (b.filledSlots p) (b.newId? x) }

theorem node?_extend :
    (b.extend p d x).node? u = (((b.grown x).setContent p (b.nextFilled p d x)).link? p
      (b.filledSlots p) (b.newId? x)).node? u := by
  show ((b.grown x).place p d ((b.grown x).filledSlots p) (b.newId? x)).node? u = _
  rw [filledSlots_grown, place, nextFilled]

/-- Of the nodes that were there only the parent changes, and only its content. -/
theorem node?_extend_of_lt (hu : u < b.size) :
    (b.extend p d x).node? u =
      (b.node? u).map fun n => if p = u then { n with content := b.nextFilled p d x } else n := by
  rw [node?_extend]
  cases x with
  | none => exact node?_setContent
  | some y =>
    have hne : b.size ≠ u := Nat.ne_of_gt hu
    show (Builder.link _ p _ b.size).node? u = _
    rw [node?_link, node?_setContent, grown, node?_add, if_neg hne.symm]
    simp only [hne, false_and, if_false, Option.map_id']

/-- The new node is linked to the slot it was put into. -/
theorem node?_extend_new {y : NodeContent} (hp : p < b.size) :
    (b.extend p d (some y)).node? b.size =
      some { content := y, mother := some p, index := b.filledSlots p } := by
  rw [node?_extend]
  show (Builder.link _ p _ b.size).node? b.size = _
  rw [node?_link, node?_setContent, grown, node?_add, if_pos rfl, Option.map_some,
    if_neg (Nat.ne_of_lt hp), Option.map_some, if_pos ⟨rfl, rfl, rfl⟩]

/-- A slot holds what it held, or it is the next one of the parent and holds the new node. -/
theorem heldAt_extend (hd : b.content? p = some (.decision d)) (hx : Childless x)
    (h : (b.extend p d x).HeldAt q i c) :
    b.HeldAt q i c ∨ q = p ∧ i = b.filledSlots p ∧ b.newId? x = some c := by
  obtain ⟨y, hy, hc⟩ := h
  rw [content?_extend (lt_size_of_content? hd)] at hy
  split at hy
  · next hq =>
    obtain rfl := Option.some_inj.mp hy
    rw [NodeContent.children, Array.getElem?_toList, Array.getElem?_setIfInBounds] at hc
    split at hc
    · next hi =>
      split at hc
      · exact .inr ⟨hq, hi.symm, Option.some_inj.mp hc⟩
      · exact absurd hc (by simp)
    · refine .inl ⟨_, hq ▸ hd, ?_⟩
      rwa [NodeContent.children, Array.getElem?_toList]
  · split at hy
    · -- the new node holds nothing
      have hmem : c ∈ y.children.filterMap id :=
        List.mem_filterMap.mpr ⟨some c, List.mem_of_getElem? hc, rfl⟩
      rw [(hx y hy).1] at hmem
      exact absurd hmem List.not_mem_nil
    · exact .inl ⟨y, hy, hc⟩

/-! ### Links and slots -/

theorem SlotLinked.of_not_heldAt (h : ∀ p slot u, ¬ b.HeldAt p slot u) : b.SlotLinked :=
  fun p slot u _ hheld => absurd hheld (h p slot u)

theorem SlotLinked.empty (s : Schema) : (Builder.empty s).SlotLinked :=
  .of_not_heldAt fun p _ _ hheld => Nat.not_lt_zero p (lt_of_holds hheld.holds)

theorem SlotLinked.planted {s : Schema} {y : NodeContent} (hy : Childless (some y)) :
    (Builder.planted s y).SlotLinked := by
  refine .of_not_heldAt fun p slot u hheld => ?_
  have hmem : u ∈ (Builder.planted s y).childIds p := hheld.holds
  rw [childIds_planted hy] at hmem
  exact absurd hmem List.not_mem_nil

theorem SlotLinked.extend (h : b.SlotLinked) (ht : b.Treelike)
    (hd : b.content? p = some (.decision d)) (hx : Childless x) :
    (b.extend p d x).SlotLinked := by
  intro q i c n hheld hn
  rcases heldAt_extend hd hx hheld with hold | ⟨rfl, rfl, hc⟩
  · rw [node?_extend_of_lt (ht.below q c hold.holds).2] at hn
    obtain ⟨m, hm, rfl⟩ := Option.map_eq_some_iff.mp hn
    have hlink := h q i c m hold hm
    split <;> exact hlink
  · cases x with
    | none => exact absurd hc (by simp [newId?])
    | some y =>
      rw [eq_size_of_newId? hc, node?_extend_new (lt_size_of_content? hd)] at hn
      obtain rfl := Option.some_inj.mp hn
      exact ⟨rfl, rfl⟩

/-- Every node but the root is held by one slot, to which it is linked. -/
theorem Treelike.exists_slot (h : b.Treelike) (hlinks : b.SlotLinked) (hu : u < b.size)
    (hne : b.root ≠ some u) :
    ∃ p slot n, b.HeldAt p slot u ∧ (∀ q i, b.HeldAt q i u → q = p ∧ i = slot) ∧
      b.node? u = some n ∧ n.mother = some p ∧ n.index = slot := by
  obtain ⟨p, hp⟩ := h.held u hu hne
  obtain ⟨slot, hslot⟩ := exists_heldAt hp
  obtain ⟨n, hn⟩ := exists_node?_iff.mpr hu
  obtain ⟨hmother, hindex⟩ := hlinks p slot u n hslot hn
  refine ⟨p, slot, n, hslot, fun q i hheld => ?_, hn, hmother, hindex⟩
  -- a second slot would be the one of the link as well
  obtain ⟨hmother', hindex'⟩ := hlinks q i u n hheld hn
  exact ⟨Option.some_inj.mp (hmother'.symm.trans hmother), hindex'.symm.trans hindex⟩

/-- The root is held by no slot and linked to none. -/
theorem Treelike.root_free (h : b.Treelike) (hroot : b.root = some root) :
    (∀ q i, ¬ b.HeldAt q i root) ∧ ∀ n, b.node? root = some n → n.mother = none := by
  obtain ⟨-, hlink⟩ := h.root_lt root hroot
  refine ⟨fun q i hheld => ?_, fun n hn => ?_⟩
  · have hbelow := (h.linked q root hheld.holds).symm.trans hlink
    exact absurd hbelow (by simp)
  · rw [parentLink?, hn] at hlink
    exact congrArg Prod.fst (Option.some_inj.mp hlink)

end Builder

end FeatureTree
