/-
Builders that grow into a tree.

A new node is put into the next slot of a decision, or made the root of an empty
builder.  Where nodes are added in no other way, every node but the root has the
slot it was put into, and that slot alone.

* `Builder.grown`, `Builder.extend` — a new node, and a new node in a slot;
* `Builder.Treelike` — the nodes hang together like a tree;
* `Builder.planted` — a builder with nothing but a root;
* `Builder.Treelike.planted`, `Builder.Treelike.extend` — the first node and all
  others make it so;
* `Builder.Treelike.shaped`, `Builder.Treelike.wellFormed` — the edges of such a builder are
  in order, and it is well formed as soon as its decisions suit the schema.
-/
import FeatureTree.Proofs.Tree.Building
import FeatureTree.Proofs.Tree.TreeShape

namespace FeatureTree

/-- With nothing in a slot and after it, what is put there is the last entry. -/
theorem filterMap_set_of_free {α : Type} {slots : List (Option α)} {k : Nat} (v : Option α)
    (hk : k < slots.length) (hfree : ∀ i, k ≤ i → slots[i]?.join = none) :
    (slots.set k v).filterMap id = slots.filterMap id ++ v.toList := by
  induction slots generalizing k with
  | nil => exact absurd hk (Nat.not_lt_zero k)
  | cons slot slots ih =>
    cases k with
    | zero =>
      have hslot : slot = none := hfree 0 (Nat.le_refl 0)
      -- nothing comes after the first free slot
      have hrest : slots.filterMap id = [] := by
        rw [List.filterMap_eq_nil_iff]
        intro x hx
        obtain ⟨i, hi, rfl⟩ := List.mem_iff_getElem.mp hx
        have := hfree (i + 1) (Nat.zero_le _)
        rwa [List.getElem?_cons_succ, List.getElem?_eq_getElem hi, Option.join_some] at this
      rw [List.set_cons_zero, hslot, List.filterMap_cons, List.filterMap_cons, hrest]
      cases v <;> rfl
    | succ k =>
      have hrest : ∀ i, k ≤ i → slots[i]?.join = none := fun i hi => hfree (i + 1) (by omega)
      rw [List.set_cons_succ, List.filterMap_cons, List.filterMap_cons,
        ih (Nat.lt_of_succ_lt_succ hk) hrest]
      cases slot <;> rfl

/-- The children of a node are read off its content. -/
theorem Arena.childIds_eq (a : Arena) (u : NodeId) :
    a.childIds u = ((a.content? u).map fun x => x.children.filterMap id).getD [] := by
  rw [childIds.eq_def, content?]
  cases a.node? u <;> rfl

namespace Builder

open Arena

/-! ### A new node, if there is one -/

variable (b : Builder)

/-- The builder with one more node, if there is a content for it. -/
def grown : Option NodeContent → Builder
  | some x => (b.add x).1
  | none => b

/-- The number of that node. -/
def newId? (x : Option NodeContent) : Option NodeId := x.map fun _ => b.size

variable {b} {x : Option NodeContent} {p u : NodeId}

theorem content?_grown (hu : u < b.size) : (b.grown x).content? u = b.content? u := by
  cases x with
  | none => rfl
  | some x => rw [grown, content?_add, if_neg (Nat.ne_of_lt hu)]

theorem parentLink?_grown (hu : u < b.size) : (b.grown x).parentLink? u = b.parentLink? u := by
  cases x with
  | none => rfl
  | some x => rw [grown, parentLink?_add, if_neg (Nat.ne_of_lt hu)]

@[simp] theorem filledSlots_grown : (b.grown x).filledSlots u = b.filledSlots u := by
  cases x with
  | none => rfl
  | some x => exact b.filledSlots_add

theorem InOrder.grown (h : b.InOrder) : (b.grown x).InOrder := by
  cases x with
  | none => exact h
  | some x => exact h.add

theorem filledCount_grown (h : b.InOrder) : (b.grown x).filledCount = b.filledCount := by
  cases x with
  | none => rfl
  | some x => exact filledCount_add h

theorem eq_size_of_newId? {c : NodeId} (h : b.newId? x = some c) : c = b.size := by
  cases x with
  | none => simp [newId?] at h
  | some x => simpa [newId?] using h.symm

theorem newId?_lt_size (c : NodeId) (h : b.newId? x = some c) : c < (b.grown x).size := by
  rw [eq_size_of_newId? h]
  cases x with
  | none => simp [newId?] at h
  | some x =>
    rw [Builder.grown, size_add]
    exact Nat.lt_succ_self _

theorem size_le_size_grown : b.size ≤ (b.grown x).size := by
  cases x with
  | none => exact Nat.le_refl _
  | some x =>
    rw [grown, size_add]
    omega

/-! ### A new node in a slot -/

/-- The builder with one more node, or nothing, in the next slot of a decision. -/
def extend (b : Builder) (p : NodeId) (d : Decision) (x : Option NodeContent) : Builder :=
  (b.grown x).push p d (b.newId? x)

section Extend

variable {d : Decision}

theorem content?_grown_eq : (b.grown x).content? u = if u = b.size then x else b.content? u := by
  cases x with
  | none =>
    split
    · next hu => exact content?_eq_none_iff.mpr (Nat.le_of_eq hu.symm)
    · rfl
  | some x => exact b.content?_add

@[simp] theorem size_extend : (b.extend p d x).size = (b.grown x).size := size_push _

@[simp] theorem root_grown : (b.grown x).root = b.root := by
  cases x <;> rfl

@[simp] theorem schema_grown : (b.grown x).schema = b.schema := by
  cases x <;> rfl

@[simp] theorem root_extend : (b.extend p d x).root = b.root := by
  rw [extend, root_push, root_grown]

@[simp] theorem schema_extend : (b.extend p d x).schema = b.schema := by
  rw [extend, schema_push, schema_grown]

theorem content?_extend (hp : p < b.size) :
    (b.extend p d x).content? u =
      if u = p then some (.decision
        { d with children := d.children.setIfInBounds (b.filledSlots p) (b.newId? x) })
      else if u = b.size then x else b.content? u := by
  rw [extend, content?_push _ (Nat.lt_of_lt_of_le hp size_le_size_grown), filledSlots_grown,
    content?_grown_eq]

theorem parentLink?_extend (hu : u < b.size) :
    (b.extend p d x).parentLink? u = b.parentLink? u := by
  rw [extend, parentLink?_push, parentLink?_grown hu, if_neg]
  rintro ⟨hnew, -⟩
  rw [eq_size_of_newId? hnew] at hu
  exact Nat.lt_irrefl _ hu

theorem parentLink?_extend_new {x : NodeContent} :
    (b.extend p d (some x)).parentLink? b.size = some (some p, false) := by
  rw [extend, parentLink?_push, if_pos]
  refine ⟨rfl, ?_⟩
  rw [grown, parentLink?_add, if_pos rfl]

theorem filledSlots_extend (h : b.InOrder) (hp : p < b.size) :
    (b.extend p d x).filledSlots u = if u = p then b.filledSlots p + 1 else b.filledSlots u := by
  have hsize : p < (b.grown x).filled.size := by
    rw [h.grown.size_eq]
    exact Nat.lt_of_lt_of_le hp size_le_size_grown
  rw [extend, filledSlots_push _ hsize, filledSlots_grown, filledSlots_grown]

end Extend

/-! ### Growing like a tree -/

/-- Every node but the root is held by one slot, of a node with a lower number, to
which it is linked; slots that were not filled hold nothing. -/
structure Treelike (b : Builder) : Prop where
  inOrder : b.InOrder
  root_lt : ∀ r, b.root = some r → r < b.size ∧ b.parentLink? r = some (none, true)
  below : ∀ p c, b.Holds p c → p < c ∧ c < b.size
  held : ∀ c < b.size, b.root ≠ some c → ∃ p, b.Holds p c
  linked : ∀ p c, b.Holds p c → b.parentLink? c = some (some p, false)
  nodup : ∀ p, (b.childIds p).Nodup
  unfilled : ∀ p d i, b.content? p = some (.decision d) → b.filledSlots p ≤ i → d.child? i = none
  noGraph : ∀ u g, b.content? u ≠ some (.graph g)

/-- A content to begin with: no slot holds anything yet. -/
def Childless (x : Option NodeContent) : Prop :=
  ∀ y, x = some y → y.children.filterMap id = [] ∧ ∀ g, y ≠ .graph g

theorem childless_none : Childless none :=
  fun y hy => absurd hy (by simp)

theorem childless_leaf (payload : Payload) : Childless (some (.leaf payload)) := by
  intro y hy
  obtain rfl := Option.some_inj.mp hy
  exact ⟨rfl, by simp⟩

theorem childless_of_replicate {d : Decision} {m : Nat}
    (h : d.children.toList = List.replicate m none) : Childless (some (.decision d)) := by
  intro y hy
  obtain rfl := Option.some_inj.mp hy
  refine ⟨?_, by simp⟩
  show d.children.toList.filterMap id = []
  rw [h]
  exact List.filterMap_eq_nil_iff.mpr fun slot hslot => (List.mem_replicate.mp hslot).2

theorem child?_of_childless {d : Decision} (h : (NodeContent.decision d).children.filterMap id = [])
    (i : Nat) : d.child? i = none := by
  have hnone := List.filterMap_eq_nil_iff.mp h
  rw [Decision.child?]
  cases hi : d.children[i]? with
  | none => rfl
  | some slot =>
    have hmem : slot ∈ d.children.toList := Array.mem_toList_iff.mpr (Array.mem_of_getElem? hi)
    exact hnone slot hmem

/-! ### The first node -/

/-- The builder with one node, which is the root. -/
def planted (s : Schema) (y : NodeContent) : Builder :=
  ((empty s).grown (some y)).setRoot (empty s).size

section Planted

variable {s : Schema} {y : NodeContent}

@[simp] theorem size_planted : (planted s y).size = 1 := by
  rw [planted, size_setRoot, grown, size_add, size_empty]

theorem content?_planted : (planted s y).content? u = if u = 0 then some y else none := by
  rw [planted, content?_setRoot, content?_grown_eq, size_empty, content?_empty]

theorem parentLink?_planted : (planted s y).parentLink? 0 = some (none, true) := by
  have hlt : (empty s).size < ((empty s).grown (some y)).size := by
    rw [grown, size_add]
    exact Nat.lt_succ_self _
  have hroot : ((empty s).grown (some y)).root = none := root_grown
  rw [planted, parentLink?_setRoot _ hroot hlt, if_pos]
  rfl

theorem inOrder_planted : (planted s y).InOrder := (InOrder.empty s).grown.setRoot

theorem filledSlots_planted : (planted s y).filledSlots u = 0 := by
  have h : (planted s y).filledSlots u = ((empty s).grown (some y)).filledSlots u := rfl
  rw [h, filledSlots_grown]
  exact filledSlots_eq_zero (.empty s) (Nat.zero_le _)

theorem childIds_planted (hy : Childless (some y)) : (planted s y).childIds u = [] := by
  rw [childIds_eq, content?_planted]
  split
  · exact (hy y rfl).1
  · rfl

end Planted

namespace Treelike

theorem empty (s : Schema) : (empty s).Treelike where
  inOrder := .empty s
  root_lt := by
    intro r hr
    simp [Builder.empty] at hr
  below := by
    intro p c h
    exact absurd (lt_of_holds h) (Nat.not_lt_zero p)
  held := by
    intro c hc
    exact absurd hc (Nat.not_lt_zero c)
  linked := by
    intro p c h
    exact absurd (lt_of_holds h) (Nat.not_lt_zero p)
  nodup := by
    intro p
    rw [childIds_eq, content?_empty]
    exact .nil
  unfilled := by simp
  noGraph := by simp

variable {d : Decision} {r : NodeId}

theorem childIds_extend (h : b.Treelike) (hd : b.content? p = some (.decision d))
    (hfree : b.filledSlots p < d.children.size) (hx : Childless x) (u : NodeId) :
    (b.extend p d x).childIds u =
      if u = p then b.childIds p ++ (b.newId? x).toList else b.childIds u := by
  have hp : p < b.size := lt_size_of_content? hd
  rw [childIds_eq, content?_extend hp]
  by_cases hu : u = p
  · rw [if_pos hu, if_pos hu, childIds_eq, hd]
    show (d.children.setIfInBounds _ _).toList.filterMap id = d.children.toList.filterMap id ++ _
    rw [Array.toList_setIfInBounds]
    refine filterMap_set_of_free _ hfree fun i hi => ?_
    rw [Array.getElem?_toList]
    exact h.unfilled p d i hd hi
  · rw [if_neg hu, if_neg hu]
    by_cases hnew : u = b.size
    · have hnone : b.content? u = none := content?_eq_none_iff.mpr (Nat.le_of_eq hnew.symm)
      rw [if_pos hnew, childIds_eq, hnone]
      cases x with
      | none => rfl
      | some y => exact (hx y rfl).1
    · rw [if_neg hnew, ← childIds_eq]

/-- A node of the extended builder was there before, or is the new one. -/
theorem lt_or_new {c : NodeId} (hc : c < (b.grown x).size) :
    c < b.size ∨ b.newId? x = some c := by
  cases x with
  | none => exact .inl hc
  | some y =>
    rw [grown, size_add] at hc
    rcases Nat.lt_or_eq_of_le (Nat.le_of_lt_succ hc) with hlt | rfl
    · exact .inl hlt
    · exact .inr rfl

/-- In the extended builder, too, slots that were not filled hold nothing. -/
theorem unfilled_extend (h : b.Treelike) (hd : b.content? p = some (.decision d))
    (hx : Childless x) (u : NodeId) (e : Decision) (i : Nat)
    (he : (b.extend p d x).content? u = some (.decision e))
    (hi : (b.extend p d x).filledSlots u ≤ i) : e.child? i = none := by
  have hp : p < b.size := lt_size_of_content? hd
  rw [content?_extend hp] at he
  rw [filledSlots_extend h.inOrder hp] at hi
  by_cases hu : u = p
  · rw [if_pos hu] at he hi
    obtain rfl : _ = e := by simpa using he
    have hne : b.filledSlots p ≠ i := by omega
    rw [Decision.child?, Array.getElem?_setIfInBounds_ne hne]
    exact h.unfilled p d i hd (by omega)
  · rw [if_neg hu] at he hi
    by_cases hnew : u = b.size
    · rw [if_pos hnew] at he
      exact child?_of_childless (hx _ he).1 i
    · rw [if_neg hnew] at he
      exact h.unfilled u e i he hi

/-- An edge was there before, or is the one to the new node. -/
theorem holds_extend_iff (h : b.Treelike) (hd : b.content? p = some (.decision d))
    (hfree : b.filledSlots p < d.children.size) (hx : Childless x) {q c : NodeId} :
    (b.extend p d x).Holds q c ↔ b.Holds q c ∨ (q = p ∧ b.newId? x = some c) := by
  rw [Holds, Holds, childIds_extend h hd hfree hx]
  by_cases hq : q = p
  · rw [if_pos hq, List.mem_append, Option.mem_toList, hq]
    simp [eq_comm]
  · rw [if_neg hq]
    simp [hq]

/-- A new node in the next slot of a decision keeps the builder like a tree. -/
theorem extend (h : b.Treelike) (hd : b.content? p = some (.decision d))
    (hfree : b.filledSlots p < d.children.size) (hx : Childless x) :
    (b.extend p d x).Treelike := by
  have hp : p < b.size := lt_size_of_content? hd
  have hedge : ∀ {q c : NodeId}, (b.extend p d x).Holds q c ↔
      b.Holds q c ∨ (q = p ∧ b.newId? x = some c) := h.holds_extend_iff hd hfree hx
  refine
    { inOrder := ?_, root_lt := ?_, below := ?_, held := ?_, linked := ?_, nodup := ?_,
      unfilled := ?_, noGraph := ?_ }
  · refine h.inOrder.grown.push ?_ ?_
    · rwa [content?_grown hp]
    · rwa [filledSlots_grown]
  · intro r hr
    rw [root_extend] at hr
    obtain ⟨hlt, hlink⟩ := h.root_lt r hr
    rw [size_extend, parentLink?_extend hlt]
    exact ⟨Nat.lt_of_lt_of_le hlt size_le_size_grown, hlink⟩
  · intro q c hqc
    rw [size_extend]
    rcases hedge.mp hqc with hqc | ⟨rfl, hc⟩
    · obtain ⟨hlt, hc⟩ := h.below q c hqc
      exact ⟨hlt, Nat.lt_of_lt_of_le hc size_le_size_grown⟩
    · refine ⟨?_, newId?_lt_size c hc⟩
      rwa [eq_size_of_newId? hc]
  · intro c hc hroot
    rw [size_extend] at hc
    rw [root_extend] at hroot
    rcases lt_or_new hc with hc | hc
    · obtain ⟨q, hq⟩ := h.held c hc hroot
      exact ⟨q, hedge.mpr (.inl hq)⟩
    · exact ⟨p, hedge.mpr (.inr ⟨rfl, hc⟩)⟩
  · intro q c hqc
    rcases hedge.mp hqc with hqc | ⟨rfl, hc⟩
    · rw [parentLink?_extend (h.below q c hqc).2]
      exact h.linked q c hqc
    · cases x with
      | none => simp [newId?] at hc
      | some y =>
        rw [eq_size_of_newId? hc]
        exact parentLink?_extend_new
  · intro q
    rw [childIds_extend h hd hfree hx]
    split
    · -- the new node has a number that no child had
      refine List.nodup_append.mpr ⟨h.nodup p, ?_, ?_⟩
      · cases b.newId? x <;> simp
      · rintro c hc _ hc' rfl
        have hlt := (h.below p c hc).2
        rw [eq_size_of_newId? (Option.mem_toList.mp hc')] at hlt
        exact Nat.lt_irrefl _ hlt
    · exact h.nodup q
  · exact h.unfilled_extend hd hx
  · intro u g hg
    rw [content?_extend hp] at hg
    split at hg
    · simp at hg
    · split at hg
      · exact (hx _ hg).2 g rfl
      · exact h.noGraph u g hg

/-- A builder with nothing but a root is like a tree. -/
theorem planted {s : Schema} {y : NodeContent} (hy : Childless (some y)) :
    (planted s y).Treelike := by
  have hedge : ∀ q c, ¬ (Builder.planted s y).Holds q c := by
    intro q c hqc
    rw [Holds, childIds_planted hy] at hqc
    simp at hqc
  refine
    { inOrder := inOrder_planted, root_lt := ?_, below := ?_, held := ?_, linked := ?_,
      nodup := ?_, unfilled := ?_, noGraph := ?_ }
  · intro r hr
    obtain rfl : 0 = r := Option.some_inj.mp hr
    rw [size_planted]
    exact ⟨Nat.one_pos, parentLink?_planted⟩
  · exact fun q c hqc => absurd hqc (hedge q c)
  · intro c hc hne
    rw [size_planted] at hc
    exact absurd (congrArg some (Nat.lt_one_iff.mp hc).symm) hne
  · exact fun q c hqc => absurd hqc (hedge q c)
  · intro q
    rw [childIds_planted hy]
    exact .nil
  · intro u e i he _
    rw [content?_planted] at he
    split at he
    · exact child?_of_childless (hy _ he).1 i
    · simp at he
  · intro u g hg
    rw [content?_planted] at hg
    split at hg
    · exact (hy _ hg).2 g rfl
    · simp at hg

theorem shaped (h : b.Treelike) (hroot : b.root = some r) : b.toArena.Shaped r := by
  refine .of_increasing (h.root_lt r hroot).1 h.below ?_ ?_ h.nodup
  · intro c hc hne
    exact h.held c hc fun hr => hne (Option.some_inj.mp (hr.symm.trans hroot))
  · intro p q c hp hq
    have := (h.linked p c hp).symm.trans (h.linked q c hq)
    simpa using this

theorem wellFormed (h : b.Treelike) (hroot : b.root = some r)
    (hsuits : ∀ u d, b.content? u = some (.decision d) → d.Suits b.schema) :
    b.toArena.WellFormed r :=
  (h.shaped hroot).wellFormed hsuits h.noGraph

end Treelike

end Builder

end FeatureTree
