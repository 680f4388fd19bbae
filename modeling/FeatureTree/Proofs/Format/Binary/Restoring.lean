/-
Trees that lost their empty leaves and got new numbers.

`Restores a a' f` says that the arena `a'` holds the nodes of `a` under the numbers
that `f` gives, up to what a stream keeps of a payload; a node without a number is
a leaf without data, and the slot that held it is empty.

* `Outline.stored`, `Outline.descend_stored` — what a stream keeps of an outline,
  and where the descent for a vector ends;
* `Binary.Restores.unfold_eq` — the outlines of the two arenas;
* `Binary.Restores.wellFormed` — a restored tree is a tree, if numbers grow on the
  way down.
-/
import FeatureTree.Proofs.Format.Binary.Records
import FeatureTree.Proofs.Tree.Preorder
import FeatureTree.Proofs.Tree.TreeShape

namespace FeatureTree

open Arena Relation

/-! ### Outlines -/

namespace Outline

/-- What a stream keeps of an outline: a leaf without data is an empty slot. -/
def stored (symbol : Option Nat) : Outline → Outline
  | empty => empty
  | leaf p => if p.isEmpty then empty else leaf (p.stored symbol)
  | branch feature test children => branch feature test (children.map fun x => stored symbol x)
  | backOff fallback specific => backOff (stored symbol fallback) (stored symbol specific)

/-- What a stream keeps of the answer to a vector: no data is no answer. -/
def storedAnswer (symbol : Option Nat) (answer : Option Payload) : Option Payload :=
  (answer.filter (!·.isEmpty)).map fun p => p.stored symbol

theorem filter_storedAnswer (symbol : Option Nat) (answer : Option Payload) :
    (storedAnswer symbol answer).filter (!·.isEmpty) = storedAnswer symbol answer := by
  rw [storedAnswer]
  cases h : answer.filter (!·.isEmpty) with
  | none => rfl
  | some p =>
    have hp := (Option.filter_eq_some_iff.mp h).2
    rw [Option.map_some, Option.filter_some, Payload.isEmpty_stored, if_pos hp]

/-- The descent ends where it ended before, and an answer without data is none. -/
theorem descend_stored (symbol : Option Nat) (v : FeatureVector) (x : Outline) :
    (x.stored symbol).descend v = (x.descend v).map (storedAnswer symbol) := by
  induction x with
  | empty =>
    rw [stored, descend]
    rfl
  | leaf p =>
    rw [stored, descend]
    by_cases hp : p.isEmpty = true
    · rw [if_pos hp, descend]
      simp [Except.map, storedAnswer, Option.filter, hp]
    · rw [if_neg hp, descend]
      simp [Except.map, storedAnswer, Option.filter, hp]
  | branch feature test children ih =>
    rw [stored, descend, descend]
    simp only [bind, Except.bind]
    cases (Decision.ofSlots feature test 0).slot v with
    | error e => rfl
    | ok slot =>
      cases slot with
      | none => rfl
      | some i =>
        simp only [Option.bind_some, List.map_map, List.getElem?_map]
        cases hi : children[i]? with
        | none => rfl
        | some x =>
          simp only [Option.map_some, Option.getD_some, Function.comp]
          exact ih x (List.mem_of_getElem? hi)
  -- an answer without data gives way to the fallback, stored or not
  | backOff fallback specific ihf ihs =>
    rw [stored, descend, descend, ihs, ihf]
    simp only [bind, Except.bind]
    cases specific.descend v with
    | error e => rfl
    | ok answer =>
      simp only [Except.map, filter_storedAnswer]
      rw [storedAnswer]
      cases h : answer.filter (!·.isEmpty) with
      | none => rfl
      | some p =>
        have hp : p.isEmpty = false := by simpa using (Option.filter_eq_some_iff.mp h).2
        simp [pure, Except.pure, storedAnswer, Option.filter, hp]

end Outline

namespace Binary

/-- The decision with other numbers for its children; a child without a number is
none. -/
def relink (f : NodeId → Option NodeId) (d : Decision) : Decision :=
  { d with children := d.children.map fun slot => slot.bind f }

/-- Decisions and leaves with data are found again under their new numbers, and
only leaves without data have none. -/
structure Restores (a a' : Arena) (symbol : Option Nat) (f : NodeId → Option NodeId) : Prop where
  kept : ∀ u i, f u = some i →
    (∃ d, a.content? u = some (.decision d) ∧ a'.content? i = some (.decision (relink f d))) ∨
    ∃ p, a.content? u = some (.leaf p) ∧ p.isEmpty = false ∧
      a'.content? i = some (.leaf (p.stored symbol))
  dropped : ∀ u, f u = none → a.content? u = none ∨
    ∃ p, a.content? u = some (.leaf p) ∧ p.isEmpty = true
  onto : ∀ i < a'.size, ∃ u, f u = some i
  injective : ∀ u v i, f u = some i → f v = some i → u = v

variable {a a' : Arena} {symbol : Option Nat} {f : NodeId → Option NodeId} {root u v i j : NodeId}

namespace Restores

variable (h : Restores a a' symbol f)
include h

theorem unfold_eq (fuel : Nat) (slot : Option NodeId) :
    a'.unfold fuel (slot.bind f) = (a.unfold fuel slot).stored symbol := by
  induction fuel generalizing slot with
  | zero =>
    have hempty : ∀ (x : Arena) (slot : Option NodeId), x.unfold 0 slot = .empty := by
      intro x slot
      cases slot <;> rfl
    rw [hempty, hempty, Outline.stored]
  | succ fuel ih =>
    cases slot with
    | none => rw [Option.bind_none, unfold_none, unfold_none, Outline.stored]
    | some u =>
      rw [Option.bind_some]
      cases hf : f u with
      | none =>
        rw [unfold_none]
        -- without a number there is no outline below the slot
        rcases h.dropped u hf with hu | ⟨p, hu, hp⟩
        · rw [unfold, hu, Outline.stored]
        · rw [unfold, hu, Outline.stored, if_pos hp]
      | some i =>
        rcases h.kept u i hf with ⟨d, hu, hi⟩ | ⟨p, hu, hp, hi⟩
        · rw [unfold, unfold, hu, hi]
          simp only [Outline.stored, relink, Array.toList_map, List.map_map]
          rw [Outline.branch.injEq]
          refine ⟨rfl, rfl, List.map_congr_left fun slot _ => ?_⟩
          exact ih slot
        · rw [unfold, unfold, hu, hi]
          simp only [Outline.stored, hp]
          rfl

theorem content?_ne_graph (i : NodeId) (g : GraphNode) : a'.content? i ≠ some (.graph g) := by
  intro hi
  obtain ⟨u, hu⟩ := h.onto i (lt_size_of_content? hi)
  rcases h.kept u i hu with ⟨d, -, hd⟩ | ⟨p, -, -, hp⟩
  · rw [hi] at hd
    simp at hd
  · rw [hi] at hp
    simp at hp

/-- The children of a node are those of its former self that have a number. -/
theorem childIds_eq (hu : f u = some i) : a'.childIds i = (a.childIds u).filterMap f := by
  rcases h.kept u i hu with ⟨d, hd, hi⟩ | ⟨p, hp, -, hi⟩
  · rw [childIds_of_content? hd, childIds_of_content? hi]
    simp only [NodeContent.children, relink, Array.toList_map, List.filterMap_map,
      List.filterMap_filterMap]
    rfl
  · rw [childIds_of_content? hp, childIds_of_content? hi]
    rfl

theorem holds_iff : a'.Holds i j ↔ ∃ u v, f u = some i ∧ f v = some j ∧ a.Holds u v := by
  constructor
  · intro hij
    obtain ⟨u, hu⟩ := h.onto i (lt_of_holds hij)
    rw [Holds, h.childIds_eq hu] at hij
    obtain ⟨v, hv, hj⟩ := List.mem_filterMap.mp hij
    exact ⟨u, v, hu, hj, hv⟩
  · rintro ⟨u, v, hu, hv, huv⟩
    rw [Holds, h.childIds_eq hu]
    exact List.mem_filterMap.mpr ⟨v, huv, hv⟩

/-- A node that holds something kept its number. -/
theorem exists_of_holds (huv : a.Holds u v) : ∃ i, f u = some i := by
  cases hf : f u with
  | some i => exact ⟨i, rfl⟩
  | none =>
    have hnone : a.childIds u = [] := by
      rcases h.dropped u hf with hu | ⟨p, hu, -⟩
      · exact absurd (lt_of_holds huv) (Nat.not_lt.mpr (content?_eq_none_iff.mp hu))
      · rw [childIds_of_content? hu]
        rfl
    rw [Holds, hnone] at huv
    simp at huv

theorem lt_size (hu : f u = some i) : i < a'.size := by
  rcases h.kept u i hu with ⟨d, -, hi⟩ | ⟨p, -, -, hi⟩
  · exact lt_size_of_content? hi
  · exact lt_size_of_content? hi

/-- What is restored of a tree whose root is kept is a tree, if every child has a
greater number than its parent. -/
theorem wellFormed (w : a.WellFormed root) (hone : ∀ u, a.holders u ≤ 1)
    (hroot : f root = some 0) (hschema : a'.schema = a.schema.stored)
    (hlt : ∀ u v i j, a.Holds u v → f u = some i → f v = some j → i < j) :
    a'.WellFormed 0 := by
  refine (Shaped.of_increasing (h.lt_size hroot) ?_ ?_ ?_ ?_).wellFormed ?_ h.content?_ne_graph
  · intro i j hij
    obtain ⟨u, v, hu, hv, huv⟩ := h.holds_iff.mp hij
    exact ⟨hlt u v i j huv hu hv, h.lt_size hv⟩
  · intro j hj hne
    obtain ⟨v, hv⟩ := h.onto j hj
    have hvlt : v < a.size := by
      rcases h.kept v j hv with ⟨d, hd, -⟩ | ⟨p, hp, -, -⟩
      · exact lt_size_of_content? hd
      · exact lt_size_of_content? hp
    rcases (w.reached v hvlt).cases_tail with rfl | ⟨u, -, huv⟩
    · rw [hroot] at hv
      exact absurd (Option.some_inj.mp hv).symm hne
    · obtain ⟨i, hi⟩ := h.exists_of_holds huv
      exact ⟨i, h.holds_iff.mpr ⟨u, v, hi, hv, huv⟩⟩
  -- two parents would be two parents before as well
  · intro i i' j hij hij'
    obtain ⟨u, v, hu, hv, huv⟩ := h.holds_iff.mp hij
    obtain ⟨u', v', hu', hv', huv'⟩ := h.holds_iff.mp hij'
    obtain rfl := h.injective v v' j hv hv'
    obtain rfl := eq_of_holders_le_one (hone v) huv huv'
    exact Option.some_inj.mp (hu.symm.trans hu')
  · intro i
    by_cases hi : i < a'.size
    · obtain ⟨u, hu⟩ := h.onto i hi
      rw [h.childIds_eq hu]
      refine (nodup_childIds hone u).filterMap fun v v' j hv hv' => ?_
      exact h.injective v v' j hv hv'
    · have hnone : a'.childIds i = [] := by
        refine List.eq_nil_iff_forall_not_mem.mpr fun j hj => hi (lt_of_holds hj)
      rw [hnone]
      exact List.nodup_nil
  · intro i d hd
    obtain ⟨u, hu⟩ := h.onto i (lt_size_of_content? hd)
    rcases h.kept u i hu with ⟨d', hd', hi⟩ | ⟨p, -, -, hi⟩
    · rw [hd, Option.some_inj, NodeContent.decision.injEq] at hi
      obtain ⟨n, hn, hnd⟩ := content?_eq_some_iff.mp hd'
      obtain ⟨m, hm, hkind, hsize⟩ := (w.decisions u n d' hn hnd).stored
      rw [hschema, hi]
      exact ⟨m, hm, hkind, (Array.size_map ..).trans hsize⟩
    · rw [hd] at hi
      simp at hi

/-- The outline of what is restored. -/
theorem outline_eq (w : a.WellFormed root) (w' : a'.WellFormed 0) (hroot : a.root = some root)
    (hroot' : a'.root = some 0) (hf : f root = some 0) :
    a'.outline = a.outline.stored symbol := by
  have hold : a.outline = a.unfold (a.size + a'.size + 1) (some root) := by
    rw [outline, hroot]
    refine unfold_eq_unfold w.acyclic (fun u _ => ?_) (fun u _ => ?_)
    · have := a.rank_le_size u
      omega
    · have := a.rank_le_size u
      omega
  have hnew : a'.outline = a'.unfold (a.size + a'.size + 1) (some 0) := by
    rw [outline, hroot']
    refine unfold_eq_unfold w'.acyclic (fun u _ => ?_) (fun u _ => ?_)
    · have := a'.rank_le_size u
      omega
    · have := a'.rank_le_size u
      omega
  rw [hold, hnew, ← h.unfold_eq, Option.bind_some, hf]

end Restores

end Binary

end FeatureTree
