/-
A tree in the place of a leaf.

The nodes of the tree get new numbers: its root that of the leaf, the others the numbers
after those that are taken.  No node is lost and no two get one number, so the edges of
both trees are found again, and together they form a tree.

* `Arena.Spliced`, `Arena.Grafted` — the arena with another one in the place of a leaf, node
  by node and as far as contents go;
* `Builder.spliced_splice` — splicing gives such an arena;
* `Arena.Grafted.heldAt_iff`, `Arena.Grafted.holds_iff` — its edges are those of the two
  arenas;
* `Arena.Grafted.wellFormed` — it is a tree if both are.
-/
import FeatureTree.Proofs.Schema.Fitting
import FeatureTree.Proofs.Tree.Preorder
import FeatureTree.Proofs.Tree.TreeShape

namespace FeatureTree

open Relation

/-- A node with the ids of its children and of its parent renamed. -/
def Node.renumber (rename : NodeId → NodeId) (n : Node) : Node :=
  { n with content := n.content.renumber rename, mother := n.mother.map rename }

namespace Arena

/-- An arena that has the nodes of two others, up to their counts.  Those of the first one
keep their numbers; the leaf gets the content of the root of the second one, and keeps its
parent, slot and flag.  The other nodes of the second one come behind, in their order, with
the ids of children and parents renamed as they are. -/
structure Spliced (a o b : Arena) (leaf top : NodeId) (rename : NodeId → NodeId) : Prop where
  size_eq : b.size + 1 = a.size + o.size
  kept : ∀ u n, a.node? u = some n → u ≠ leaf → ∃ k, b.node? u = some { n with count := k }
  replaced : ∀ n r, a.node? leaf = some n → o.node? top = some r →
    ∃ k, b.node? leaf = some { n with content := r.content.renumber rename, count := k }
  moved : ∀ w n, o.node? w = some n → w ≠ top →
    ∃ k, b.node? (rename w) = some { n.renumber rename with count := k }
  rename_top : rename top = leaf
  behind : ∀ w, w ≠ top → a.size ≤ rename w
  onto : ∀ u, a.size ≤ u → u < b.size → ∃ w < o.size, w ≠ top ∧ u = rename w
  increasing : ∀ v w, v ≠ top → w ≠ top → v < w → rename v < rename w
  injective : Function.Injective rename

/-- An arena that has the nodes of two others: those of the second one under new numbers,
with its root in the place of a leaf of the first one. -/
structure Grafted (a o b : Arena) (leaf top : NodeId) (rename : NodeId → NodeId) : Prop where
  kept : ∀ u < a.size, u ≠ leaf → b.content? u = a.content? u
  moved : ∀ w x, o.content? w = some x → b.content? (rename w) = some (x.renumber rename)
  onto : ∀ u < b.size, (u < a.size ∧ u ≠ leaf) ∨ ∃ w < o.size, u = rename w
  apart : ∀ w < o.size, rename w < a.size → rename w = leaf
  injective : ∀ v < o.size, ∀ w < o.size, rename v = rename w → v = w
  rename_top : rename top = leaf

namespace Spliced

variable {a o b : Arena} {leaf top : NodeId} {rename : NodeId → NodeId}
  (h : Spliced a o b leaf top rename)
include h

theorem grafted (hleaf : leaf < a.size) (htop : top < o.size) :
    Grafted a o b leaf top rename where
  kept := by
    intro u hu hne
    obtain ⟨n, hn⟩ := exists_node?_iff.mpr hu
    obtain ⟨k, hk⟩ := h.kept u n hn hne
    rw [content?_of_node? hn, content?_of_node? hk]
  moved := by
    intro w x hx
    obtain ⟨n, hn, rfl⟩ := content?_eq_some_iff.mp hx
    by_cases hw : w = top
    · subst hw
      obtain ⟨m, hm⟩ := exists_node?_iff.mpr hleaf
      obtain ⟨k, hk⟩ := h.replaced m n hm hn
      rw [h.rename_top, content?_of_node? hk]
    · obtain ⟨k, hk⟩ := h.moved w n hn hw
      rw [content?_of_node? hk, Node.renumber]
  onto := by
    intro u hu
    by_cases hlt : u < a.size
    · by_cases hne : u = leaf
      · exact .inr ⟨top, htop, hne.trans h.rename_top.symm⟩
      · exact .inl ⟨hlt, hne⟩
    · obtain ⟨w, hw, -, heq⟩ := h.onto u (Nat.le_of_not_lt hlt) hu
      exact .inr ⟨w, hw, heq⟩
  apart := by
    intro w _ hlt
    by_cases hw : w = top
    · rw [hw, h.rename_top]
    · exact absurd hlt (Nat.not_lt.mpr (h.behind w hw))
  injective := fun _ _ _ _ heq => h.injective heq
  rename_top := h.rename_top

/-- Flags and links come from one of the two arenas: from the first one at the old numbers,
from a node below the root of the second one at the numbers behind them. -/
theorem node?_cases (hleaf : leaf < a.size) (htop : top < o.size) {u : NodeId} {m : Node}
    (hm : b.node? u = some m) :
    (∃ n, a.node? u = some n ∧ m.mother = n.mother ∧ m.isRoot = n.isRoot) ∨
    a.size ≤ u ∧ ∃ w n, w ≠ top ∧ o.node? w = some n ∧ m.mother = n.mother.map rename ∧
      m.isRoot = n.isRoot := by
  by_cases hu : u < a.size
  · obtain ⟨n, hn⟩ := exists_node?_iff.mpr hu
    refine .inl ⟨n, hn, ?_⟩
    by_cases hne : u = leaf
    · subst hne
      obtain ⟨r, hr⟩ := exists_node?_iff.mpr htop
      obtain ⟨k, hk⟩ := h.replaced n r hn hr
      obtain rfl := Option.some_inj.mp (hk.symm.trans hm)
      exact ⟨rfl, rfl⟩
    · obtain ⟨k, hk⟩ := h.kept u n hn hne
      obtain rfl := Option.some_inj.mp (hk.symm.trans hm)
      exact ⟨rfl, rfl⟩
  · have hle := Nat.le_of_not_lt hu
    obtain ⟨w, hw, hne, rfl⟩ := h.onto u hle (lt_of_node? hm)
    obtain ⟨n, hn⟩ := exists_node?_iff.mpr hw
    obtain ⟨k, hk⟩ := h.moved w n hn hne
    obtain rfl := Option.some_inj.mp (hk.symm.trans hm)
    exact .inr ⟨hle, w, n, hne, hn, rfl, rfl⟩

/-- Counts have no part in it. -/
theorem recount (count : NodeId → Nat) : Spliced a o (b.recount count) leaf top rename := by
  have hnode : ∀ {u : NodeId} {n : Node}, (∃ k, b.node? u = some { n with count := k }) →
      ∃ k, (b.recount count).node? u = some { n with count := k } := by
    rintro u n ⟨k, hk⟩
    refine ⟨count u, ?_⟩
    rw [node?_recount, hk]
    rfl
  have hsize := size_eq_of_content (b.content?_recount count)
  exact
    { h with
      size_eq := hsize ▸ h.size_eq
      kept := fun u n hn hne => hnode (h.kept u n hn hne)
      replaced := fun n r hn hr =>
        hnode (n := { n with content := r.content.renumber rename }) (h.replaced n r hn hr)
      moved := fun w n hn hne => hnode (n := n.renumber rename) (h.moved w n hn hne)
      onto := fun u hle hu => h.onto u hle (hsize ▸ hu) }

end Spliced

end Arena

open Arena

/-! ### Splicing -/

namespace Builder

variable {base target top u w : Nat}

theorem spliceId_top (target base top : NodeId) : spliceId target base top top = target :=
  if_pos rfl

theorem spliceId_of_lt (h : w < top) : spliceId target base top w = base + w := by
  rw [spliceId, if_neg (Nat.ne_of_lt h), if_pos h]

theorem spliceId_of_gt (h : top < w) : spliceId target base top w = base + (w - 1) := by
  rw [spliceId, if_neg (Nat.ne_of_gt h), if_neg (Nat.lt_asymm h)]
  exact Nat.add_sub_assoc (Nat.one_le_of_lt h) base

theorem base_le_spliceId (h : w ≠ top) : base ≤ spliceId target base top w := by
  rcases Nat.lt_or_gt_of_ne h with h | h
  · rw [spliceId_of_lt h]
    exact Nat.le_add_right ..
  · rw [spliceId_of_gt h]
    exact Nat.le_add_right ..

theorem spliceId_injective (htarget : target < base) {v w : NodeId}
    (h : spliceId target base top v = spliceId target base top w) : v = w := by
  -- the root is told from the others by the bound
  have hother : ∀ x, x ≠ top → spliceId target base top x ≠ target := fun x hx =>
    Nat.ne_of_gt (Nat.lt_of_lt_of_le htarget (base_le_spliceId hx))
  by_cases hv : v = top
  · by_cases hw : w = top
    · rw [hv, hw]
    · rw [hv, spliceId_top] at h
      exact absurd h.symm (hother w hw)
  · by_cases hw : w = top
    · rw [hw, spliceId_top] at h
      exact absurd h (hother v hv)
    · rcases Nat.lt_or_gt_of_ne hv with hv | hv <;> rcases Nat.lt_or_gt_of_ne hw with hw | hw
      · rw [spliceId_of_lt hv, spliceId_of_lt hw] at h
        exact Nat.add_left_cancel h
      · rw [spliceId_of_lt hv, spliceId_of_gt hw] at h
        have := Nat.add_left_cancel h
        omega
      · rw [spliceId_of_gt hv, spliceId_of_lt hw] at h
        have := Nat.add_left_cancel h
        omega
      · rw [spliceId_of_gt hv, spliceId_of_gt hw] at h
        exact Nat.pred_inj (Nat.zero_lt_of_lt hv) (Nat.zero_lt_of_lt hw) (Nat.add_left_cancel h)

/-- The nodes of the spliced arena stay in their order. -/
theorem spliceId_lt {v : Nat} (hv : v ≠ top) (hw : w ≠ top) (h : v < w) :
    spliceId target base top v < spliceId target base top w := by
  rcases Nat.lt_or_gt_of_ne hv with hv | hv <;> rcases Nat.lt_or_gt_of_ne hw with hw | hw
  · rw [spliceId_of_lt hv, spliceId_of_lt hw]
    exact Nat.add_lt_add_left h base
  · rw [spliceId_of_lt hv, spliceId_of_gt hw]
    exact Nat.add_lt_add_left (by omega : v < w - 1) base
  · exact absurd (hv.trans h) (Nat.lt_asymm hw)
  · rw [spliceId_of_gt hv, spliceId_of_gt hw]
    exact Nat.add_lt_add_left (by omega : v - 1 < w - 1) base

/-- The nodes of an array but one, in their order. -/
theorem getElem?_extract_append {α : Type} {xs : Array α} {k i : Nat} (hk : k < xs.size) :
    (xs.extract 0 k ++ xs.extract (k + 1))[i]? = xs[if i < k then i else i + 1]? := by
  have hsize : (xs.extract 0 k).size = k := by
    rw [Array.size_extract]
    omega
  by_cases hi : i < k
  · rw [if_pos hi, Array.getElem?_append_left (hsize.symm ▸ hi), Array.getElem?_extract]
    simp only [Nat.zero_add]
    rw [if_pos (by omega)]
  · rw [if_neg hi, Array.getElem?_append_right (by omega), hsize, Array.getElem?_extract]
    split
    · exact congrArg (xs[·]?) (by omega)
    · exact (Array.getElem?_eq_none (by omega)).symm

section Splice

variable {b : Builder} {other : Arena} {r : Node}

/-- The nodes that were there, the target with the content of the other root. -/
theorem node?_splice_of_lt (hr : other.node? top = some r) (hu : u < b.size) :
    (b.splice target other top).node? u = (b.node? u).map fun n =>
      if u = target then
        { n with content := r.content.renumber (spliceId target b.size top), count := r.count }
      else n := by
  rw [node?, splice, hr]
  simp only
  rw [Array.getElem?_append_left (by rw [Array.size_modify]; exact hu), Array.getElem?_modify]
  by_cases h : target = u
  · simp only [if_pos h, if_pos h.symm]
    rfl
  · simp only [if_neg h, if_neg (Ne.symm h), Option.map_id']
    rfl

/-- The other nodes of the other arena, one after the other. -/
theorem node?_splice_add (hr : other.node? top = some r) (i : Nat) :
    (b.splice target other top).node? (b.size + i) =
      (other.node? (if i < top then i else i + 1)).map
        (Node.renumber (spliceId target b.size top)) := by
  have hbehind : b.size + i - b.nodes.size = i := by
    rw [Arena.size]
    omega
  rw [node?, splice, hr]
  simp only
  rw [Array.getElem?_append_right (by rw [Array.size_modify]; exact Nat.le_add_right ..),
    Array.size_modify, Array.getElem?_map, hbehind, getElem?_extract_append (lt_of_node? hr)]
  rfl

theorem size_splice (htop : top < other.size) :
    (b.splice target other top).size + 1 = b.size + other.size := by
  obtain ⟨r, hr⟩ := exists_node?_iff.mpr htop
  have htop' : top < other.nodes.size := htop
  rw [Arena.size, splice, hr]
  simp only [Array.size_append, Array.size_modify, Array.size_map, Array.size_extract]
  rw [Arena.size, Arena.size]
  omega

/-- Splicing puts the other arena in the place of the target. -/
theorem spliced_splice (htarget : target < b.size) (htop : top < other.size) :
    Spliced b.toArena other (b.splice target other top).toArena target top
      (spliceId target b.size top) := by
  obtain ⟨r, hr⟩ := exists_node?_iff.mpr htop
  exact
    { size_eq := size_splice htop
      kept := by
        intro u n hn hne
        refine ⟨n.count, ?_⟩
        rw [node?_splice_of_lt hr (lt_of_node? hn), hn, Option.map_some, if_neg hne]
      replaced := by
        intro n r' hn hr'
        obtain rfl : r = r' := Option.some_inj.mp (hr.symm.trans hr')
        refine ⟨r.count, ?_⟩
        rw [node?_splice_of_lt hr htarget, hn, Option.map_some, if_pos rfl]
      moved := by
        intro w n hn hne
        refine ⟨n.count, ?_⟩
        rcases Nat.lt_or_gt_of_ne hne with hw | hw
        · rw [spliceId_of_lt hw, node?_splice_add hr, if_pos hw, hn]
          rfl
        · rw [spliceId_of_gt hw, node?_splice_add hr, if_neg (by omega),
            Nat.sub_add_cancel (Nat.one_le_of_lt hw), hn]
          rfl
      rename_top := spliceId_top ..
      behind := fun w hne => base_le_spliceId hne
      onto := by
        intro u hle hu
        -- a node after the old ones comes from one side of the other root
        obtain ⟨i, rfl⟩ := Nat.exists_eq_add_of_le hle
        obtain ⟨n, hn⟩ := exists_node?_iff.mpr hu
        rw [node?_splice_add hr] at hn
        obtain ⟨m, hm, -⟩ := Option.map_eq_some_iff.mp hn
        refine ⟨_, lt_of_node? hm, ?_⟩
        by_cases hi : i < top
        · rw [if_pos hi, spliceId_of_lt hi]
          exact ⟨Nat.ne_of_lt hi, rfl⟩
        · have hgt : top < i + 1 := Nat.lt_succ_of_le (Nat.le_of_not_lt hi)
          rw [if_neg hi, spliceId_of_gt hgt]
          exact ⟨Nat.ne_of_gt hgt, rfl⟩
      increasing := fun v w hv hw h => spliceId_lt hv hw h
      injective := fun v w h => spliceId_injective htarget h }

end Splice

end Builder

/-! ### The nodes of a graft -/

theorem NodeContent.children_renumber (rename : NodeId → NodeId) (x : NodeContent) :
    (x.renumber rename).children = x.children.map (Option.map rename) := by
  cases x with
  | decision d => exact Array.toList_map
  | leaf p => rfl
  | graph g => rfl

theorem NodeContent.childIds_renumber (rename : NodeId → NodeId) (x : NodeContent) :
    (x.renumber rename).children.filterMap id = (x.children.filterMap id).map rename := by
  rw [children_renumber, List.filterMap_map, List.map_filterMap]
  rfl

theorem Decision.Suits.of_declared {s t : Schema} {d : Decision} (h : d.Suits s)
    (hst : s.declared = t.declared) : d.Suits t := by
  obtain ⟨m, hm, hkind, hsize⟩ := h
  rcases Schema.get?_cases_of_declared hst d.feature with
    ⟨hnone, -⟩ | ⟨k, m', hk, ht, -, hkind', hvalues⟩
  · exact absurd (hm.symm.trans hnone) (by simp)
  · obtain rfl : m = k := Option.some_inj.mp (hm.symm.trans hk)
    exact ⟨m', ht, fun kind hany => hkind' ▸ hkind kind hany, by rw [← hvalues]; exact hsize⟩

namespace Arena.Grafted

variable {a o b : Arena} {leaf top root u v w p c : NodeId} {rename : NodeId → NodeId}
  {payload : Payload} (h : Grafted a o b leaf top rename)
include h

theorem childIds_kept (hu : u < a.size) (hne : u ≠ leaf) : b.childIds u = a.childIds u := by
  obtain ⟨x, hx⟩ := exists_content? hu
  rw [childIds_of_content? hx, childIds_of_content? ((h.kept u hu hne).trans hx)]

theorem childIds_moved (hw : w < o.size) : b.childIds (rename w) = (o.childIds w).map rename := by
  obtain ⟨x, hx⟩ := exists_content? hw
  rw [childIds_of_content? hx, childIds_of_content? (h.moved w x hx),
    NodeContent.childIds_renumber]

theorem rename_lt (hw : w < o.size) : rename w < b.size := by
  obtain ⟨x, hx⟩ := exists_content? hw
  exact lt_size_of_content? (h.moved w x hx)

theorem eq_top_of_rename_lt (htop : top < o.size) (hw : w < o.size) (hlt : rename w < a.size) :
    w = top :=
  h.injective w hw top htop ((h.apart w hw hlt).trans h.rename_top.symm)

theorem lt_of_lt (htop : top < o.size) (hu : u < a.size) : u < b.size := by
  by_cases hne : u = leaf
  · rw [hne, ← h.rename_top]
    exact h.rename_lt htop
  · obtain ⟨x, hx⟩ := exists_content? hu
    exact lt_size_of_content? ((h.kept u hu hne).trans hx)

/-- What a moved node holds was moved as well. -/
theorem exists_of_holds_rename (hw : w < o.size) (hc : b.Holds (rename w) c) :
    ∃ v, c = rename v ∧ o.Holds w v := by
  rw [Holds, h.childIds_moved hw] at hc
  obtain ⟨v, hv, rfl⟩ := List.mem_map.mp hc
  exact ⟨v, rfl, hv⟩

/-- The slots hold what they held, those of the second arena under the new numbers; the leaf
had none. -/
theorem heldAt_iff {slot : Nat} (hleaf : a.content? leaf = some (.leaf payload)) :
    b.HeldAt p slot c ↔
      a.HeldAt p slot c ∨ ∃ v w, p = rename v ∧ c = rename w ∧ o.HeldAt v slot w := by
  constructor
  · rintro ⟨x, hx, hc⟩
    rcases h.onto p (lt_size_of_content? hx) with ⟨hp, hne⟩ | ⟨v, hv, rfl⟩
    · exact .inl ⟨x, (h.kept p hp hne).symm.trans hx, hc⟩
    · obtain ⟨y, hy⟩ := exists_content? hv
      obtain rfl : y.renumber rename = x := Option.some_inj.mp ((h.moved v y hy).symm.trans hx)
      rw [NodeContent.children_renumber, List.getElem?_map] at hc
      obtain ⟨place, hplace, hc⟩ := Option.map_eq_some_iff.mp hc
      obtain ⟨w, rfl, rfl⟩ := Option.map_eq_some_iff.mp hc
      exact .inr ⟨v, w, rfl, rfl, y, hy, hplace⟩
  · rintro (hslot | ⟨v, w, rfl, rfl, x, hx, hw⟩)
    · have hne := hslot.ne_of_leaf hleaf
      obtain ⟨x, hx, hc⟩ := hslot
      exact ⟨x, (h.kept p (lt_size_of_content? hx) hne).trans hx, hc⟩
    · refine ⟨_, h.moved v x hx, ?_⟩
      rw [NodeContent.children_renumber, List.getElem?_map, hw]
      rfl

/-- The edges are those of the first arena and the renamed ones of the second. -/
theorem holds_iff (hleaf : a.content? leaf = some (.leaf payload)) :
    b.Holds p c ↔ a.Holds p c ∨ ∃ v w, p = rename v ∧ c = rename w ∧ o.Holds v w := by
  constructor
  · intro hpc
    obtain ⟨slot, hslot⟩ := exists_heldAt hpc
    rcases (h.heldAt_iff hleaf).mp hslot with hslot | ⟨v, w, hv, hw, hslot⟩
    · exact .inl hslot.holds
    · exact .inr ⟨v, w, hv, hw, hslot.holds⟩
  · rintro (hpc | ⟨v, w, hv, hw, hvw⟩)
    · obtain ⟨slot, hslot⟩ := exists_heldAt hpc
      exact ((h.heldAt_iff hleaf).mpr (.inl hslot)).holds
    · obtain ⟨slot, hslot⟩ := exists_heldAt hvw
      exact ((h.heldAt_iff hleaf).mpr (.inr ⟨v, w, hv, hw, hslot⟩)).holds

theorem reaches_kept (hleaf : a.content? leaf = some (.leaf payload)) (hp : a.Reaches u v) :
    b.Reaches u v :=
  hp.lift id fun _ _ hpc => (h.holds_iff hleaf).mpr (.inl hpc)

theorem reaches_moved (hleaf : a.content? leaf = some (.leaf payload)) (hp : o.Reaches v w) :
    b.Reaches (rename v) (rename w) :=
  hp.lift rename fun x y hxy => (h.holds_iff hleaf).mpr (.inr ⟨x, y, rfl, rfl, hxy⟩)

theorem content?_ne_graph (ha : ∀ u g, a.content? u ≠ some (.graph g))
    (ho : ∀ u g, o.content? u ≠ some (.graph g)) (u : NodeId) (g : GraphNode) :
    b.content? u ≠ some (.graph g) := by
  intro hg
  rcases h.onto u (lt_size_of_content? hg) with ⟨hu, hne⟩ | ⟨w, hw, rfl⟩
  · rw [h.kept u hu hne] at hg
    exact ha u g hg
  · obtain ⟨x, hx⟩ := exists_content? hw
    rw [h.moved w x hx, Option.some_inj] at hg
    cases x with
    | decision d => simp [NodeContent.renumber] at hg
    | leaf p => simp [NodeContent.renumber] at hg
    | graph g' => exact ho w g' hx

section WellFormed

variable (wo : o.WellFormed top)
include wo

/-- What lies below a moved node was below it before. -/
theorem exists_of_transGen_rename (hw : w < o.size) (hc : TransGen b.Holds (rename w) c) :
    ∃ v, c = rename v ∧ TransGen o.Holds w v := by
  induction hc with
  | single hc =>
    obtain ⟨v, rfl, hv⟩ := h.exists_of_holds_rename hw hc
    exact ⟨v, rfl, .single hv⟩
  | tail _ hc ih =>
    obtain ⟨x, rfl, hx⟩ := ih
    obtain ⟨q, -, hqx⟩ := TransGen.tail'_iff.mp hx
    obtain ⟨v, rfl, hv⟩ := h.exists_of_holds_rename (wo.child_lt q x hqx) hc
    exact ⟨v, rfl, hx.tail hv⟩

theorem nodup_childIds (hone : ∀ u, a.holders u ≤ 1) (hone' : ∀ u, o.holders u ≤ 1)
    (p : NodeId) : (b.childIds p).Nodup := by
  by_cases hp : p < b.size
  · rcases h.onto p hp with ⟨hp, hne⟩ | ⟨w, hw, rfl⟩
    · rw [h.childIds_kept hp hne]
      exact Arena.nodup_childIds hone p
    · rw [h.childIds_moved hw]
      refine List.Nodup.map_on (fun x hx y hy heq => ?_) (Arena.nodup_childIds hone' w)
      exact h.injective x (wo.child_lt w x hx) y (wo.child_lt w y hy) heq
  · rw [List.eq_nil_iff_forall_not_mem.mpr fun c hc => hp (lt_of_holds hc)]
    exact List.nodup_nil

theorem suits (wa : a.WellFormed root) (hschema : b.schema = a.schema)
    (hdeclared : o.schema.declared = a.schema.declared) {d : Decision}
    (hd : b.content? u = some (.decision d)) : d.Suits b.schema := by
  rw [hschema]
  rcases h.onto u (lt_size_of_content? hd) with ⟨hu, hne⟩ | ⟨w, hw, rfl⟩
  · rw [h.kept u hu hne] at hd
    obtain ⟨n, hn, hnd⟩ := content?_eq_some_iff.mp hd
    exact wa.decisions u n d hn hnd
  · obtain ⟨x, hx⟩ := exists_content? hw
    rw [h.moved w x hx, Option.some_inj] at hd
    cases x with
    | decision e =>
      obtain ⟨n, hn, hne⟩ := content?_eq_some_iff.mp hx
      obtain ⟨m, hm, hkind, hsize⟩ := (wo.decisions w n e hn hne).of_declared hdeclared
      obtain rfl : _ = d := NodeContent.decision.inj hd
      exact ⟨m, hm, hkind, Array.size_map.trans hsize⟩
    | leaf p => simp [NodeContent.renumber] at hd
    | graph g => simp [NodeContent.renumber] at hd

variable (hleaf : a.content? leaf = some (.leaf payload))
include hleaf

/-- What lies below a node that was kept lay below it before, or was moved. -/
theorem transGen_cases (hc : TransGen b.Holds u c) (hu : ∀ w < o.size, u ≠ rename w) :
    TransGen a.Holds u c ∨ ∃ w < o.size, c = rename w := by
  induction hc with
  | single hc =>
    rcases (h.holds_iff hleaf).mp hc with hc | ⟨v, w, rfl, -, hvw⟩
    · exact .inl (.single hc)
    · exact absurd rfl (hu v (lt_of_holds hvw))
  | @tail x y _ hc ih =>
    rcases (h.holds_iff hleaf).mp hc with hc | ⟨v, w, -, rfl, hvw⟩
    · rcases ih with ih | ⟨w, hw, rfl⟩
      · exact .inl (ih.tail hc)
      · -- the only moved node that could hold an old one is the leaf, which held none
        have hlt := lt_of_holds hc
        rw [h.apart w hw hlt, Holds, childIds_of_content? hleaf] at hc
        simp [NodeContent.children] at hc
    · exact .inr ⟨w, wo.child_lt v w hvw, rfl⟩

variable (wa : a.WellFormed root)
include wa

theorem acyclic (u : NodeId) : ¬ TransGen b.Holds u u := by
  intro hu
  by_cases hmoved : ∃ w < o.size, u = rename w
  · obtain ⟨w, hw, rfl⟩ := hmoved
    obtain ⟨v, heq, hwv⟩ := h.exists_of_transGen_rename wo hw hu
    obtain ⟨q, -, hqv⟩ := TransGen.tail'_iff.mp hwv
    obtain rfl := h.injective w hw v (wo.child_lt q v hqv) heq
    exact wo.acyclic w hwv
  · have hne : ∀ w < o.size, u ≠ rename w := fun w hw heq => hmoved ⟨w, hw, heq⟩
    rcases h.transGen_cases wo hleaf hu hne with hcycle | hmoved'
    · exact wa.acyclic u hcycle
    · exact hmoved hmoved'

/-- An old node and a moved one never hold the same node: that would be the leaf, and the
root of the second arena is held by no node of it. -/
theorem eq_of_holds (hone : ∀ u, a.holders u ≤ 1) (hone' : ∀ u, o.holders u ≤ 1) {q : NodeId}
    (hp : b.Holds p c) (hq : b.Holds q c) : p = q := by
  have hmixed : ∀ {x v w : NodeId}, a.Holds x (rename w) → o.Holds v w → False := by
    intro x v w hx hvw
    have hw := wo.child_lt v w hvw
    obtain rfl := h.eq_top_of_rename_lt wo.root_lt hw (wa.child_lt x _ hx)
    exact wo.not_holds_root v hvw
  rcases (h.holds_iff hleaf).mp hp with hp | ⟨v, w, rfl, rfl, hvw⟩
  · rcases (h.holds_iff hleaf).mp hq with hq | ⟨v, w, rfl, rfl, hvw⟩
    · exact eq_of_holders_le_one (hone c) hp hq
    · exact (hmixed hp hvw).elim
  · rcases (h.holds_iff hleaf).mp hq with hq | ⟨v', w', rfl, heq, hvw'⟩
    · exact (hmixed hq hvw).elim
    · obtain rfl := h.injective w (wo.child_lt v w hvw) w' (wo.child_lt v' w' hvw') heq
      rw [eq_of_holders_le_one (hone' w) hvw hvw']

/-- Two trees over schemas that declare the same features make one tree. -/
theorem wellFormed (hone : ∀ u, a.holders u ≤ 1) (hone' : ∀ u, o.holders u ≤ 1)
    (ha : ∀ u g, a.content? u ≠ some (.graph g)) (ho : ∀ u g, o.content? u ≠ some (.graph g))
    (hschema : b.schema = a.schema) (hdeclared : o.schema.declared = a.schema.declared) :
    b.WellFormed root where
  root_lt := h.lt_of_lt wo.root_lt wa.root_lt
  child_lt := by
    intro p c hpc
    rcases (h.holds_iff hleaf).mp hpc with hpc | ⟨v, w, -, rfl, hvw⟩
    · exact h.lt_of_lt wo.root_lt (wa.child_lt p c hpc)
    · exact h.rename_lt (wo.child_lt v w hvw)
  reached := by
    intro u hu
    rcases h.onto u hu with ⟨hu, -⟩ | ⟨w, hw, rfl⟩
    · exact h.reaches_kept hleaf (wa.reached u hu)
    · have hroot := h.reaches_kept hleaf (wa.reached leaf (lt_size_of_content? hleaf))
      have hbelow := h.reaches_moved hleaf (wo.reached w hw)
      rw [h.rename_top] at hbelow
      exact hroot.trans hbelow
  acyclic := h.acyclic wo hleaf wa
  unshared := fun u n _ _ => holders_le_one
    (fun p q hp hq => h.eq_of_holds wo hleaf wa hone hone' hp hq)
    (h.nodup_childIds wo hone hone')
  decisions := fun u n d hn hd =>
    h.suits wo wa hschema hdeclared (content?_eq_some_iff.mpr ⟨n, hn, hd⟩)
  graphNodes := fun u n g hn hg =>
    absurd (content?_eq_some_iff.mpr ⟨n, hn, hg⟩) (h.content?_ne_graph ha ho u g)

end WellFormed

end Arena.Grafted

end FeatureTree
