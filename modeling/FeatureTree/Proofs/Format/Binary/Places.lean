/-
The places at which the nodes of a tree are read back.

The nodes of a tree are numbered in the order of the walk, decisions before leaves.
So a decision comes before the decisions below it and before all leaves, and what
is read is a tree again.

* `Binary.place?` — the place of a node;
* `Binary.lt_of_holds_of_place` — places grow on the way down;
* `Binary.restores_assembled` — what is linked restores what was written.
-/
import FeatureTree.Proofs.Format.Binary.Linking
import FeatureTree.Proofs.Format.Binary.Numbering
import FeatureTree.Proofs.Format.Binary.Restoring

namespace FeatureTree.Binary

open Arena Relation

/-- The place at which a node is read back, if it is stored. -/
def place? (es : List (NodeId × Node)) (u : NodeId) : Option NodeId := (order es).idxOf? u

/-- The decisions as they are read back. -/
def restoredDecisions (es : List (NodeId × Node)) : List Decision :=
  (decisionEntries es).map fun e => relink (place? es) e.2

/-- The leaves as they are read back. -/
def restoredLeaves (symbol : Option Nat) (es : List (NodeId × Node)) : List Payload :=
  (leafEntries es).map fun e => e.2.stored symbol

section Places

variable {es : List (NodeId × Node)} {u v i j : Nat} (hes : (es.map (·.1)).Nodup)

theorem length_order :
    (order es).length = (decisionEntries es).length + (leafEntries es).length := by
  rw [order, List.length_append, List.length_map, List.length_map]

theorem getElem?_of_place? (h : place? es u = some i) : (order es)[i]? = some u := by
  obtain ⟨hlt, hu, -⟩ := List.idxOf?_eq_some_iff.mp h
  rw [List.getElem?_eq_getElem hlt, hu]

include hes in
theorem place?_eq_some_iff : place? es u = some i ↔ (order es)[i]? = some u :=
  ⟨getElem?_of_place?, idxOf?_of_getElem? (nodup_order hes)⟩

/-- The two parts of the order. -/
theorem getElem?_order : (order es)[i]? = some u ↔
    (∃ d, (decisionEntries es)[i]? = some (u, d)) ∨
      (decisionEntries es).length ≤ i ∧
        ∃ p, (leafEntries es)[i - (decisionEntries es).length]? = some (u, p) := by
  rw [order]
  by_cases h : i < (decisionEntries es).length
  · rw [List.getElem?_append_left (by simpa using h), List.getElem?_map, Option.map_eq_some_iff]
    constructor
    · rintro ⟨⟨u', d⟩, hd, rfl⟩
      exact .inl ⟨d, hd⟩
    · rintro (⟨d, hd⟩ | ⟨hle, -⟩)
      · exact ⟨(u, d), hd, rfl⟩
      · exact absurd h (Nat.not_lt.mpr hle)
  · rw [List.getElem?_append_right (by simpa using h), List.length_map, List.getElem?_map,
      Option.map_eq_some_iff]
    constructor
    · rintro ⟨⟨u', p⟩, hp, rfl⟩
      exact .inr ⟨Nat.le_of_not_lt h, p, hp⟩
    · rintro (⟨d, hd⟩ | ⟨-, p, hp⟩)
      · exact absurd (List.getElem?_eq_some_iff.mp hd).1 h
      · exact ⟨(u, p), hp, rfl⟩

/-- The node at a place of the table that is read back. -/
theorem getElem?_table (symbol : Option Nat) (h : place? es u = some i) :
    (∃ d, (u, d) ∈ decisionEntries es ∧
      (table (restoredDecisions es) (restoredLeaves symbol es))[i]? =
        some (.decision (relink (place? es) d))) ∨
    ∃ p, (u, p) ∈ leafEntries es ∧
      (table (restoredDecisions es) (restoredLeaves symbol es))[i]? =
        some (.leaf (p.stored symbol)) := by
  rw [table, restoredDecisions, restoredLeaves]
  rcases getElem?_order.mp (getElem?_of_place? h) with ⟨d, hd⟩ | ⟨hle, p, hp⟩
  · refine .inl ⟨d, List.mem_of_getElem? hd, ?_⟩
    rw [List.getElem?_append_left (by simpa using (List.getElem?_eq_some_iff.mp hd).1)]
    simp [hd]
  · refine .inr ⟨p, List.mem_of_getElem? hp, ?_⟩
    rw [List.getElem?_append_right (by simpa using hle)]
    simp [hp]

end Places

/-! ### The nodes of a tree -/

section Tree

variable {a a' : Arena} {root : NodeId} {symbol : Option Nat}

/-- The nodes of an arena in the order of the walk. -/
def entries (a : Arena) (root : NodeId) : List (NodeId × Node) :=
  (a.walk a.size root).filterMap a.entryAt?

theorem mem_entries {u : NodeId} {n : Node} (w : a.WellFormed root) :
    (u, n) ∈ entries a root ↔ a.node? u = some n := by
  rw [entries, List.mem_filterMap]
  constructor
  · rintro ⟨v, -, hv⟩
    obtain ⟨m, hm, heq⟩ := Option.map_eq_some_iff.mp hv
    obtain ⟨rfl, rfl⟩ := Prod.mk.inj heq
    exact hm
  · intro hn
    exact ⟨u, w.mem_walk_iff.mpr (lt_of_node? hn), Option.map_eq_some_iff.mpr ⟨n, hn, rfl⟩⟩

theorem map_fst_entries (w : a.WellFormed root) :
    (entries a root).map (·.1) = a.walk a.size root := by
  have hsub : ∀ us : List NodeId, (∀ u ∈ us, u < a.size) →
      (us.filterMap a.entryAt?).map (·.1) = us := by
    intro us hus
    induction us with
    | nil => rfl
    | cons u us ih =>
      obtain ⟨n, hn⟩ := exists_node?_iff.mpr (hus u List.mem_cons_self)
      rw [List.filterMap_cons_some (by rw [entryAt?, hn]; rfl), List.map_cons,
        ih fun v hv => hus v (List.mem_cons_of_mem _ hv)]
  exact hsub _ fun u hu => w.mem_walk_iff.mp hu

variable (w : a.WellFormed root) (hone : ∀ u, a.holders u ≤ 1)
include w hone

theorem nodup_entries : ((entries a root).map (·.1)).Nodup := by
  rw [map_fst_entries w]
  exact nodup_walk w.acyclic hone a.size root

/-- A node has a lower place than the nodes it holds: decisions come before
leaves, and of two decisions the later one does not lie above the earlier one. -/
theorem lt_of_holds_of_place {u v i j : Nat} (huv : a.Holds u v)
    (hu : place? (entries a root) u = some i) (hv : place? (entries a root) v = some j) :
    i < j := by
  have hi := getElem?_order.mp (getElem?_of_place? hu)
  have hj := getElem?_order.mp (getElem?_of_place? hv)
  rcases hi with ⟨d, hd⟩ | ⟨-, p, hp⟩
  · have hilt := (List.getElem?_eq_some_iff.mp hd).1
    rcases hj with ⟨e, he⟩ | ⟨hle, -⟩
    · -- two decisions
      have hpairwise : ((decisionEntries (entries a root)).map (·.1)).Pairwise
          fun x y => ¬ a.Reaches y x := by
        refine List.Pairwise.sublist map_fst_decisionEntries ?_
        rw [map_fst_entries w]
        exact pairwise_walk w.acyclic hone a.size root
      rcases Nat.lt_trichotomy i j with hlt | rfl | hlt
      · exact hlt
      · rw [hd, Option.some_inj, Prod.mk.injEq] at he
        obtain ⟨rfl, -⟩ := he
        exact absurd (TransGen.single huv) (w.acyclic u)
      · have := List.pairwise_iff_getElem.mp hpairwise j i
          (by simpa using (List.getElem?_eq_some_iff.mp he).1) (by simpa using hilt) hlt
        obtain ⟨hi', hui⟩ := List.getElem?_eq_some_iff.mp hd
        obtain ⟨hj', hvj⟩ := List.getElem?_eq_some_iff.mp he
        rw [List.getElem_map, List.getElem_map, hui, hvj] at this
        exact absurd (ReflTransGen.single huv) this
    · omega
  · -- a leaf holds nothing
    obtain ⟨n, hn, hnp, -⟩ := mem_leafEntries.mp (List.mem_of_getElem? hp)
    have hcontent : a.content? u = some (.leaf p) :=
      content?_eq_some_iff.mpr ⟨n, (mem_entries w).mp hn, hnp⟩
    rw [Holds, childIds_of_content? hcontent] at huv
    simp [NodeContent.children] at huv

/-- What is linked from the table restores the tree. -/
theorem restores_assembled (hgraph : ∀ u g, a.content? u ≠ some (.graph g))
    (htable : ∀ i : Nat, a'.content? i = (table (restoredDecisions (entries a root))
      (restoredLeaves symbol (entries a root)))[i]?) :
    Restores a a' symbol (place? (entries a root)) := by
  have hes := nodup_entries w hone
  refine ⟨?_, ?_, ?_, ?_⟩
  · intro u i hu
    rcases getElem?_table symbol hu with ⟨d, hd, hi⟩ | ⟨p, hp, hi⟩
    · obtain ⟨n, hn, hnd⟩ := mem_decisionEntries.mp hd
      exact .inl ⟨d, content?_eq_some_iff.mpr ⟨n, (mem_entries w).mp hn, hnd⟩,
        (htable i).trans hi⟩
    · obtain ⟨n, hn, hnp, hdata⟩ := mem_leafEntries.mp hp
      exact .inr ⟨p, content?_eq_some_iff.mpr ⟨n, (mem_entries w).mp hn, hnp⟩, hdata,
        (htable i).trans hi⟩
  · intro u hu
    -- only a leaf without data is left out of the order
    have hnot : u ∉ order (entries a root) := List.idxOf?_eq_none_iff.mp hu
    cases hc : a.content? u with
    | none => exact .inl rfl
    | some content =>
      obtain ⟨n, hn, hnc⟩ := content?_eq_some_iff.mp hc
      cases content with
      | decision d =>
        refine absurd (List.mem_append_left _ (List.mem_map.mpr ⟨(u, d), ?_, rfl⟩)) hnot
        exact mem_decisionEntries.mpr ⟨n, (mem_entries w).mpr hn, hnc⟩
      | leaf p =>
        refine .inr ⟨p, rfl, ?_⟩
        by_contra hp
        refine absurd (List.mem_append_right _ (List.mem_map.mpr ⟨(u, p), ?_, rfl⟩)) hnot
        exact mem_leafEntries.mpr ⟨n, (mem_entries w).mpr hn, hnc, by simpa using hp⟩
      | graph g => exact absurd hc (hgraph u g)
  · intro i hi
    have hlt : i < (order (entries a root)).length := by
      obtain ⟨x, hx⟩ := exists_content? hi
      rw [htable i] at hx
      have := (List.getElem?_eq_some_iff.mp hx).1
      rw [length_order]
      simpa [table, restoredDecisions, restoredLeaves] using this
    exact ⟨_, (place?_eq_some_iff hes).mpr (List.getElem?_eq_getElem hlt)⟩
  · intro u v i hu hv
    have := (getElem?_of_place? hu).symm.trans (getElem?_of_place? hv)
    exact Option.some_inj.mp this

end Tree

end FeatureTree.Binary
