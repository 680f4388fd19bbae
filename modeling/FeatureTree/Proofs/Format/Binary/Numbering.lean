/-
The numbers of nodes in a binary stream.

The decisions and the leaves with data are numbered in traversal order, each kind
by itself; the reference of a node is its number with the sign of its kind.  A
reader that puts the decisions before the leaves finds every node again at its
place in `order`.

* `Binary.order` — the stored nodes in the order in which they are read;
* `Binary.Numbering.numbered_foldl` — what numbering gives, by induction over the
  nodes;
* `Binary.reference_eq_numberAt` — the reference of a node in terms of its place;
* `Binary.resolve_reference` — a reference names the place of its node.
-/
import FeatureTree.Format.Binary.Writer
import FeatureTree.Proofs.Tree.Outline

namespace FeatureTree.Binary

/-! ### The stored nodes -/

/-- The decisions among several nodes. -/
def decisionEntries (es : List (NodeId × Node)) : List (NodeId × Decision) :=
  es.filterMap fun e => e.2.decision?.map (e.1, ·)

/-- The leaves with data among several nodes. -/
def leafEntries (es : List (NodeId × Node)) : List (NodeId × Payload) :=
  es.filterMap fun e => (e.2.payload?.filter fun p => !p.isEmpty).map (e.1, ·)

/-- The stored nodes, decisions before leaves. -/
def order (es : List (NodeId × Node)) : List NodeId :=
  (decisionEntries es).map (·.1) ++ (leafEntries es).map (·.1)

variable {es : List (NodeId × Node)} {u : NodeId} {n : Node} {d : Decision} {p : Payload}

theorem mem_decisionEntries :
    (u, d) ∈ decisionEntries es ↔ ∃ n, (u, n) ∈ es ∧ n.content = .decision d := by
  rw [decisionEntries, List.mem_filterMap]
  constructor
  · rintro ⟨⟨v, n⟩, hmem, h⟩
    obtain ⟨d', hd', heq⟩ := Option.map_eq_some_iff.mp h
    obtain ⟨rfl, rfl⟩ := Prod.mk.inj heq
    refine ⟨n, hmem, ?_⟩
    rw [Node.decision?] at hd'
    cases hc : n.content <;> simp_all
  · rintro ⟨n, hmem, hc⟩
    refine ⟨(u, n), hmem, ?_⟩
    simp [Node.decision?, hc]

theorem mem_leafEntries :
    (u, p) ∈ leafEntries es ↔ ∃ n, (u, n) ∈ es ∧ n.content = .leaf p ∧ p.isEmpty = false := by
  rw [leafEntries, List.mem_filterMap]
  constructor
  · rintro ⟨⟨v, n⟩, hmem, h⟩
    obtain ⟨p', hp', heq⟩ := Option.map_eq_some_iff.mp h
    obtain ⟨rfl, rfl⟩ := Prod.mk.inj heq
    obtain ⟨hp, hdata⟩ := Option.filter_eq_some_iff.mp hp'
    refine ⟨n, hmem, ?_, by simpa using hdata⟩
    rw [Node.payload?] at hp
    cases hc : n.content <;> simp_all
  · rintro ⟨n, hmem, hc, hdata⟩
    refine ⟨(u, n), hmem, ?_⟩
    simp [Node.payload?, hc, hdata, Option.filter]

theorem map_fst_decisionEntries :
    ((decisionEntries es).map (·.1)).Sublist (es.map (·.1)) := by
  induction es with
  | nil => exact .slnil
  | cons e es ih =>
    rw [decisionEntries, List.filterMap_cons]
    cases e.2.decision? with
    | none => exact ih.cons _
    | some d => exact ih.cons_cons _

theorem map_fst_leafEntries : ((leafEntries es).map (·.1)).Sublist (es.map (·.1)) := by
  induction es with
  | nil => exact .slnil
  | cons e es ih =>
    rw [leafEntries, List.filterMap_cons]
    cases e.2.payload?.filter fun p => !p.isEmpty with
    | none => exact ih.cons _
    | some p => exact ih.cons_cons _

theorem order_subset (h : u ∈ order es) : u ∈ es.map (·.1) := by
  rcases List.mem_append.mp h with h | h
  · exact map_fst_decisionEntries.subset h
  · exact map_fst_leafEntries.subset h

/-- No node is stored twice. -/
theorem nodup_order (hes : (es.map (·.1)).Nodup) : (order es).Nodup := by
  refine List.nodup_append.mpr
    ⟨hes.sublist map_fst_decisionEntries, hes.sublist map_fst_leafEntries, ?_⟩
  intro u hu v hv huv
  subst huv
  obtain ⟨⟨u', d⟩, hd, rfl⟩ := List.mem_map.mp hu
  obtain ⟨⟨v', p⟩, hp, heq⟩ := List.mem_map.mp hv
  obtain ⟨n, hn, hnd⟩ := mem_decisionEntries.mp hd
  obtain ⟨m, hm, hmp, -⟩ := mem_leafEntries.mp hp
  obtain rfl : v' = u' := heq
  have : (v', n) = (v', m) := List.inj_on_of_nodup_map hes hn hm rfl
  obtain rfl : n = m := (Prod.mk.inj this).2
  rw [hnd] at hmp
  simp at hmp

/-! ### Numbering -/

namespace Numbering

/-- What a numbering `y` has that `x` did not have, after these nodes. -/
structure Numbered (x : Numbering) (es : List (NodeId × Node)) (y : Numbering) : Prop where
  decisions : y.decisions.toList = x.decisions.toList ++ (decisionEntries es).map (·.2)
  leaves : y.leaves.toList = x.leaves.toList ++ (leafEntries es).map (·.2)
  size_eq : y.references.size = x.references.size
  decision : ∀ i u d, (decisionEntries es)[i]? = some (u, d) →
    y.references[u]? = some (-((x.decisions.size + i + 1 : Nat) : Int))
  leaf : ∀ i u p, (leafEntries es)[i]? = some (u, p) →
    y.references[u]? = some ((x.leaves.size + i + 1 : Nat) : Int)
  other : ∀ u, u ∉ order es → y.references[u]? = x.references[u]?

variable {x y : Numbering}

/-- A node that is not stored changes nothing. -/
theorem Numbered.skip {e : NodeId × Node} (h : Numbered x es y)
    (hd : decisionEntries (e :: es) = decisionEntries es)
    (hl : leafEntries (e :: es) = leafEntries es) : Numbered x (e :: es) y := by
  refine ⟨?_, ?_, h.size_eq, ?_, ?_, ?_⟩
  · rw [hd, h.decisions]
  · rw [hl, h.leaves]
  · rw [hd]
    exact h.decision
  · rw [hl]
    exact h.leaf
  · intro v hv
    rw [order, hd, hl] at hv
    exact h.other v hv

/-- A decision takes the next number of its kind. -/
theorem Numbered.decision_cons (hu : u ∉ order es) (hbound : u < x.references.size)
    (hd : decisionEntries ((u, n) :: es) = (u, d) :: decisionEntries es)
    (hl : leafEntries ((u, n) :: es) = leafEntries es)
    (h : Numbered { x with
      decisions := x.decisions.push d
      references := x.references.setIfInBounds u (-(x.decisions.size + 1 : Nat)) } es y) :
    Numbered x ((u, n) :: es) y := by
  refine ⟨?_, ?_, by simpa only [Array.size_setIfInBounds] using h.size_eq, ?_, ?_, ?_⟩
  · rw [h.decisions, hd]
    simp
  · rw [h.leaves, hl]
  · intro i v e he
    rw [hd] at he
    cases i with
    | zero =>
      obtain ⟨rfl, rfl⟩ : u = v ∧ d = e := by simpa using he
      -- no later node is `u`, so its reference stays
      rw [h.other u hu]
      simp [hbound]
    | succ i =>
      rw [h.decision i v e (by simpa using he), Array.size_push]
      congr 3
      omega
  · intro i v q hq
    rw [hl] at hq
    exact h.leaf i v q hq
  · intro v hv
    rw [order, hd, hl, List.map_cons, List.cons_append, List.mem_cons, not_or] at hv
    rw [h.other v hv.2, Array.getElem?_setIfInBounds_ne fun h => hv.1 h.symm]

/-- A leaf with data takes the next number of its kind. -/
theorem Numbered.leaf_cons (hu : u ∉ order es) (hbound : u < x.references.size)
    (hd : decisionEntries ((u, n) :: es) = decisionEntries es)
    (hl : leafEntries ((u, n) :: es) = (u, p) :: leafEntries es)
    (h : Numbered { x with
      leaves := x.leaves.push p
      references := x.references.setIfInBounds u (x.leaves.size + 1 : Nat) } es y) :
    Numbered x ((u, n) :: es) y := by
  refine ⟨?_, ?_, by simpa only [Array.size_setIfInBounds] using h.size_eq, ?_, ?_, ?_⟩
  · rw [hd, h.decisions]
  · rw [h.leaves, hl]
    simp
  · intro i v e he
    rw [hd] at he
    exact h.decision i v e he
  · intro i v q hq
    rw [hl] at hq
    cases i with
    | zero =>
      obtain ⟨rfl, rfl⟩ : u = v ∧ p = q := by simpa using hq
      rw [h.other u hu]
      simp [hbound]
    | succ i =>
      rw [h.leaf i v q (by simpa using hq), Array.size_push]
      congr 2
      omega
  · intro v hv
    have hv' : v ≠ u ∧ v ∉ order es := by
      rw [order, hd, hl, List.map_cons] at hv
      rw [order]
      simp only [List.mem_append, List.mem_cons, not_or] at hv ⊢
      exact ⟨hv.2.1, hv.1, hv.2.2⟩
    rw [h.other v hv'.2, Array.getElem?_setIfInBounds_ne fun h => hv'.1 h.symm]

theorem numbered_foldl (x : Numbering) (hes : (es.map (·.1)).Nodup)
    (hlt : ∀ e ∈ es, e.1 < x.references.size) : Numbered x es (es.foldl add x) := by
  induction es generalizing x with
  | nil => exact ⟨by simp [decisionEntries], by simp [leafEntries], rfl, by simp [decisionEntries],
      by simp [leafEntries], fun _ _ => rfl⟩
  | cons e es ih =>
    obtain ⟨u, n⟩ := e
    rw [List.map_cons, List.nodup_cons] at hes
    obtain ⟨hu, hes⟩ := hes
    have hu' : u ∉ order es := fun hmem => hu (order_subset hmem)
    have hbound : u < x.references.size := hlt (u, n) List.mem_cons_self
    have hlt' : ∀ e ∈ es, e.1 < x.references.size := fun e he => hlt e (List.mem_cons_of_mem _ he)
    rw [List.foldl_cons]
    cases hc : n.content with
    | decision d =>
      have hx : add x (u, n) = { x with
          decisions := x.decisions.push d
          references := x.references.setIfInBounds u (-(x.decisions.size + 1 : Nat)) } := by
        simp [add, hc]
      rw [hx]
      exact .decision_cons hu' hbound (by simp [decisionEntries, Node.decision?, hc])
        (by simp [leafEntries, Node.payload?, hc]) (ih _ hes (by simpa using hlt'))
    | leaf p =>
      by_cases hp : p.isEmpty = true
      · have hx : add x (u, n) = x := by simp [add, hc, hp]
        rw [hx]
        exact (ih x hes hlt').skip (by simp [decisionEntries, Node.decision?, hc])
          (by simp [leafEntries, Node.payload?, hc, hp, Option.filter])
      · have hx : add x (u, n) = { x with
            leaves := x.leaves.push p
            references := x.references.setIfInBounds u (x.leaves.size + 1 : Nat) } := by
          simp [add, hc, hp]
        rw [hx]
        exact .leaf_cons hu' hbound (by simp [decisionEntries, Node.decision?, hc])
          (by simp [leafEntries, Node.payload?, hc, hp, Option.filter])
          (ih _ hes (by simpa using hlt'))
    | graph g =>
      have hx : add x (u, n) = x := by simp [add, hc]
      rw [hx]
      exact (ih x hes hlt').skip (by simp [decisionEntries, Node.decision?, hc])
        (by simp [leafEntries, Node.payload?, hc])

end Numbering

/-! ### References -/

theorem idxOf?_of_getElem? {ids : List NodeId} (h : ids.Nodup) {i : Nat} (hi : ids[i]? = some u) :
    ids.idxOf? u = some i := by
  obtain ⟨hlt, rfl⟩ := List.getElem?_eq_some_iff.mp hi
  rw [List.idxOf?_eq_some_iff]
  refine ⟨hlt, by simp, ?_⟩
  intro j hj heq
  have := (List.Nodup.getElem_inj_iff h).mp (by simpa using heq)
  omega

/-- A small number survives the signed word it is stored in. -/
theorem toInt_ofInt {r : Int} (h : -(2 ^ 31) ≤ r) (h' : r < 2 ^ 31) :
    (Int32.ofInt r).toInt = r := by
  rw [Int32.toInt_ofInt]
  exact Int.bmod_eq_of_le (by show -(Int32.size / 2 : Int) ≤ r; simp [Int32.size]; omega)
    (by simp [Int32.size]; omega)

variable {nDecisions nLeaves i : Nat}

theorem resolve_zero : resolve nDecisions nLeaves (Int32.ofInt 0) = .ok none := by
  rw [resolve]
  simp only [toInt_ofInt (r := 0) (by omega) (by omega), if_true]

theorem resolve_decision (h : i < nDecisions) (hsize : nDecisions < 2 ^ 31) :
    resolve nDecisions nLeaves (Int32.ofInt (-((i + 1 : Nat) : Int))) = .ok (some i) := by
  rw [resolve]
  simp only [toInt_ofInt (by omega : -(2 ^ 31) ≤ (-(i + 1 : Nat) : Int)) (by omega)]
  rw [if_neg (by omega), if_pos (by omega)]
  have hplace : (- -((i + 1 : Nat) : Int)).toNat - 1 = i := by omega
  rw [hplace]

theorem resolve_leaf (h : i < nLeaves) (hsize : nLeaves < 2 ^ 31) :
    resolve nDecisions nLeaves (Int32.ofInt ((i + 1 : Nat) : Int)) =
      .ok (some (nDecisions + i)) := by
  rw [resolve]
  simp only [toInt_ofInt (by omega : -(2 ^ 31) ≤ ((i + 1 : Nat) : Int)) (by omega)]
  rw [if_neg (by omega), if_neg (by omega), if_pos (by omega)]
  have hplace : nDecisions + (((i + 1 : Nat) : Int).toNat - 1) = nDecisions + i := by omega
  rw [hplace]

/-- The number of the node at a place of the order, in which the decisions come first;
no place has the number zero. -/
def numberAt (nDecisions : Nat) : Option Nat → Int
  | none => 0
  | some i =>
    if i < nDecisions then -((i + 1 : Nat) : Int) else ((i - nDecisions + 1 : Nat) : Int)

theorem resolve_numberAt (h : i < nDecisions + nLeaves) (hdecisions : nDecisions < 2 ^ 31)
    (hleaves : nLeaves < 2 ^ 31) :
    resolve nDecisions nLeaves (Int32.ofInt (numberAt nDecisions (some i))) = .ok (some i) := by
  rw [numberAt]
  by_cases hi : i < nDecisions
  · rw [if_pos hi]
    exact resolve_decision hi hdecisions
  · rw [if_neg hi, resolve_leaf (by omega) hleaves, Nat.add_sub_cancel' (Nat.le_of_not_lt hi)]

variable {x : Numbering} {size : Nat}

/-- The reference of a node is the number of its place. -/
theorem reference_eq_numberAt (hes : (es.map (·.1)).Nodup)
    (hlt : ∀ e ∈ es, e.1 < (Array.replicate size (0 : Int)).size)
    (hx : x = es.foldl Numbering.add { references := Array.replicate size 0 })
    (slot : Option NodeId) :
    x.reference slot =
      numberAt (decisionEntries es).length (slot.bind fun u => (order es).idxOf? u) := by
  have hnum := Numbering.numbered_foldl { references := Array.replicate size 0 } hes hlt
  rw [← hx] at hnum
  cases slot with
  | none => rfl
  | some u =>
    rw [Numbering.reference, Option.bind_some]
    by_cases hmem : u ∈ order es
    · rcases List.mem_append.mp hmem with h | h
      · obtain ⟨⟨v, d⟩, hd, rfl⟩ := List.mem_map.mp h
        obtain ⟨i, hi⟩ := List.mem_iff_getElem?.mp hd
        have hlt : i < (decisionEntries es).length := (List.getElem?_eq_some_iff.mp hi).1
        have hpos : (order es)[i]? = some v := by
          rw [order, List.getElem?_append_left (by simpa using hlt), List.getElem?_map, hi]
          rfl
        rw [idxOf?_of_getElem? (nodup_order hes) hpos, hnum.decision i v d hi, Option.getD_some,
          Array.size_empty, Nat.zero_add, numberAt, if_pos hlt]
      · obtain ⟨⟨v, p⟩, hp, rfl⟩ := List.mem_map.mp h
        obtain ⟨i, hi⟩ := List.mem_iff_getElem?.mp hp
        -- the leaves stand behind all decisions
        have hpos : (order es)[(decisionEntries es).length + i]? = some v := by
          rw [order, List.getElem?_append_right (by simp), List.getElem?_map]
          simp [hi]
        rw [idxOf?_of_getElem? (nodup_order hes) hpos, hnum.leaf i v p hi, Option.getD_some,
          Array.size_empty, Nat.zero_add, numberAt, if_neg (by omega), Nat.add_sub_cancel_left]
    · have hnone : (order es).idxOf? u = none := List.idxOf?_eq_none_iff.mpr hmem
      rw [hnone, hnum.other u hmem, Array.getElem?_replicate]
      split <;> rfl

/-- A reference names the place of its node among those that are read; that of an
empty slot, or of a leaf without data, names none. -/
theorem resolve_reference (hes : (es.map (·.1)).Nodup)
    (hlt : ∀ e ∈ es, e.1 < (Array.replicate size (0 : Int)).size)
    (hx : x = es.foldl Numbering.add { references := Array.replicate size 0 })
    (hdecisions : x.decisions.size < 2 ^ 31) (hleaves : x.leaves.size < 2 ^ 31)
    (slot : Option NodeId) :
    resolve x.decisions.size x.leaves.size (Int32.ofInt (x.reference slot)) =
      .ok (slot.bind fun u => (order es).idxOf? u) := by
  have hnum := Numbering.numbered_foldl { references := Array.replicate size 0 } hes hlt
  rw [← hx] at hnum
  have hD : x.decisions.size = (decisionEntries es).length := by
    rw [← Array.length_toList, hnum.decisions]
    simp
  have hL : x.leaves.size = (leafEntries es).length := by
    rw [← Array.length_toList, hnum.leaves]
    simp
  rw [reference_eq_numberAt hes hlt hx, ← hD]
  cases hplace : slot.bind fun u => (order es).idxOf? u with
  | none => exact resolve_zero
  | some i =>
    refine resolve_numberAt ?_ hdecisions hleaves
    obtain ⟨u, -, hu⟩ := Option.bind_eq_some_iff.mp hplace
    obtain ⟨hi, -⟩ := List.idxOf?_eq_some_iff.mp hu
    rwa [order, List.length_append, List.length_map, List.length_map, ← hD, ← hL] at hi

end FeatureTree.Binary
