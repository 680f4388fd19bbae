/-
The route of a vector through a tree, and where a descent stops on it.

A route lists the nodes that are met from a node on by following the selected child, up to
a leaf or a decision whose selected slot is empty.  The descents of a tree are read off it:
the data gets sparser along a route, so the last node with enough data is the last one
before the first without.

* `Arena.Route`, `Arena.Route.unique`, `Arena.Passable.exists_route` — every vector has one
  route;
* `Arena.Route.nodeForLoop_eq`, `Arena.Route.routeLoop_eq` — the descents along a route;
* `Arena.Route.pairwise_dataCount` — counts do not grow along a route;
* `Cart.nodeFor_eq_deepest` — where the descent stops for every least number of data points.
-/
import FeatureTree.Proofs.Tree.Grafting

namespace FeatureTree

open Relation

namespace Arena

/-- The nodes that a vector meets from a node on. -/
inductive Route (a : Arena) (v : FeatureVector) : NodeId → List NodeId → Prop
  | leaf {u : NodeId} {p : Payload} : a.content? u = some (.leaf p) → Route a v u [u]
  | gap {u : NodeId} {d : Decision} : a.content? u = some (.decision d) → d.next? v = .ok none →
      Route a v u [u]
  | step {u c : NodeId} {d : Decision} {path : List NodeId} :
      a.content? u = some (.decision d) → d.next? v = .ok (some c) → Route a v c path →
      Route a v u (u :: path)

variable {a b : Arena} {v : FeatureVector} {u w : NodeId} {path path' : List NodeId}

namespace Route

theorem exists_cons (h : a.Route v u path) : ∃ rest, path = u :: rest := by
  cases h with
  | leaf _ => exact ⟨[], rfl⟩
  | gap _ _ => exact ⟨[], rfl⟩
  | step _ _ _ => exact ⟨_, rfl⟩

/-- A vector has no second route. -/
theorem unique (h : a.Route v u path) (h' : a.Route v u path') : path = path' := by
  induction h generalizing path' with
  | leaf hu =>
    cases h' with
    | leaf _ => rfl
    | gap hu' _ => simp [hu] at hu'
    | step hu' _ _ => simp [hu] at hu'
  | gap hu hnext =>
    cases h' with
    | leaf hu' => simp [hu] at hu'
    | gap _ _ => rfl
    | step hu' hnext' _ =>
      obtain rfl : _ = _ := by simpa [hu] using hu'
      simp [hnext] at hnext'
  | step hu hnext _ ih =>
    cases h' with
    | leaf hu' => simp [hu] at hu'
    | gap hu' hnext' =>
      obtain rfl : _ = _ := by simpa [hu] using hu'
      simp [hnext] at hnext'
    | step hu' hnext' hrest =>
      obtain rfl : _ = _ := by simpa [hu] using hu'
      obtain rfl : _ = _ := by simpa [hnext] using hnext'
      rw [ih hrest]

/-- A route is no longer than there are nodes below its start. -/
theorem length_le_rank (h : a.Route v u path) (hac : ∀ u, ¬ TransGen a.Holds u u) :
    path.length ≤ a.rank u := by
  induction h with
  | leaf hu => exact rank_pos (lt_size_of_content? hu)
  | gap hu _ => exact rank_pos (lt_size_of_content? hu)
  | step hu hnext _ ih =>
    have := rank_lt_of_holds hac (holds_of_next? hu hnext)
    rw [List.length_cons]
    omega

/-- What a route meets lies below its start. -/
theorem reaches_of_mem (h : a.Route v u path) (hw : w ∈ path) : a.Reaches u w := by
  induction h with
  | leaf _ => rw [List.mem_singleton.mp hw]; exact .refl
  | gap _ _ => rw [List.mem_singleton.mp hw]; exact .refl
  | step hu hnext _ ih =>
    rcases List.mem_cons.mp hw with rfl | hw
    · exact .refl
    · exact .head (holds_of_next? hu hnext) (ih hw)

end Route

/-- In a tree every vector has a route from every node. -/
theorem Passable.exists_route (h : a.Passable v) (hgraph : ∀ u g, a.content? u ≠ some (.graph g))
    (hu : u < a.size) : ∃ path, a.Route v u path := by
  refine induct_below h.acyclic h.child_lt (fun _ u hu ih => ?_) hu (a.rank_le_size u)
  obtain ⟨x, hx⟩ := exists_content? hu
  cases x with
  | leaf p => exact ⟨[u], .leaf hx⟩
  | graph g => exact absurd hx (hgraph u g)
  | decision d =>
    obtain ⟨child, hnext, hhold⟩ := h.exists_next? hx
    cases child with
    | none => exact ⟨[u], .gap hx hnext⟩
    | some c =>
      obtain ⟨path, hpath⟩ := ih c (hhold c rfl)
      exact ⟨u :: path, .step hx hnext hpath⟩

/-! ### Counts along a route -/

/-- Counts do not grow along a route. -/
theorem Route.pairwise_dataCount (h : a.Route v u path) (htallies : a.Tallies a.dataCount) :
    path.Pairwise fun x y => a.dataCount y ≤ a.dataCount x := by
  induction h with
  | leaf _ => exact List.pairwise_singleton ..
  | gap _ _ => exact List.pairwise_singleton ..
  | step hu hnext hrest ih =>
    refine List.pairwise_cons.mpr ⟨fun w hw => ?_, ih⟩
    exact htallies.le_of_reaches (.head (holds_of_next? hu hnext) (hrest.reaches_of_mem hw))

/-- The last node of a way with more data points than asked for. -/
def deepest? (a : Arena) (minCount : Nat) (path : List NodeId) : Option NodeId :=
  (path.filter fun u => minCount < a.dataCount u).getLast?

/-- Below a node with too few data points all nodes have too few. -/
theorem deepest?_eq_none {minCount : Nat} (h : ∀ w ∈ path, a.dataCount w ≤ a.dataCount u)
    (hu : a.dataCount u ≤ minCount) : a.deepest? minCount path = none := by
  rw [deepest?, List.getLast?_eq_none_iff, List.filter_eq_nil_iff]
  intro w hw
  simpa using (h w hw).trans hu

theorem deepest?_cons {minCount : Nat} (hu : minCount < a.dataCount u) :
    a.deepest? minCount (u :: path) = some ((a.deepest? minCount path).getD u) := by
  rw [deepest?, List.filter_cons_of_pos (by simpa using hu), List.getLast?_cons]
  rfl

theorem getD_deepest?_mem (u : NodeId) (path : List NodeId) (minCount : Nat) :
    (a.deepest? minCount (u :: path)).getD u ∈ u :: path := by
  cases hdeepest : a.deepest? minCount (u :: path) with
  | none => exact List.mem_cons_self
  | some w => exact (List.mem_filter.mp (List.mem_of_getLast? hdeepest)).1

/-- The nodes with enough data points come before the others. -/
theorem filter_isPrefix (h : path.Pairwise fun x y => a.dataCount y ≤ a.dataCount x)
    (minCount : Nat) : (path.filter fun u => minCount < a.dataCount u) <+: path := by
  induction path with
  | nil => exact List.nil_prefix
  | cons u path ih =>
    obtain ⟨hle, hpath⟩ := List.pairwise_cons.mp h
    by_cases hu : minCount < a.dataCount u
    · rw [List.filter_cons_of_pos (by simpa using hu)]
      exact (List.prefix_cons_inj u).mpr (ih hpath)
    · have hnone : ∀ w ∈ u :: path, ¬ minCount < a.dataCount w := by
        intro w hw
        rcases List.mem_cons.mp hw with rfl | hw
        · exact hu
        · exact fun hlt => hu (hlt.trans_le (hle w hw))
      rw [List.filter_eq_nil_iff.mpr fun w hw => by simpa using hnone w hw]
      exact List.nil_prefix

/-- With more data points asked for, a descent stops no later on the way. -/
theorem exists_split_deepest (h : (u :: path).Pairwise fun x y => a.dataCount y ≤ a.dataCount x)
    {k₁ k₂ : Nat} (hk : k₁ < k₂) :
    ∃ upper lower, u :: path = upper ++ (a.deepest? k₁ (u :: path)).getD u :: lower ∧
      (a.deepest? k₂ (u :: path)).getD u ∈
        upper ++ [(a.deepest? k₁ (u :: path)).getD u] := by
  obtain ⟨lower, hlower⟩ := filter_isPrefix h k₁
  have hsub : ∀ w, a.deepest? k₂ (u :: path) = some w →
      w ∈ (u :: path).filter fun w => k₁ < a.dataCount w := by
    intro w hw
    obtain ⟨hmem, hcount⟩ := List.mem_filter.mp (List.mem_of_getLast? hw)
    exact List.mem_filter.mpr ⟨hmem, by simpa using hk.trans (by simpa using hcount)⟩
  cases hone : a.deepest? k₁ (u :: path) with
  | none =>
    -- no node has enough data, so both descents stop at the first one
    rw [deepest?, List.getLast?_eq_none_iff] at hone
    cases htwo : a.deepest? k₂ (u :: path) with
    | none => exact ⟨[], path, rfl, List.mem_singleton_self u⟩
    | some w =>
      have hw := hsub w htwo
      rw [hone] at hw
      simp at hw
  | some w₁ =>
    obtain ⟨upper, hupper⟩ := List.getLast?_eq_some_iff.mp hone
    rw [hupper, List.append_assoc, List.singleton_append] at hlower
    refine ⟨upper, lower, hlower.symm, ?_⟩
    rw [Option.getD_some, ← hupper]
    cases htwo : a.deepest? k₂ (u :: path) with
    | some w => exact hsub w htwo
    | none =>
      rw [Option.getD_none, hupper]
      cases upper with
      | nil => exact List.mem_singleton.mpr (List.cons.inj hlower).1.symm
      | cons x upper =>
        rw [← (List.cons.inj hlower).1]
        exact List.mem_cons_self

end Arena

open Arena

/-! ### Descents along a route -/

namespace Arena.Route

variable {t : Cart} {v : FeatureVector} {u w : NodeId} {path : List NodeId}
  (hlt : ∀ p c, t.arena.Holds p c → c < t.arena.size)
include hlt

/-- With no least number of data points the descent goes to the end of the route. -/
theorem nodeForLoop_zero (h : t.arena.Route v u path) (hw : path.getLast? = some w) :
    ∀ {fuel : Nat}, path.length ≤ fuel → t.nodeForLoop v 0 fuel u = .ok w := by
  induction h with
  | leaf hu =>
    intro fuel hfuel
    obtain ⟨fuel, rfl⟩ := Nat.exists_eq_add_one.mpr hfuel
    rw [Cart.nodeForLoop_of_leaf hu]
    exact congrArg Except.ok (Option.some_inj.mp hw)
  | gap hu hnext =>
    intro fuel hfuel
    obtain ⟨fuel, rfl⟩ := Nat.exists_eq_add_one.mpr hfuel
    rw [Cart.nodeForLoop_zero_of_decision hlt hu, hnext]
    exact congrArg Except.ok (Option.some_inj.mp hw)
  | step hu hnext hrest ih =>
    intro fuel hfuel
    obtain ⟨fuel, rfl⟩ := Nat.exists_eq_add_one.mpr (Nat.zero_lt_of_lt hfuel)
    obtain ⟨rest, rfl⟩ := hrest.exists_cons
    rw [List.getLast?_cons_cons] at hw
    rw [Cart.nodeForLoop_zero_of_decision hlt hu, hnext]
    exact ih hw (Nat.le_of_succ_le_succ hfuel)

/-- With a least number of data points the descent goes to the deepest node of the route
that has more. -/
theorem nodeForLoop_eq (h : t.arena.Route v u path) {minCount : Nat} (hpos : 0 < minCount) :
    ∀ {fuel : Nat}, path.length ≤ fuel →
      t.nodeForLoop v minCount fuel u = .ok ((t.arena.deepest? minCount path).getD u) := by
  have htallies : t.arena.Tallies t.arena.dataCount := t.graph.tallies
  have hsingle : ∀ u, (t.arena.deepest? minCount [u]).getD u = u := by
    intro u
    by_cases hu : minCount < t.arena.dataCount u
    · rw [deepest?_cons hu]
      rfl
    · rw [deepest?_eq_none (u := u) (by simp) (Nat.le_of_not_lt hu)]
      rfl
  induction h with
  | leaf hu =>
    intro fuel hfuel
    obtain ⟨fuel, rfl⟩ := Nat.exists_eq_add_one.mpr hfuel
    rw [Cart.nodeForLoop_of_leaf hu, hsingle]
  | gap hu hnext =>
    intro fuel hfuel
    obtain ⟨fuel, rfl⟩ := Nat.exists_eq_add_one.mpr hfuel
    rw [Cart.nodeForLoop_of_decision hlt hu, hnext, hsingle]
    split <;> rfl
  | @step u c d path hu hnext hrest ih =>
    intro fuel hfuel
    obtain ⟨fuel, rfl⟩ := Nat.exists_eq_add_one.mpr (Nat.zero_lt_of_lt hfuel)
    have hbelow : ∀ w ∈ path, t.arena.dataCount w ≤ t.arena.dataCount c := fun w hw =>
      htallies.le_of_reaches (hrest.reaches_of_mem hw)
    have hchild : t.arena.dataCount c ≤ t.arena.dataCount u :=
      htallies.le_of_holds (holds_of_next? hu hnext)
    rw [Cart.nodeForLoop_of_decision hlt hu, hnext]
    by_cases hsparse : t.arena.Sparse minCount u
    · -- the whole route is sparse
      rw [if_pos hsparse, deepest?_eq_none (u := u) _ hsparse.2]
      · rfl
      · intro w hw
        rcases List.mem_cons.mp hw with rfl | hw
        · exact Nat.le_refl _
        · exact (hbelow w hw).trans hchild
    · have hdense : minCount < t.arena.dataCount u := by
        simpa [Sparse, hpos] using hsparse
      rw [if_neg hsparse, deepest?_cons hdense]
      simp only [Except.bind, Option.elim_some, Option.getD_some]
      by_cases hsparse' : t.arena.Sparse minCount c
      · rw [if_pos hsparse', deepest?_eq_none hbelow hsparse'.2]
        rfl
      · rw [if_neg hsparse', ih (Nat.le_of_succ_le_succ hfuel)]
        have hdense' : minCount < t.arena.dataCount c := by
          simpa [Sparse, hpos] using hsparse'
        obtain ⟨rest, rfl⟩ := hrest.exists_cons
        rw [deepest?_cons hdense']
        rfl

end Arena.Route

/-- An indexer finds the leaf at the end of the route, or none where it ends at an empty
slot. -/
theorem Arena.Route.routeLoop_eq {x : Indexer} {v : FeatureVector} {u w : NodeId}
    {path : List NodeId} (h : x.arena.Route v u path) (hw : path.getLast? = some w) :
    ∀ {fuel : Nat}, path.length ≤ fuel →
      x.routeLoop v fuel u = .ok (if x.arena.nodeIs Node.isLeaf w then some w else none) := by
  induction h with
  | leaf hu =>
    intro fuel hfuel
    obtain ⟨fuel, rfl⟩ := Nat.exists_eq_add_one.mpr hfuel
    rw [List.getLast?_singleton, Option.some_inj] at hw
    subst hw
    rw [Indexer.routeLoop_of_leaf hu, if_pos (nodeIs_isLeaf_iff.mpr ⟨_, hu⟩)]
  | gap hu hnext =>
    intro fuel hfuel
    obtain ⟨fuel, rfl⟩ := Nat.exists_eq_add_one.mpr hfuel
    rw [List.getLast?_singleton, Option.some_inj] at hw
    subst hw
    rw [Indexer.routeLoop_of_decision hu, hnext, if_neg (by simp [nodeIs_isLeaf_iff, hu])]
    rfl
  | step hu hnext hrest ih =>
    intro fuel hfuel
    obtain ⟨fuel, rfl⟩ := Nat.exists_eq_add_one.mpr (Nat.zero_lt_of_lt hfuel)
    obtain ⟨rest, rfl⟩ := hrest.exists_cons
    rw [List.getLast?_cons_cons] at hw
    rw [Indexer.routeLoop_of_decision hu, hnext]
    exact ih hw (Nat.le_of_succ_le_succ hfuel)

namespace Cart

variable {t : Cart} {v : FeatureVector} {root : NodeId} {path : List NodeId}

/-- Every vector that fits the schema has a route from the root, which the bound of the
descents allows for. -/
theorem exists_route (t : Cart) (hroot : t.arena.root = some root) (hv : t.arena.schema.Fits v) :
    ∃ path, t.arena.Route v root path ∧ path.length ≤ t.arena.size + 1 := by
  have w := t.wellFormed hroot
  obtain ⟨path, hpath⟩ := (t.passable hroot hv).exists_route t.content?_ne_graph w.root_lt
  exact ⟨path, hpath, (hpath.length_le_rank w.acyclic).trans (t.arena.rank_le_succ root)⟩

theorem nodeFor_zero (hroot : t.arena.root = some root) (h : t.arena.Route v root path)
    (hlength : path.length ≤ t.arena.size + 1) : t.nodeFor v 0 = .ok path.getLast? := by
  obtain ⟨rest, rfl⟩ := h.exists_cons
  rw [List.getLast?_cons, nodeFor_eq_ok_some_iff hroot]
  exact h.nodeForLoop_zero (t.wellFormed hroot).child_lt List.getLast?_cons hlength

theorem nodeFor_of_pos (hroot : t.arena.root = some root) (h : t.arena.Route v root path)
    (hlength : path.length ≤ t.arena.size + 1) {minCount : Nat} (hpos : 0 < minCount) :
    t.nodeFor v minCount = .ok (some ((t.arena.deepest? minCount path).getD root)) := by
  rw [nodeFor_eq_ok_some_iff hroot]
  exact h.nodeForLoop_eq (t.wellFormed hroot).child_lt hpos hlength

/-- Where the descent of a vector stops.  With no least number of data points it is the end
of the route.  Otherwise it is the deepest node of the route that has more data points than
asked for, or the root if none has.  So with more data points asked for the descent stops at
the same node or at an earlier one of the route. -/
theorem nodeFor_eq_deepest (t : Cart) (hroot : t.arena.root = some root)
    (hv : t.arena.schema.Fits v) :
    ∃ path, t.arena.Route v root path ∧ (∀ path', t.arena.Route v root path' → path' = path) ∧
      t.nodeFor v 0 = .ok path.getLast? ∧
      (∀ k, 0 < k →
        t.nodeFor v k = .ok (some ((t.arena.deepest? k path).getD root))) ∧
      ∀ k₁ k₂, k₁ < k₂ → ∃ upper u₁ lower u₂, path = upper ++ u₁ :: lower ∧
        t.nodeFor v k₁ = .ok (some u₁) ∧ t.nodeFor v k₂ = .ok (some u₂) ∧
        (u₂ = u₁ ∨ u₂ ∈ upper) := by
  obtain ⟨path, hpath, hlength⟩ := t.exists_route hroot hv
  have hzero := nodeFor_zero hroot hpath hlength
  have hpos : ∀ k, 0 < k → _ := fun k hk => nodeFor_of_pos hroot hpath hlength hk
  refine ⟨path, hpath, fun path' h => h.unique hpath, hzero, hpos, ?_⟩
  intro k₁ k₂ hk
  have hdecreasing := hpath.pairwise_dataCount t.graph.tallies
  have htwo := hpos k₂ (Nat.zero_lt_of_lt hk)
  obtain ⟨rest, rfl⟩ := hpath.exists_cons
  rcases Nat.eq_zero_or_pos k₁ with rfl | hk₁
  · -- whatever node the second descent stops at, the first one goes to the end
    have hend := List.dropLast_append_getLast (List.cons_ne_nil root rest)
    have hcases : ∀ w ∈ root :: rest,
        w = (root :: rest).getLast (List.cons_ne_nil root rest) ∨ w ∈ (root :: rest).dropLast := by
      intro w hw
      rw [← hend, List.mem_append, List.mem_singleton] at hw
      exact hw.symm
    refine ⟨_, _, [], _, hend.symm, ?_, htwo, hcases _ (getD_deepest?_mem root rest k₂)⟩
    rw [hzero, List.getLast?_eq_some_getLast (List.cons_ne_nil root rest)]
  · obtain ⟨upper, lower, hsplit, hmem⟩ := exists_split_deepest hdecreasing hk
    rw [List.mem_append, List.mem_singleton] at hmem
    exact ⟨upper, _, lower, _, hsplit, hpos k₁ hk₁, htwo, hmem.symm⟩

/-- A route of four nodes with seven, four, three and two data points: asked for more than
two, the descent stops above the leaf. -/
theorem nodeFor_eq_deepest_sample :
    ∃ t v path, Sample.tree = .ok t ∧ t.arena.root = some 0 ∧ t.arena.schema.Fits v ∧
      t.arena.Route v 0 path ∧
      t.nodeFor v 0 = .ok path.getLast? ∧ path.getLast? = some 6 ∧
      t.nodeFor v 2 = .ok (some ((t.arena.deepest? 2 path).getD 0)) ∧
      (t.arena.deepest? 2 path).getD 0 = 2 := by
  have hsample : (Sample.tree.toOption.any fun t =>
      t.arena.root == some 0 &&
        decide (t.arena.schema.Fits ⟨7, #[0], #[1], #[Floating.ofInt 1]⟩) &&
        (t.nodeFor ⟨7, #[0], #[1], #[Floating.ofInt 1]⟩ 0).toOption == some (some 6) &&
        (t.nodeFor ⟨7, #[0], #[1], #[Floating.ofInt 1]⟩ 2).toOption == some (some 2)) = true := by
    decide +kernel
  cases ht : Sample.tree with
  | error e => simp [ht, Except.toOption] at hsample
  | ok t =>
    simp only [ht, Except.toOption, Option.any_some, Bool.and_eq_true, beq_iff_eq,
      decide_eq_true_eq] at hsample
    obtain ⟨⟨⟨hroot, hfits⟩, hzero⟩, htwo⟩ := hsample
    obtain ⟨path, hpath, -, hend, hdeepest, -⟩ := t.nodeFor_eq_deepest hroot hfits
    have hdeepest := hdeepest 2 (by decide)
    rw [hend] at hzero
    rw [hdeepest] at htwo
    exact ⟨t, _, path, rfl, hroot, hfits, hpath, hend, Option.some_inj.mp hzero, hdeepest,
      Option.some_inj.mp (Option.some_inj.mp htwo)⟩

end Cart

end FeatureTree
