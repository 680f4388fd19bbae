/-
Which line of a tree is that of which node.

A tree has one line for every node and every empty slot, in the order in which they are met
on the way down.

* `Outline.preorder` — what is met on the way down an outline;
* `Cart.exists_branch_mem`, `Arena.exists_decision_of_mem` — the decisions of a tree are the
  branches of its outline;
* `Cart.leaf_mem_preorder`, `Arena.isPart_of_mem` — the same for leaves, and for all parts of
  an outline;
* `Wagon.lines_induct` — induction over the lines of an outline;
* `Wagon.IsLineOf`, `Wagon.forall₂_lines` — the lines one by one;
* `Wagon.exists_lines_iff` — an outline has lines if each of its parts has one;
* `Wagon.leafLine_mem_lines`, `Wagon.decisionLine_mem_lines` — every leaf and every decision of
  a tree has its line.
-/
import FeatureTree.Proofs.Format.Wagon.Writing

namespace FeatureTree

open Relation

/-! ### The order of the nodes -/

/-- The parts of an outline, each before those below it. -/
def Outline.preorder : Outline → List Outline
  | empty => [empty]
  | leaf p => [leaf p]
  | branch feature test children =>
    branch feature test children :: children.flatMap fun x => preorder x
  | backOff fallback specific =>
    backOff fallback specific :: (preorder fallback ++ preorder specific)

theorem Outline.mem_preorder_self (x : Outline) : x ∈ x.preorder := by
  cases x <;> simp [preorder]

namespace Arena

variable {a : Arena} {u w : NodeId} {d : Decision} {fuel : Nat}

theorem unfold_of_decision (h : a.content? u = some (.decision d)) :
    a.unfold (fuel + 1) (some u) =
      .branch d.feature d.test (d.children.toList.map (a.unfold fuel)) := by
  rw [unfold, h]

theorem unfold_of_graph {g : GraphNode} (h : a.content? u = some (.graph g)) :
    a.unfold (fuel + 1) (some u) = .backOff (a.unfold fuel g.leaf) (a.unfold fuel g.decision) := by
  rw [unfold, h]

theorem unfold_of_leaf {p : Payload} (h : a.content? u = some (.leaf p)) :
    a.unfold (fuel + 1) (some u) = .leaf p := by
  rw [unfold, h]

/-- What lies below a node that is met on the way down is part of the outline. -/
theorem exists_unfold_of_reaches (hac : ∀ u, ¬ TransGen a.Holds u u)
    (hlt : ∀ p c, a.Holds p c → c < a.size) (hu : u < a.size)
    (hrank : a.rank u ≤ fuel) (hw : a.Reaches u w) :
    ∃ k, a.unfold (k + 1) (some w) ∈ (a.unfold fuel (some u)).preorder := by
  refine induct_below hac hlt (motive := fun fuel u => a.Reaches u w →
    ∃ k, a.unfold (k + 1) (some w) ∈ (a.unfold fuel (some u)).preorder)
    (fun fuel u hu ih hw => ?_) hu hrank hw
  rcases hw.cases_head with rfl | ⟨c, hc, hw⟩
  · exact ⟨fuel, Outline.mem_preorder_self _⟩
  · -- the way goes on below a child
    obtain ⟨k, hmem⟩ := ih c hc hw
    refine ⟨k, ?_⟩
    obtain ⟨x, hx⟩ := exists_content? hu
    rw [Holds, childIds_of_content? hx, List.mem_filterMap] at hc
    obtain ⟨slot, hslot, rfl⟩ := hc
    cases x with
    | leaf p => simp [NodeContent.children] at hslot
    | decision e =>
      rw [unfold_of_decision hx, Outline.preorder]
      exact List.mem_cons_of_mem _ (List.mem_flatMap.mpr ⟨_, List.mem_map_of_mem hslot, hmem⟩)
    | graph g =>
      rw [unfold_of_graph hx, Outline.preorder]
      refine List.mem_cons_of_mem _ (List.mem_append.mpr ?_)
      rcases List.mem_pair.mp hslot with h | h
      · exact .inl (h ▸ hmem)
      · exact .inr (h ▸ hmem)

/-- What stands in an outline for an empty slot or a node of the arena. -/
inductive IsPart (a : Arena) : Outline → Prop
  | empty : IsPart a .empty
  | leaf {u : NodeId} {p : Payload} : a.content? u = some (.leaf p) → IsPart a (.leaf p)
  | branch {u : NodeId} {d : Decision} {children : List Outline} :
      a.content? u = some (.decision d) → children.length = d.children.size →
        IsPart a (.branch d.feature d.test children)
  | backOff {u : NodeId} {g : GraphNode} (fallback specific : Outline) :
      a.content? u = some (.graph g) → IsPart a (.backOff fallback specific)

theorem isPart_of_mem {x : Outline} {slot : Option NodeId}
    (h : x ∈ (a.unfold fuel slot).preorder) : a.IsPart x := by
  have hempty : ∀ {x}, x ∈ Outline.empty.preorder → a.IsPart x := by
    intro x hx
    rw [Outline.preorder, List.mem_singleton] at hx
    rw [hx]
    exact .empty
  induction fuel generalizing slot with
  | zero => cases slot <;> exact hempty h
  | succ fuel ih =>
    cases slot with
    | none => exact hempty h
    | some u =>
      cases hx : a.content? u with
      | none => exact hempty (unfold_of_content?_eq_none hx _ ▸ h)
      | some y =>
        cases y with
        | leaf p =>
          rw [unfold_of_leaf hx, Outline.preorder, List.mem_singleton] at h
          rw [h]
          exact .leaf hx
        | graph g =>
          rw [unfold_of_graph hx, Outline.preorder] at h
          rcases List.mem_cons.mp h with rfl | h
          · exact .backOff _ _ hx
          · exact (List.mem_append.mp h).elim ih ih
        | decision d =>
          rw [unfold_of_decision hx, Outline.preorder] at h
          rcases List.mem_cons.mp h with rfl | h
          · exact .branch hx (by rw [List.length_map, Array.length_toList])
          · obtain ⟨y, hy, h⟩ := List.mem_flatMap.mp h
            obtain ⟨slot, -, rfl⟩ := List.mem_map.mp hy
            exact ih h

/-- A branch of the outline is a decision with that many slots. -/
theorem exists_decision_of_mem {feature : Nat} {test : DecisionTest} {children : List Outline}
    {slot : Option NodeId} (h : .branch feature test children ∈ (a.unfold fuel slot).preorder) :
    ∃ u d, a.content? u = some (.decision d) ∧ d.feature = feature ∧ d.test = test ∧
      d.children.size = children.length := by
  cases isPart_of_mem h with
  | branch hd hlength => exact ⟨_, _, hd, rfl, rfl, hlength.symm⟩

end Arena

namespace Cart

variable (t : Cart) {u : NodeId}

/-- All nodes of a tree are met on the way down. -/
theorem exists_unfold_mem {x : NodeContent} (hx : t.arena.content? u = some x) :
    ∃ k, t.arena.unfold (k + 1) (some u) ∈ t.arena.outline.preorder := by
  obtain ⟨n, hn, -⟩ := Arena.content?_eq_some_iff.mp hx
  obtain ⟨root, hroot⟩ := t.exists_root hn
  have w := t.wellFormed hroot
  rw [Arena.outline, hroot]
  exact Arena.exists_unfold_of_reaches w.acyclic w.child_lt w.root_lt
    (Nat.le_succ_of_le (t.arena.rank_le_size root)) (w.reached u (Arena.lt_of_node? hn))

/-- Every decision of a tree is a branch of its outline. -/
theorem exists_branch_mem {d : Decision} (hd : t.arena.content? u = some (.decision d)) :
    ∃ children, children.length = d.children.size ∧
      .branch d.feature d.test children ∈ t.arena.outline.preorder := by
  obtain ⟨k, hmem⟩ := t.exists_unfold_mem hd
  rw [Arena.unfold_of_decision hd] at hmem
  exact ⟨_, by rw [List.length_map, Array.length_toList], hmem⟩

theorem leaf_mem_preorder {p : Payload} (hp : t.arena.content? u = some (.leaf p)) :
    .leaf p ∈ t.arena.outline.preorder := by
  obtain ⟨k, hmem⟩ := t.exists_unfold_mem hp
  rwa [Arena.unfold_of_leaf hp] at hmem

end Cart

namespace Wagon

variable {s : Schema} {n : Nat}

/-! ### The lines one by one -/

/-- Induction over the lines of an outline: those of the children of a decision follow its
own, and those of the last child close it. -/
theorem lines_induct (single : Outline → Nat → List String → Prop)
    (several : List Outline → Nat → List String → Prop)
    (empty : ∀ n, single .empty n [emptyLeaf ++ closing n])
    (leaf : ∀ p written n, leafText p = .ok written → single (.leaf p) n [written ++ closing n])
    (branch : ∀ feature test children n ls, several children n ls →
      single (.branch feature test children) n
        (decisionLine s (Decision.ofSlots feature test children.length) :: ls))
    (nil : ∀ n, several [] n [])
    (last : ∀ x n ls, single x (n + 1) ls → several [x] n ls)
    (cons : ∀ x y rest n ls ls', single x 0 ls → several (y :: rest) n ls' →
      several (x :: y :: rest) n (ls ++ ls')) :
    ∀ {x : Outline} {n : Nat} {ls : List String}, x.lines s n = .ok ls → single x n ls := by
  intro x
  induction x with
  | empty =>
    intro n ls h
    obtain rfl := Except.ok.inj h
    exact empty n
  | leaf p =>
    intro n ls h
    obtain ⟨written, hwritten, h⟩ := bind_eq_ok_iff.mp h
    obtain rfl := Except.ok.inj h
    exact leaf p written n hwritten
  | backOff fallback specific =>
    intro n ls h
    cases h
  | branch feature test children ih =>
    intro n ls hls
    obtain ⟨rest, hrest, h⟩ := bind_eq_ok_iff.mp hls
    obtain rfl := Except.ok.inj h
    refine branch feature test children n rest ?_
    clear hls h
    -- the children from the first one on
    induction children generalizing rest with
    | nil =>
      obtain rfl := Except.ok.inj hrest
      exact nil n
    | cons x xs ihxs =>
      cases xs with
      | nil => exact last x n rest (ih x List.mem_cons_self hrest)
      | cons y xs =>
        obtain ⟨first, hfirst, hrest⟩ := bind_eq_ok_iff.mp hrest
        obtain ⟨others, hothers, hrest⟩ := bind_eq_ok_iff.mp hrest
        obtain rfl := Except.ok.inj hrest
        exact cons x y xs n first others (ih x List.mem_cons_self hfirst)
          (ihxs (fun z hz => ih z (List.mem_cons_of_mem _ hz)) others hothers)

/-- The line of a part of an outline: a decision, or the record of a leaf or an empty slot
with brackets after it. -/
inductive IsLineOf (s : Schema) : Outline → String → Prop
  | empty (n : Nat) : IsLineOf s .empty (emptyLeaf ++ closing n)
  | leaf {p : Payload} {written : String} (n : Nat) : leafText p = .ok written →
      IsLineOf s (.leaf p) (written ++ closing n)
  | branch (feature : Nat) (test : DecisionTest) (children : List Outline) :
      IsLineOf s (.branch feature test children)
        (decisionLine s (Decision.ofSlots feature test children.length))

/-- The lines of an outline are those of its parts. -/
theorem forall₂_lines {x : Outline} {ls : List String} (h : x.lines s n = .ok ls) :
    List.Forall₂ (IsLineOf s) x.preorder ls := by
  refine lines_induct (fun x _ ls => List.Forall₂ (IsLineOf s) x.preorder ls)
    (fun xs _ ls => List.Forall₂ (IsLineOf s) (xs.flatMap Outline.preorder) ls)
    (fun n => ?_) (fun p written n hwritten => ?_) (fun feature test children n ls hls => ?_)
    (fun n => ?_) (fun x n ls hls => ?_) (fun x y rest n ls ls' hls hls' => ?_) h
  · rw [Outline.preorder]
    exact .cons (.empty n) .nil
  · rw [Outline.preorder]
    exact .cons (.leaf n hwritten) .nil
  · rw [Outline.preorder]
    exact .cons (.branch feature test children) hls
  · exact .nil
  · rwa [List.flatMap_singleton]
  · rw [List.flatMap_cons]
    exact List.rel_append hls hls'

theorem exists_line_of_mem {x y : Outline} {ls : List String} (h : x.lines s n = .ok ls)
    (hy : y ∈ x.preorder) : ∃ l ∈ ls, IsLineOf s y l := by
  have hlines := forall₂_lines h
  obtain ⟨i, hi, rfl⟩ := List.getElem_of_mem hy
  have hi' : i < ls.length := hlines.length_eq ▸ hi
  exact ⟨ls[i], List.getElem_mem hi', hlines.get hi hi'⟩

/-- An outline has lines just if each of its parts has one. -/
theorem exists_lines_iff {x : Outline} :
    (∃ ls, x.lines s n = .ok ls) ↔ ∀ y ∈ x.preorder, ∃ l, IsLineOf s y l := by
  constructor
  · rintro ⟨ls, hls⟩ y hy
    obtain ⟨l, -, hl⟩ := exists_line_of_mem hls hy
    exact ⟨l, hl⟩
  · intro h
    induction x generalizing n with
    | empty => exact ⟨_, rfl⟩
    | leaf p =>
      obtain ⟨l, hl⟩ := h _ (Outline.mem_preorder_self _)
      cases hl with
      | leaf n' hwritten => exact ⟨_, by rw [Outline.lines, hwritten]; rfl⟩
    | backOff fallback specific =>
      obtain ⟨l, hl⟩ := h _ (Outline.mem_preorder_self _)
      cases hl
    | branch feature test children ih =>
      have hchildren : ∀ y ∈ children, ∀ n, ∃ ls, y.lines s n = .ok ls ∧ ∀ l ∈ ls, True := by
        intro y hy n
        obtain ⟨ls, hls⟩ := ih y hy (n := n) fun z hz => h z <| by
          rw [Outline.preorder]
          exact List.mem_cons_of_mem _ (List.mem_flatMap.mpr ⟨y, hy, hz⟩)
        exact ⟨ls, hls, fun _ _ => trivial⟩
      obtain ⟨ls, hls, -⟩ := exists_linesOfAll (n := n) hchildren
      exact ⟨_, by rw [Outline.lines, hls]; rfl⟩

/-- Every leaf of a tree has its line. -/
theorem leafLine_mem_lines {t : Cart} {ls : List String} {u : NodeId} {p : Payload}
    (hp : t.arena.content? u = some (.leaf p)) (hls : t.arena.outline.lines s n = .ok ls) :
    ∃ written k, leafText p = .ok written ∧ written ++ closing k ∈ ls := by
  obtain ⟨l, hl, hline⟩ := exists_line_of_mem hls (t.leaf_mem_preorder hp)
  cases hline with
  | leaf k hwritten => exact ⟨_, k, hwritten, hl⟩

/-- Every decision of a tree has its line. -/
theorem decisionLine_mem_lines {t : Cart} {kind : Option WagonKind} {ls : List String}
    {u : NodeId} {d : Decision} (hd : t.arena.content? u = some (.decision d))
    (hls : lines t kind = .ok ls) : decisionLine t.arena.schema d ∈ ls := by
  obtain ⟨n, hn, -⟩ := Arena.content?_eq_some_iff.mp hd
  obtain ⟨root, hroot⟩ := t.exists_root hn
  obtain ⟨children, hlength, hmem⟩ := t.exists_branch_mem hd
  obtain ⟨l, hl, hline⟩ := exists_line_of_mem (lines_outline hroot hls) hmem
  cases hline with
  | branch =>
    have hsame : decisionLine t.arena.schema
        (Decision.ofSlots d.feature d.test children.length) = decisionLine t.arena.schema d :=
      decisionLine_congr rfl rfl (Array.size_replicate.trans hlength)
    rwa [hsame] at hl

end Wagon

end FeatureTree
