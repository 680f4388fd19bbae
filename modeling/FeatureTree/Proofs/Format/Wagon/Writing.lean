/-
The lines of a tree, read off its outline.

* `Outline.lines`, `Outline.linesOfAll` — the lines of an outline, and of the children
  of a decision;
* `Wagon.linesBelow_eq` — they are what is written for a tree;
* `Outline.Legible` — an outline whose lines can be read back;
* `Outline.reread`, `Outline.lines_reread` — what is read back has the same lines.
-/
import FeatureTree.Proofs.Format.Wagon.DecisionText
import FeatureTree.Proofs.Format.Wagon.LeafText
import FeatureTree.Proofs.Stream.Reads
import FeatureTree.Proofs.Tree.Preorder
import FeatureTree.Proofs.Tree.TreeShape

namespace FeatureTree

open Text Relation

namespace Outline

open Wagon

/-! ### The lines of an outline -/

mutual

/-- The lines of an outline, the last of which closes this many decisions. -/
def lines (s : Schema) : Outline → Nat → Except WriteError (List String)
  | empty, n => .ok [emptyLeaf ++ closing n]
  | leaf p, n => do return [(← leafText p) ++ closing n]
  | branch feature test children, n => do
    return decisionLine s (Decision.ofSlots feature test children.length) ::
      (← linesOfAll s children n)
  | backOff _ _, _ => .error (.unsupported .graphNodesInWagon)

/-- The lines of the children of a decision, the last of which also closes that. -/
def linesOfAll (s : Schema) : List Outline → Nat → Except WriteError (List String)
  | [], _ => .ok []
  | [last], n => lines s last (n + 1)
  | x :: y :: rest, n => do return (← lines s x 0) ++ (← linesOfAll s (y :: rest) n)

end

/-- An outline whose lines can be read back as a tree of the given kind. -/
inductive Legible (s : Schema) (kind : WagonKind) : Outline → Prop
  | empty : Legible s kind .empty
  | leaf {p : Payload} : p.kind = kind.leafKind → p.Legible → Legible s kind (.leaf p)
  | branch {feature : Nat} {test : DecisionTest} {children : List Outline} :
      (Decision.ofSlots feature test children.length).Suits s →
      (Decision.ofSlots feature test children.length).Legible s →
      (∀ x ∈ children, Legible s kind x) → Legible s kind (.branch feature test children)

/-- What is read back of an outline: an empty slot is a leaf without data, except in a
regression tree. -/
def reread (kind : WagonKind) (symbol : Option Nat) : Outline → Outline
  | empty =>
    if kind = .regression then empty else leaf ((Payload.empty kind.leafKind).reread symbol)
  | leaf p => leaf (p.reread symbol)
  | branch feature test children =>
    branch feature test.canonical (children.map fun x => reread kind symbol x)
  | backOff fallback specific =>
    backOff (reread kind symbol fallback) (reread kind symbol specific)

end Outline

namespace Wagon

variable {s : Schema} {kind : WagonKind} {symbol : Option Nat} {a : Arena} {n fuel : Nat}

/-! ### The lines of a tree -/

/-- Of the children only their number shows in the line of a decision. -/
theorem decisionLine_congr {d e : Decision} (hfeature : e.feature = d.feature)
    (htest : e.test = d.test) (hsize : e.children.size = d.children.size) :
    decisionLine s e = decisionLine s d := by
  have hdescribe : e.describe s = d.describe s := by
    rw [Decision.describe, Decision.describe, hfeature, htest, hsize]
  have hequality : ∀ i, equalityText s e i = equalityText s d i := by
    intro i
    rw [equalityText, equalityText, hfeature, hdescribe]
  rw [decisionLine, decisionLine, testText, testText, htest]
  simp only [hequality, hdescribe]

theorem slotLines_eq {one : Nat → Option NodeId → Except WriteError (List String)}
    {f : Option NodeId → Outline} {slots : List (Option NodeId)}
    (h : ∀ slot ∈ slots, ∀ n, one n slot = (f slot).lines s n) :
    slotLines one n slots = Outline.linesOfAll s (slots.map f) n := by
  induction slots with
  | nil => rfl
  | cons slot slots ih =>
    have hslot := h slot List.mem_cons_self
    cases slots with
    | nil => exact hslot (n + 1)
    | cons slot' slots =>
      have hrest := ih fun x hx => h x (List.mem_cons_of_mem _ hx)
      rw [List.map_cons] at hrest
      rw [slotLines, hslot, hrest, List.map_cons, List.map_cons, Outline.linesOfAll]
      simp

/-- The lines below a slot are those of the outline below it. -/
theorem linesBelow_eq (hac : ∀ u, ¬ TransGen a.Holds u u)
    (hlt : ∀ p c, a.Holds p c → c < a.size) {slot : Option NodeId}
    (hslot : ∀ u, slot = some u → u < a.size ∧ a.rank u ≤ fuel) (n : Nat) :
    linesBelow a fuel n slot = (a.unfold fuel slot).lines a.schema n := by
  induction fuel generalizing slot n with
  | zero =>
    cases slot with
    | none => rfl
    | some u =>
      obtain ⟨hu, hrank⟩ := hslot u rfl
      have := Arena.rank_pos hu
      omega
  | succ fuel ih =>
    cases slot with
    | none => rfl
    | some u =>
      obtain ⟨hu, hrank⟩ := hslot u rfl
      obtain ⟨x, hx⟩ := Arena.exists_content? hu
      have hx' : (a.node? u).map Node.content = some x := hx
      rw [linesBelow, Arena.unfold, hx]
      simp only [hx']
      cases x with
      | leaf p => rw [Outline.lines]
      | graph g => rw [Outline.lines]
      | decision d =>
        -- a child ranks below its parent, so the bound suffices for it
        have hslots : ∀ slot ∈ d.children.toList, ∀ n,
            linesBelow a fuel n slot = (a.unfold fuel slot).lines a.schema n := by
          intro slot hmem n
          refine ih (fun c hc => ?_) n
          have hhold := Arena.holds_of_content? hx (hc ▸ hmem : some c ∈ _)
          have := Arena.rank_lt_of_holds hac hhold
          exact ⟨hlt u c hhold, by omega⟩
        have hline : decisionLine a.schema (Decision.ofSlots d.feature d.test d.children.size) =
            decisionLine a.schema d := decisionLine_congr rfl rfl Array.size_replicate
        simp only [Outline.lines, slotLines_eq hslots, List.length_map, Array.length_toList, hline]

/-- The kinds of the leaves are all that is checked before. -/
theorem checkLeaves_eq_ok (t : Cart)
    (h : ∀ u p, t.arena.content? u = some (.leaf p) → p.kind = kind.leafKind) :
    checkLeaves t kind = .ok () := by
  have hfind : ((t.arena.select t.arena.root .leavesOnly).nodes.filterMap
      fun e => e.2.payload?).find? (fun p => p.kind != kind.leafKind) = none := by
    rw [List.find?_eq_none]
    intro p hp
    obtain ⟨⟨u, m⟩, hmem, hpayload⟩ := List.mem_filterMap.mp hp
    have hnode := Arena.node?_of_mem_preorder (List.mem_filter.mp hmem).1
    have hcontent : t.arena.content? u = some (.leaf p) := by
      refine Arena.content?_eq_some_iff.mpr ⟨m, hnode, ?_⟩
      rw [Node.payload?.eq_def] at hpayload
      cases hm : m.content <;> simp_all
    simp [h u p hcontent]
  rw [checkLeaves]
  simp only [hfind]

/-- The lines below the root are those of the outline of the tree. -/
theorem linesBelow_root (t : Cart) {root : NodeId} (hroot : t.arena.root = some root) :
    linesBelow t.arena (t.arena.size + 1) 0 (some root) =
      t.arena.outline.lines t.arena.schema 0 := by
  have w := t.wellFormed hroot
  have hrank := Nat.le_succ_of_le (t.arena.rank_le_size root)
  rw [Arena.outline, hroot]
  refine linesBelow_eq w.acyclic w.child_lt (fun u hu => ?_) 0
  obtain rfl : root = u := Option.some_inj.mp hu
  exact ⟨w.root_lt, hrank⟩

/-- The lines of a tree, if it has any, are those of its outline. -/
theorem lines_outline {t : Cart} {o : Option WagonKind} {root : NodeId} {ls : List String}
    (hroot : t.arena.root = some root) (h : lines t o = .ok ls) :
    t.arena.outline.lines t.arena.schema 0 = .ok ls := by
  rw [← linesBelow_root t hroot]
  cases o with
  | none => simpa only [lines, hroot] using h
  | some kind =>
    simp only [lines, hroot] at h
    obtain ⟨-, -, h⟩ := bind_eq_ok_iff.mp h
    exact h

/-- The text of a tree whose leaves are all of the right kind. -/
theorem toText_eq (t : Cart) {o : Option WagonKind} (ho : o = none ∨ o = some kind)
    (hleaves : ∀ u p, t.arena.content? u = some (.leaf p) → p.kind = kind.leafKind)
    {root : NodeId} (hroot : t.arena.root = some root) :
    toText t o = (t.arena.outline.lines t.arena.schema 0).map fun ls =>
      String.join (ls.map (· ++ "\n")) := by
  have hlines : lines t o = t.arena.outline.lines t.arena.schema 0 := by
    rw [← linesBelow_root t hroot]
    rcases ho with rfl | rfl
    · simp only [lines, hroot]
    · simp only [lines, hroot, checkLeaves_eq_ok t hleaves]
      rfl
  rw [toText, hlines]
  cases t.arena.outline.lines t.arena.schema 0 <;> rfl

theorem toText_eq_of_root_eq_none (t : Cart) {o : Option WagonKind}
    (ho : o = none ∨ o = some kind) (hroot : t.arena.root = none) : toText t o = .ok "" := by
  have hleaves : ∀ u p, t.arena.content? u = some (.leaf p) → p.kind = kind.leafKind := by
    intro u p hp
    have hu := Arena.lt_size_of_content? hp
    rw [t.size_eq_zero hroot] at hu
    exact absurd hu (Nat.not_lt_zero u)
  have hlines : lines t o = .ok [] := by
    rcases ho with rfl | rfl
    · simp only [lines, hroot]
      rfl
    · simp only [lines, hroot, checkLeaves_eq_ok t hleaves]
      rfl
  rw [toText, hlines]
  rfl

/-! ### Lines that can be read back -/

/-- The outline of a tree can be read back if its nodes can. -/
theorem legible_unfold (hgraph : ∀ u g, a.content? u ≠ some (.graph g))
    (hleaf : ∀ u p, a.content? u = some (.leaf p) → p.kind = kind.leafKind ∧ p.Legible)
    (hdecision : ∀ u d, a.content? u = some (.decision d) → d.Suits s ∧ d.Legible s)
    (fuel : Nat) (slot : Option NodeId) : (a.unfold fuel slot).Legible s kind := by
  induction fuel generalizing slot with
  | zero => cases slot <;> exact .empty
  | succ fuel ih =>
    cases slot with
    | none => exact .empty
    | some u =>
      rw [Arena.unfold]
      cases hx : a.content? u with
      | none => exact .empty
      | some x =>
        cases x with
        | leaf p =>
          obtain ⟨hkind, hl⟩ := hleaf u p hx
          exact .leaf hkind hl
        | decision d =>
          obtain ⟨hsuits, hl⟩ := hdecision u d hx
          have hlength : (d.children.toList.map (a.unfold fuel)).length = d.children.size := by
            rw [List.length_map, Array.length_toList]
          refine .branch (hlength ▸ hsuits.ofSlots) (hlength ▸ hl.ofSlots) fun y hy => ?_
          obtain ⟨slot, -, rfl⟩ := List.mem_map.mp hy
          exact ih slot
        | graph g => exact absurd hx (hgraph u g)

/-- A line that is neither blank nor a comment, and one line by itself. -/
structure IsNodeLine (l : String) : Prop where
  opening : ∃ body, l.toList = '(' :: '(' :: body
  closing : l.toList.getLast? = some ')'
  inline : '\n' ∉ l.toList

theorem isNodeLine_decisionLine {d : Decision} (hd : d.Suits s) (h : d.Legible s) :
    IsNodeLine (decisionLine s d) := by
  have htext : (decisionLine s d).toList = '(' :: '(' :: ((testText s d).toList ++ [')']) := by
    rw [decisionLine, String.toList_append, String.toList_append]
    rfl
  refine ⟨⟨_, htext⟩, ?_, ?_⟩
  · rw [htext, ← List.cons_append, ← List.cons_append, List.getLast?_concat]
  · rw [htext]
    intro hmem
    have hmem : '\n' ∈ (testText s d).toList := by simpa using hmem
    exact lineFeed_not_mem_testText hd h hmem

theorem isNodeLine_record {p : Payload} {written : String} (hkind : p.kind = kind.leafKind)
    (hl : p.Legible) (htext : leafText p = .ok written) (n : Nat) :
    IsNodeLine (written ++ closing n) := by
  have hrecord := toList_leafText htext n
  obtain ⟨body, hbody, -⟩ := exists_body hkind hl n
  refine ⟨⟨body, hrecord.trans hbody⟩, ?_, ?_⟩
  · rw [hrecord, getLast?_record hkind]
  · rw [hrecord]
    exact lineFeed_not_mem_record hl

/-- The payload of an empty slot where there are no empty slots. -/
theorem legible_empty (kind : LeafKind) : (Payload.empty kind).Legible := by
  constructor
  · intro w hw e he
    cases kind <;> simp [Payload.empty, Payload.weighted?, WeightedIndices.empty] at hw <;>
      subst hw <;> simp at he
  · intro g hg
    cases kind <;> simp [Payload.empty] at hg
    rw [← hg]
    decide +kernel

theorem leafText_empty (hne : kind ≠ .regression) :
    leafText (Payload.empty kind.leafKind) = .ok emptyLeaf := by
  cases kind with
  | regression => exact absurd rfl hne
  | _ => rfl

theorem isNodeLine_emptyLeaf (n : Nat) : IsNodeLine (emptyLeaf ++ closing n) := by
  have hkind : (Payload.empty .indices).kind = WagonKind.classification.leafKind := rfl
  exact isNodeLine_record hkind (legible_empty _) rfl n

theorem exists_linesOfAll {P : String → Prop} {xs : List Outline}
    (h : ∀ x ∈ xs, ∀ n, ∃ ls, x.lines s n = .ok ls ∧ ∀ l ∈ ls, P l) :
    ∃ ls, Outline.linesOfAll s xs n = .ok ls ∧ ∀ l ∈ ls, P l := by
  induction xs with
  | nil => exact ⟨[], rfl, by simp⟩
  | cons x xs ih =>
    have hx := h x List.mem_cons_self
    cases xs with
    | nil => exact hx (n + 1)
    | cons y xs =>
      obtain ⟨ls, hls, hall⟩ := hx 0
      obtain ⟨rest, hrest, hallrest⟩ := ih fun z hz => h z (List.mem_cons_of_mem _ hz)
      refine ⟨ls ++ rest, ?_, ?_⟩
      · rw [Outline.linesOfAll, hls, hrest]
        rfl
      · intro l hl
        rcases List.mem_append.mp hl with hl | hl
        · exact hall l hl
        · exact hallrest l hl

/-- An outline that can be read back has lines. -/
theorem exists_lines {x : Outline} (h : x.Legible s kind) (n : Nat) :
    ∃ ls, x.lines s n = .ok ls ∧ ∀ l ∈ ls, IsNodeLine l := by
  induction h generalizing n with
  | empty =>
    refine ⟨[emptyLeaf ++ closing n], rfl, fun l hl => ?_⟩
    rw [List.mem_singleton.mp hl]
    exact isNodeLine_emptyLeaf n
  | @leaf p hkind hl =>
    obtain ⟨written, htext⟩ := exists_leafText hkind
    refine ⟨[written ++ closing n], by rw [Outline.lines, htext]; rfl, fun l hmem => ?_⟩
    rw [List.mem_singleton.mp hmem]
    exact isNodeLine_record hkind hl htext n
  | @branch feature test children hsuits hl _ ih =>
    obtain ⟨ls, hls, hall⟩ := exists_linesOfAll (n := n) ih
    refine ⟨_, by rw [Outline.lines, hls]; rfl, fun l hmem => ?_⟩
    rcases List.mem_cons.mp hmem with rfl | hmem
    · exact isNodeLine_decisionLine hsuits hl
    · exact hall l hmem

/-! ### What is read back has the same lines -/

theorem leafText_reread (symbol : Option Nat) (p : Payload) :
    leafText (p.reread symbol) = leafText p := by
  cases p with
  | gaussian g =>
    simp only [Payload.reread, leafText, Gaussian.canonical, Floating.renderLower_canonical]
  | _ => rfl

theorem decisionLine_canonical (s : Schema) (feature slots : Nat) (test : DecisionTest) :
    decisionLine s (Decision.ofSlots feature test.canonical slots) =
      decisionLine s (Decision.ofSlots feature test slots) := by
  cases test with
  | below t =>
    show "((" ++ (Decision.featureLabel s feature ++ " < " ++ t.canonical.render) ++ ")" = _
    rw [Floating.render_canonical]
    rfl
  | _ => rfl

theorem linesOfAll_map {f : Outline → Outline} {xs : List Outline}
    (h : ∀ x ∈ xs, ∀ n, (f x).lines s n = x.lines s n) :
    Outline.linesOfAll s (xs.map f) n = Outline.linesOfAll s xs n := by
  induction xs with
  | nil => rfl
  | cons x xs ih =>
    have hx := h x List.mem_cons_self
    cases xs with
    | nil => exact hx (n + 1)
    | cons y xs =>
      have hrest := ih fun z hz => h z (List.mem_cons_of_mem _ hz)
      rw [List.map_cons] at hrest
      rw [List.map_cons, List.map_cons, Outline.linesOfAll, hx 0, hrest, Outline.linesOfAll]

/-- What is read back of an outline without back-offs has the same lines. -/
theorem lines_reread {x : Outline} (h : x.Legible s kind) (n : Nat) :
    (x.reread kind symbol).lines s n = x.lines s n := by
  induction h generalizing n with
  | empty =>
    rw [Outline.reread]
    by_cases hkind : kind = .regression
    · rw [if_pos hkind]
    · rw [if_neg hkind]
      show Outline.lines s (.leaf _) n = .ok [emptyLeaf ++ closing n]
      rw [Outline.lines, leafText_reread, leafText_empty hkind]
      rfl
  | leaf _ _ => rw [Outline.reread, Outline.lines, Outline.lines, leafText_reread]
  | branch _ _ _ ih =>
    rw [Outline.reread, Outline.lines, Outline.lines, linesOfAll_map ih, List.length_map,
      decisionLine_canonical]

end Wagon

end FeatureTree
