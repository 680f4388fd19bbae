/-
The entry of greatest weight, and the symbol that a tree predicts.

The search keeps the best entry so far and takes a later one only if it weighs strictly more,
so of several greatest entries it finds the first.  Before there is a best entry the bar is
minus infinity.  An entry that weighs minus infinity never clears it, and where nothing weighs
more, nothing is found.

* `WeightedIndices.FirstHeaviest` — the first of the greatest entries, weights that are not
  numbers left out;
* `WeightedIndices.Found`, `WeightedIndices.found_foldl` — what the search has found after some
  entries;
* `WeightedIndices.mostProbable_eq` — what it finds in the end;
* `StringTree.predict_of_route` — the prediction at the end of a route;
* `StringTree.predict_heaviest_iff` — when the heaviest entry is the one that is predicted.
-/
import FeatureTree.Proofs.Numeric.Order
import FeatureTree.Proofs.Tree.Route
import FeatureTree.Symbol.StringTree

namespace FeatureTree

open Arena

namespace WeightedIndices

/-! ### The first of the greatest entries -/

/-- An entry weighs a number, those before it weigh less, and those after it no more.  Weights
that are not numbers do not count. -/
def FirstHeaviest (entries : List (Int32 × Single)) (e : Int32 × Single) : Prop :=
  e.2.isNaN = false ∧ ∃ before after, entries = before ++ e :: after ∧
    (∀ x ∈ before, x.2.isNaN = false → x.2.lt e.2 = true) ∧
    ∀ x ∈ after, x.2.isNaN = false → x.2.le e.2 = true

namespace FirstHeaviest

variable {entries : List (Int32 × Single)} {e e' x : Int32 × Single}

theorem mem (h : FirstHeaviest entries e) : e ∈ entries := by
  obtain ⟨-, before, after, rfl, -, -⟩ := h
  exact List.mem_append_right _ List.mem_cons_self

/-- No entry weighs more. -/
theorem le (h : FirstHeaviest entries e) (hx : x ∈ entries) (hnumber : x.2.isNaN = false) :
    x.2.le e.2 = true := by
  obtain ⟨he, before, after, rfl, hbefore, hafter⟩ := h
  rcases List.mem_append.mp hx with hx | hx
  · have hlt := (Floating.lt_iff.mp (hbefore x hx hnumber)).2.2
    exact Floating.le_iff.mpr ⟨hnumber, he, Int.le_of_lt hlt⟩
  · rcases List.mem_cons.mp hx with rfl | hx
    · exact Floating.le_iff.mpr ⟨he, he, Int.le_refl _⟩
    · exact hafter x hx hnumber

theorem not_lt (h : FirstHeaviest entries e) (hx : x ∈ entries) : e.2.lt x.2 = false := by
  rw [Bool.eq_false_iff]
  intro hlt
  obtain ⟨-, hnumber, hkeys⟩ := Floating.lt_iff.mp hlt
  have := (Floating.le_iff.mp (h.le hx hnumber)).2.2
  omega

theorem unique (h : FirstHeaviest entries e) (h' : FirstHeaviest entries e') : e' = e := by
  have hnot := h.not_lt h'.mem
  have hnot' := h'.not_lt h.mem
  obtain ⟨he, before, after, heq, hbefore, -⟩ := h
  obtain ⟨he', before', after', heq', hbefore', -⟩ := h'
  -- the one that stood before the other would weigh less
  rcases List.append_eq_append_iff.mp (heq.symm.trans heq') with
    ⟨mid, hmid, htail⟩ | ⟨mid, hmid, htail⟩
  · cases mid with
    | nil => exact (List.cons.inj htail).1.symm
    | cons y mid =>
      obtain rfl : e = y := (List.cons.inj htail).1
      rw [hbefore' e (hmid ▸ List.mem_append_right _ List.mem_cons_self) he] at hnot
      exact Bool.noConfusion hnot
  · cases mid with
    | nil => exact (List.cons.inj htail).1
    | cons y mid =>
      obtain rfl : e' = y := (List.cons.inj htail).1
      rw [hbefore e' (hmid ▸ List.mem_append_right _ List.mem_cons_self) he'] at hnot'
      exact Bool.noConfusion hnot'

/-- One more entry that does not weigh more changes nothing. -/
theorem keep (h : FirstHeaviest entries e) (hx : x.2.isNaN = false → x.2.le e.2 = true) :
    FirstHeaviest (entries ++ [x]) e := by
  obtain ⟨he, before, after, rfl, hbefore, hafter⟩ := h
  refine ⟨he, before, after ++ [x], by rw [List.append_assoc, List.cons_append], hbefore, ?_⟩
  intro y hy hnumber
  rcases List.mem_append.mp hy with hy | hy
  · exact hafter y hy hnumber
  · obtain rfl := List.mem_singleton.mp hy
    exact hx hnumber

/-- One more entry that weighs more than all the others. -/
theorem last (hx : x.2.isNaN = false)
    (hlt : ∀ y ∈ entries, y.2.isNaN = false → y.2.lt x.2 = true) :
    FirstHeaviest (entries ++ [x]) x :=
  ⟨hx, entries, [], rfl, hlt, fun _ hy => absurd hy List.not_mem_nil⟩

/-- An entry that weighs more than the first of the greatest weighs more than all. -/
theorem replace (h : FirstHeaviest entries e) (hx : e.2.lt x.2 = true) :
    FirstHeaviest (entries ++ [x]) x := by
  obtain ⟨-, hnumber, hlt⟩ := Floating.lt_iff.mp hx
  refine last hnumber fun y hy hny => ?_
  have hle := (Floating.le_iff.mp (h.le hy hny)).2.2
  exact Floating.lt_iff.mpr ⟨hny, hnumber, by omega⟩

end FirstHeaviest

/-- Where some weight is a number there is a greatest one. -/
theorem exists_firstHeaviest {entries : List (Int32 × Single)}
    (h : ∃ x ∈ entries, x.2.isNaN = false) : ∃ e, FirstHeaviest entries e := by
  induction entries using List.reverseRecOn with
  | nil => simp at h
  | append_singleton entries x ih =>
    by_cases hsome : ∃ y ∈ entries, y.2.isNaN = false
    · obtain ⟨e, he⟩ := ih hsome
      cases hlt : e.2.lt x.2 with
      | true => exact ⟨x, he.replace hlt⟩
      | false => exact ⟨e, he.keep fun hx => Floating.le_of_lt_eq_false he.1 hx hlt⟩
    · obtain ⟨y, hy, hnumber⟩ := h
      rcases List.mem_append.mp hy with hy | hy
      · exact absurd ⟨y, hy, hnumber⟩ hsome
      · obtain rfl := List.mem_singleton.mp hy
        exact ⟨y, .last hnumber fun z hz hnz => absurd ⟨z, hz, hnz⟩ hsome⟩

/-! ### The search -/

/-- What the search has found after some entries: the first of the greatest, or nothing, if
none of them weighs more than minus infinity. -/
def Found (entries : List (Int32 × Single)) : Option (Int32 × Single) → Prop
  | some e => FirstHeaviest entries e ∧ (Floating.infinity true).lt e.2 = true
  | none => ∀ x ∈ entries, (Floating.infinity true).lt x.2 = false

variable {entries : List (Int32 × Single)} {best : Option (Int32 × Single)}
  {e x : Int32 × Single} {w : WeightedIndices}

/-- One step of the search. -/
theorem Found.better (h : Found entries best) : Found (entries ++ [x]) (better best x) := by
  cases best with
  | some e =>
    obtain ⟨hfirst, hbar⟩ := h
    cases hlt : e.2.lt x.2 with
    | true =>
      have hkeys := (Floating.lt_iff.mp hbar).2.2.trans (Floating.lt_iff.mp hlt).2.2
      obtain ⟨hinfinity, -, -⟩ := Floating.lt_iff.mp hbar
      obtain ⟨-, hx, -⟩ := Floating.lt_iff.mp hlt
      rw [WeightedIndices.better, Option.map_some, Option.getD_some, if_pos hlt]
      exact ⟨hfirst.replace hlt, Floating.lt_iff.mpr ⟨hinfinity, hx, hkeys⟩⟩
    | false =>
      rw [WeightedIndices.better, Option.map_some, Option.getD_some,
        if_neg (Bool.eq_false_iff.mp hlt)]
      exact ⟨hfirst.keep fun hx => Floating.le_of_lt_eq_false hfirst.1 hx hlt, hbar⟩
  | none =>
    cases hlt : (Floating.infinity true : Single).lt x.2 with
    | true =>
      rw [WeightedIndices.better, Option.map_none, Option.getD_none, if_pos hlt]
      obtain ⟨hinfinity, hx, hkeys⟩ := Floating.lt_iff.mp hlt
      refine ⟨.last hx fun y hy hnumber => ?_, hlt⟩
      have hle := Floating.le_of_lt_eq_false hinfinity hnumber (h y hy)
      exact Floating.lt_iff.mpr
        ⟨hnumber, hx, Int.lt_of_le_of_lt (Floating.le_iff.mp hle).2.2 hkeys⟩
    | false =>
      rw [WeightedIndices.better, Option.map_none, Option.getD_none,
        if_neg (Bool.eq_false_iff.mp hlt)]
      intro y hy
      rcases List.mem_append.mp hy with hy | hy
      · exact h y hy
      · rw [List.mem_singleton.mp hy]
        exact hlt

theorem found_foldl (entries : List (Int32 × Single)) :
    Found entries (entries.foldl WeightedIndices.better none) := by
  induction entries using List.reverseRecOn with
  | nil => exact fun x hx => absurd hx List.not_mem_nil
  | append_singleton entries x ih =>
    rw [List.foldl_append]
    exact ih.better

/-- The first of the greatest entries is found unless it weighs minus infinity. -/
theorem mostProbable_eq (h : FirstHeaviest w.entries e) :
    w.mostProbable = if e.2 = Floating.infinity true then none else some e := by
  have hfound : Found w.entries w.mostProbable := found_foldl w.entries
  cases hbest : w.mostProbable with
  | some e' =>
    rw [hbest] at hfound
    obtain ⟨hfirst, hbar⟩ := hfound
    obtain rfl := hfirst.unique h
    rw [if_neg (Floating.infinity_lt_iff.mp hbar).2]
  | none =>
    rw [hbest] at hfound
    have hbar := hfound e h.mem
    rw [if_pos]
    by_contra hne
    rw [Floating.infinity_lt_iff.mpr ⟨h.1, hne⟩] at hbar
    exact Bool.noConfusion hbar

/-- The greatest entry weighs more than minus infinity exactly if some entry does. -/
theorem FirstHeaviest.ne_infinity_iff (h : FirstHeaviest entries e) :
    e.2 ≠ Floating.infinity true ↔ ∃ x ∈ entries, (Floating.infinity true).lt x.2 = true := by
  constructor
  · intro hne
    exact ⟨e, h.mem, Floating.infinity_lt_iff.mpr ⟨h.1, hne⟩⟩
  · rintro ⟨x, hx, hlt⟩ heq
    have hnot := h.not_lt hx
    rw [heq, hlt] at hnot
    exact Bool.noConfusion hnot

end WeightedIndices

/-! ### Predictions -/

namespace StringTree

open WeightedIndices

variable {t : StringTree} {v : FeatureVector} {root u : NodeId} {path : List NodeId}
  {p : Payload} {w : WeightedIndices}

theorem symbol?_eq_none_iff {i : Int32} :
    t.symbol? i = none ↔ i.toInt < 0 ∨ (t.symbols.length : Int) ≤ i.toInt := by
  rw [symbol?]
  split
  · rw [List.getElem?_eq_none_iff]
    omega
  · simp only [true_iff]
    omega

/-- What is predicted at the end of a route. -/
theorem predict_of_route (hroot : t.tree.arena.root = some root)
    (hpath : t.tree.arena.Route v root path) (hu : path.getLast? = some u)
    (hp : t.tree.arena.content? u = some (.leaf p)) (hw : p.weighted? = some w) :
    t.predict v = .ok (w.mostProbable.bind fun e => t.symbol? e.1) := by
  have hlength := (hpath.length_le_rank (t.tree.wellFormed hroot).acyclic).trans
    (t.tree.arena.rank_le_succ root)
  have hnode := Cart.nodeFor_zero hroot hpath hlength
  obtain ⟨n, hn, hnp⟩ := content?_eq_some_iff.mp hp
  have hpayload : n.payload? = some p := by rw [Node.payload?, hnp]
  rw [predict, hnode, hu]
  simp only [bind, Except.bind, node, hn, hpayload, hw, pure, Except.pure]

/-- Where some weight is a number, the first of the greatest entries is found exactly if some
entry weighs more than minus infinity; otherwise nothing is found.  A tree then predicts the
symbol of that entry, or none if the table has no symbol of its index, and in the other case
none at all. -/
theorem predict_heaviest_iff (w : WeightedIndices)
    (hnumber : ∃ x ∈ w.entries, x.2.isNaN = false) :
    ∃ e, FirstHeaviest w.entries e ∧ (∀ e', FirstHeaviest w.entries e' → e' = e) ∧
      (w.mostProbable = some e ↔ ∃ x ∈ w.entries, (Floating.infinity true).lt x.2 = true) ∧
      (w.mostProbable = none ↔ ¬ ∃ x ∈ w.entries, (Floating.infinity true).lt x.2 = true) ∧
      ∀ (t : StringTree) (v : FeatureVector) (root u : NodeId) (path : List NodeId)
        (p : Payload), t.tree.arena.root = some root → t.tree.arena.Route v root path →
        path.getLast? = some u → t.tree.arena.content? u = some (.leaf p) →
        p.weighted? = some w →
        ((∃ x ∈ w.entries, (Floating.infinity true).lt x.2 = true) →
          t.predict v = .ok (t.symbol? e.1)) ∧
        ((¬ ∃ x ∈ w.entries, (Floating.infinity true).lt x.2 = true) →
          t.predict v = .ok none) ∧
        (t.symbol? e.1 = none ↔ e.1.toInt < 0 ∨ (t.symbols.length : Int) ≤ e.1.toInt) := by
  obtain ⟨e, he⟩ := exists_firstHeaviest hnumber
  have hbest := mostProbable_eq he
  rw [← he.ne_infinity_iff]
  refine ⟨e, he, fun e' h => he.unique h, ?_, ?_, ?_⟩
  · rw [hbest]
    simp
  · rw [hbest]
    simp
  · intro t v root u path p hroot hpath hu hp hw
    have hpredict := predict_of_route hroot hpath hu hp hw
    rw [hbest] at hpredict
    refine ⟨fun hne => ?_, fun hinfinity => ?_, symbol?_eq_none_iff⟩
    · rw [hpredict, if_neg hne]
      rfl
    · rw [hpredict, if_pos (not_not.mp hinfinity)]
      rfl

end StringTree

/-! ### Samples -/

namespace Sample

/-- Candidates of which one has no comparable weight and two weigh the same. -/
def rivals : WeightedIndices :=
  ⟨[(2, Floating.nan), (1, Floating.ofInt 1), (0, Floating.ofInt 1), (2, Floating.infinity true)]⟩

/-- Candidates that all weigh minus infinity. -/
def hopeless : WeightedIndices := ⟨[(1, Floating.infinity true), (0, Floating.infinity true)]⟩

/-- A tree with these candidates in its leaves. -/
def candidateTree : Except GraphError Cart := do
  let b := (Builder.empty schema).addDecision (.byteEquals 0 1) |>.1
  let b := addLeaves b [.weightedIndices rivals, .weightedIndices hopeless]
  Cart.ofBuilder? (← wire (b.setRoot 0) [(0, some 1), (0, some 2)])

/-- A vector that the tree routes to its first leaf exactly if the value is one. -/
def letterVector (phone : UInt8) : FeatureVector := ⟨0, #[phone], #[0], #[Floating.zero]⟩

end Sample

namespace StringTree

open WeightedIndices

/-- Of two greatest candidates the first is predicted. -/
theorem predict_heaviest_iff_rivals :
    ∃ t path, Sample.candidateTree = .ok t ∧ t.arena.root = some 0 ∧
      t.arena.Route (Sample.letterVector 1) 0 path ∧ path.getLast? = some 1 ∧
      t.arena.content? 1 = some (.leaf (.weightedIndices Sample.rivals)) ∧
      (∃ x ∈ Sample.rivals.entries, x.2.isNaN = false) ∧
      FirstHeaviest Sample.rivals.entries (1, Floating.ofInt 1) ∧
      Sample.rivals.mostProbable = some (1, Floating.ofInt 1) ∧
      (⟨t, ["a", "b"]⟩ : StringTree).predict (Sample.letterVector 1) = .ok (some "b") := by
  have hsample : (Sample.candidateTree.toOption.any fun t =>
      t.arena.root == some 0 && decide (t.arena.schema.Fits (Sample.letterVector 1)) &&
        (t.nodeFor (Sample.letterVector 1) 0).toOption == some (some 1) &&
        t.arena.content? 1 == some (.leaf (.weightedIndices Sample.rivals))) = true := by
    decide +kernel
  have hnumber : ∃ x ∈ Sample.rivals.entries, x.2.isNaN = false := by decide
  have hheaviest : FirstHeaviest Sample.rivals.entries (1, Floating.ofInt 1) :=
    ⟨by decide, [(2, Floating.nan)], [(0, Floating.ofInt 1), (2, Floating.infinity true)], rfl,
      by decide, by decide⟩
  have habove : ∃ x ∈ Sample.rivals.entries, (Floating.infinity true).lt x.2 = true := by decide
  obtain ⟨t, ht, hsample⟩ := exists_of_any_toOption hsample
  simp only [Bool.and_eq_true, beq_iff_eq, decide_eq_true_eq] at hsample
  obtain ⟨⟨⟨hroot, hfits⟩, hnode⟩, hleaf⟩ := hsample
  obtain ⟨path, hpath, hlength⟩ := t.exists_route hroot hfits
  rw [Cart.nodeFor_zero hroot hpath hlength] at hnode
  have hend : path.getLast? = some 1 := Option.some_inj.mp hnode
  obtain ⟨e, -, hunique, hbest, -, hpredict⟩ := predict_heaviest_iff Sample.rivals hnumber
  obtain rfl := hunique _ hheaviest
  exact ⟨t, path, ht, hroot, hpath, hend, hleaf, hnumber, hheaviest, hbest.mpr habove,
    (hpredict ⟨t, ["a", "b"]⟩ _ 0 1 path _ hroot hpath hend hleaf rfl).1 habove⟩

/-- Candidates that all weigh minus infinity have a first greatest one, and its symbol is in
the table, but nothing is found and nothing predicted. -/
theorem not_predict_heaviest_hopeless :
    FirstHeaviest Sample.hopeless.entries (1, Floating.infinity true) ∧
      Sample.hopeless.mostProbable = none ∧
      ∃ t path, Sample.candidateTree = .ok t ∧ t.arena.root = some 0 ∧
        t.arena.Route (Sample.letterVector 0) 0 path ∧ path.getLast? = some 2 ∧
        t.arena.content? 2 = some (.leaf (.weightedIndices Sample.hopeless)) ∧
        (⟨t, ["a", "b"]⟩ : StringTree).symbol? 1 = some "b" ∧
        (⟨t, ["a", "b"]⟩ : StringTree).predict (Sample.letterVector 0) = .ok none := by
  have hsample : (Sample.candidateTree.toOption.any fun t =>
      t.arena.root == some 0 && decide (t.arena.schema.Fits (Sample.letterVector 0)) &&
        (t.nodeFor (Sample.letterVector 0) 0).toOption == some (some 2) &&
        t.arena.content? 2 == some (.leaf (.weightedIndices Sample.hopeless))) = true := by
    decide +kernel
  have hnone : Sample.hopeless.mostProbable = none := by decide
  refine ⟨⟨by decide, [], [(0, Floating.infinity true)], rfl, by decide, by decide⟩, hnone, ?_⟩
  obtain ⟨t, ht, hsample⟩ := exists_of_any_toOption hsample
  simp only [Bool.and_eq_true, beq_iff_eq, decide_eq_true_eq] at hsample
  obtain ⟨⟨⟨hroot, hfits⟩, hnode⟩, hleaf⟩ := hsample
  obtain ⟨path, hpath, hlength⟩ := t.exists_route hroot hfits
  rw [Cart.nodeFor_zero hroot hpath hlength] at hnode
  have hend : path.getLast? = some 2 := Option.some_inj.mp hnode
  refine ⟨t, path, ht, hroot, hpath, hend, hleaf, rfl, ?_⟩
  rw [predict_of_route (t := ⟨t, ["a", "b"]⟩) hroot hpath hend hleaf rfl, hnone]
  rfl

end StringTree

end FeatureTree
