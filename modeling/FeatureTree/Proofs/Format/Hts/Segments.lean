/-
A file is read part by part.

The number of a line matters for the wording of errors alone, so a block that is read leads
to one tree wherever in a file it stands.  Reading the lines of a part between two blocks
therefore stores the tree of the block, and does nothing else.

* `Hts.StateAssembly.addLine_renumber`, `Hts.StateAssembly.foldlM_renumber` — other numbers
  for the lines;
* `Hts.Segment.tree?` — the tree of a block by itself;
* `Hts.Scan.addSegment`, `Hts.Scan.foldlM_lines_eq_ok_iff` — one part of a file;
* `Hts.Scan.foldlM_segments_eq_ok_iff` — several parts;
* `Hts.Scan.Yields`, `Hts.Scan.exists_addSegments_iff`, `Hts.Scan.Stores` — which parts are
  read, and the trees that they leave.
-/
import FeatureTree.Proofs.Format.Hts.Acceptance

namespace FeatureTree.Hts

open Text

/-! ### Other numbers for the lines -/

theorem Context.says_renumber {c : Context} {text : String} {r : Rule} {q : Decision}
    (line line' : Nat) : c.Says line text r q ↔ c.Says line' text r q := by
  simp only [Says, question_eq_ok_iff]

namespace StateAssembly

variable {a a' : StateAssembly} {t : Cart} {state : Nat}

theorem addLine_renumber {text : String} (line line' : Nat) :
    a.addLine line text = .ok a' ↔ a.addLine line' text = .ok a' := by
  rw [addLine_eq_ok_iff, addLine_eq_ok_iff]
  simp only [Context.says_renumber line line']

theorem finish_renumber (line line' : Nat) : a.finish line = .ok t ↔ a.finish line' = .ok t := by
  rw [finish_eq_ok_iff, finish_eq_ok_iff]

theorem addSingleLeaf_renumber {name : List Char} (line line' : Nat) :
    a.addSingleLeaf line name = .ok a' ↔ a.addSingleLeaf line' name = .ok a' := by
  rw [addSingleLeaf, addSingleLeaf, bind_eq_ok_iff, bind_eq_ok_iff]
  simp only [Context.leaf_eq_ok_iff]

theorem foldlM_renumber {lines lines' : List (String × Nat)}
    (h : lines.map Prod.fst = lines'.map Prod.fst) :
    lines.foldlM addNumbered a = .ok a' ↔ lines'.foldlM addNumbered a = .ok a' := by
  induction lines generalizing a lines' with
  | nil =>
    obtain rfl : lines' = [] := List.map_eq_nil_iff.mp h.symm
    exact Iff.rfl
  | cons line lines ih =>
    cases lines' with
    | nil => simp at h
    | cons line' lines' =>
      rw [List.map_cons, List.map_cons, List.cons.injEq] at h
      obtain ⟨htext, hrest⟩ := h
      -- the state after a line is the same under both numbers, so the rest starts alike
      rw [List.foldlM_cons, List.foldlM_cons, bind_eq_ok_iff, bind_eq_ok_iff]
      simp only [addNumbered, htext, ih hrest, addLine_renumber line.2 line'.2]

/-- The lines of a block do not change what they refer to. -/
theorem context_of_foldlM {c : Context} {lines : List (String × Nat)}
    (h : lines.foldlM addNumbered (start c) = .ok a) : a.context = c := by
  obtain ⟨-, -, -, -, -, hcontext⟩ := (follows_start c).addLines lines (.inl rfl) h
  exact hcontext

end StateAssembly

/-! ### One part of a file -/

namespace Segment

/-- Whether a part is a block. -/
def isBlock (g : Segment) : Bool := g.header?.isSome

/-- The tree of a block by itself, if its lines can be read. -/
def tree? (c : Context) : Segment → Option Cart
  | skipped _ => none
  | single _ leaf => (do
      let a ← (StateAssembly.start c).addSingleLeaf 0 (trimBy isBlank leaf.toList)
      a.finish 0).toOption
  | braced _ _ body _ => (do
      let a ← ((filled body).map (·, 0)).foldlM StateAssembly.addNumbered (StateAssembly.start c)
      a.finish 0).toOption

theorem state?_eq_some_iff {g : Segment} {header : String} (hheader : g.header? = some header)
    {numStates k : Nat} :
    g.state? numStates = some k ↔ stateIndex 0 numStates header.toList = .ok k := by
  rw [state?, hheader, Option.bind_some, toOption_eq_some_iff]

theorem tree?_single_eq_some_iff {c : Context} {header leaf : String} {t : Cart} :
    tree? c (single header leaf) = some t ↔ ∃ a,
      (StateAssembly.start c).addSingleLeaf 0 (trimBy isBlank leaf.toList) = .ok a ∧
        a.finish 0 = .ok t := by
  rw [tree?, toOption_eq_some_iff, bind_eq_ok_iff]

theorem tree?_braced_eq_some_iff {c : Context} {header opening closing : String}
    {body : List String} {t : Cart} :
    tree? c (braced header opening body closing) = some t ↔ ∃ a,
      ((filled body).map (·, 0)).foldlM StateAssembly.addNumbered (StateAssembly.start c) = .ok a ∧
        a.finish 0 = .ok t := by
  rw [tree?, toOption_eq_some_iff, bind_eq_ok_iff]

end Segment

namespace Scan

variable {x x' : Scan} {g : Segment} {segments : List Segment} {state n : Nat} {t : Cart}

/-- The part is a block of a state, which leads to a tree. -/
def Yields (x : Scan) (g : Segment) (state : Nat) (t : Cart) : Prop :=
  g.state? x.options.numStates = some state ∧ g.tree? (x.context state) = some t

/-- The scan after one more part, if that is read: with the tree of the block stored. -/
def addSegment (x : Scan) (g : Segment) : Option Scan :=
  if g.isBlock then do
    let state ← g.state? x.options.numStates
    let t ← g.tree? (x.context state)
    return x.store state t
  else some x

theorem addSegment_of_not_isBlock (h : ¬ g.isBlock = true) : x.addSegment g = some x := by
  rw [addSegment, if_neg h]

theorem addSegment_eq_some_iff (h : g.isBlock = true) :
    x.addSegment g = some x' ↔ ∃ state t, x.Yields g state t ∧ x.store state t = x' := by
  rw [addSegment, if_pos h, Option.bind_eq_bind, Option.bind_eq_some_iff]
  constructor
  · rintro ⟨state, hstate, hrest⟩
    obtain ⟨t, ht, hx'⟩ := Option.bind_eq_some_iff.mp hrest
    exact ⟨state, t, ⟨hstate, ht⟩, Option.some_inj.mp hx'⟩
  · rintro ⟨state, t, ⟨hstate, ht⟩, rfl⟩
    exact ⟨state, hstate, Option.bind_eq_some_iff.mpr ⟨t, ht, rfl⟩⟩

/-- After the header of a block its tree is expected. -/
theorem addLine_header (hmode : x.mode = .between) {header : String}
    (hheader : Segment.isHeader header = true) :
    x.addLine (header, n) = .ok x' ↔ ∃ state,
      stateIndex 0 x.options.numStates header.toList = .ok state ∧
        { x with mode := .afterHeader n state } = x' := by
  rw [Scan.addLine.eq_def, hmode]
  dsimp only
  rw [← Segment.isHeader, if_pos hheader, bind_eq_ok_iff]
  constructor
  · rintro ⟨state, hstate, h⟩
    exact ⟨state, stateIndex_eq_ok hstate, Except.ok.inj h⟩
  · rintro ⟨state, hstate, rfl⟩
    exact ⟨state, stateIndex_eq_ok hstate, rfl⟩

/-- The line after a header is the name of a leaf. -/
theorem addLine_leaf {m : Nat} (hmode : x.mode = .afterHeader n state) (header : String)
    {leaf : String} (hleaf : leaf.toList.contains '\x7b' = false) :
    x.addLine (leaf, m) = .ok x' ↔ ∃ t,
      (Segment.single header leaf).tree? (x.context state) = some t ∧ x.store state t = x' := by
  rw [Scan.addLine.eq_def, hmode]
  dsimp only
  rw [if_neg (by rw [hleaf]; decide), bind_eq_ok_iff]
  simp only [bind_eq_ok_iff, Segment.tree?_single_eq_some_iff,
    StateAssembly.addSingleLeaf_renumber m 0, StateAssembly.finish_renumber m 0]
  constructor
  · rintro ⟨a, ha, t, ht, h⟩
    exact ⟨t, ⟨a, ha, ht⟩, Except.ok.inj h⟩
  · rintro ⟨t, ⟨a, ha, ht⟩, rfl⟩
    exact ⟨a, ha, t, ht, rfl⟩

/-- A block in braces is read to its tree. -/
theorem foldlM_lines_braced {header opening closing : String} {body : List String}
    (hmode : x.mode = .between)
    (hplaced : (Segment.braced header opening body closing).WellPlaced)
    (hstate : stateIndex 0 x.options.numStates header.toList = .ok state) :
    ((Segment.braced header opening body closing).lines.zipIdx n).foldlM Scan.addLine x = .ok x' ↔
      ∃ t, (Segment.braced header opening body closing).tree? (x.context state) = some t ∧
        x.store state t = x' := by
  have hfilled : ((body.zipIdx (n + 2)).filter fun line => !allBlank line.1).map Prod.fst =
      ((Segment.filled body).map (·, 0)).map Prod.fst := by
    rw [Segment.map_fst_filter_zipIdx, List.map_map, Function.comp_def, List.map_id']
  rw [foldlM_addLine_braced hmode hplaced hstate, bind_eq_ok_iff]
  simp only [bind_eq_ok_iff, Segment.tree?_braced_eq_some_iff,
    StateAssembly.foldlM_renumber hfilled, StateAssembly.finish_renumber (n + 2 + body.length) 0]
  constructor
  · rintro ⟨a, ha, t, ht, h⟩
    have hcontext := StateAssembly.context_of_foldlM ha
    rw [hcontext] at h
    exact ⟨t, ⟨a, ha, ht⟩, Except.ok.inj h⟩
  · rintro ⟨t, ⟨a, ha, ht⟩, rfl⟩
    have hcontext := StateAssembly.context_of_foldlM ha
    refine ⟨a, ha, t, ht, ?_⟩
    rw [hcontext]
    rfl

/-- The lines of a part are read as the part is taken up. -/
theorem foldlM_lines_eq_ok_iff (hmode : x.mode = .between) (hplaced : g.WellPlaced) (n : Nat) :
    (g.lines.zipIdx n).foldlM Scan.addLine x = .ok x' ↔ x.addSegment g = some x' := by
  cases g with
  | skipped line =>
    have hskip : x.addLine (line, n) = .ok x := by
      rw [Scan.addLine.eq_def, hmode]
      dsimp only
      rw [← Segment.isHeader, if_neg (by rw [hplaced]; decide)]
    rw [addSegment_of_not_isBlock (g := .skipped line) Bool.false_ne_true]
    show [(line, n)].foldlM Scan.addLine x = _ ↔ _
    rw [List.foldlM_cons, hskip]
    show Except.ok x = Except.ok x' ↔ some x = some x'
    rw [Except.ok.injEq, Option.some_inj]
  | single header leaf =>
    obtain ⟨hheader, hleaf⟩ := hplaced
    rw [addSegment_eq_some_iff rfl]
    show [(header, n), (leaf, n + 1)].foldlM Scan.addLine x = _ ↔ _
    rw [List.foldlM_cons, bind_eq_ok_iff]
    simp only [List.foldlM_cons, List.foldlM_nil, bind_pure, addLine_header hmode hheader, Yields,
      Segment.state?_eq_some_iff (g := .single header leaf) rfl]
    constructor
    · rintro ⟨_, ⟨state, hstate, rfl⟩, h⟩
      obtain ⟨t, ht, hx'⟩ := (addLine_leaf rfl header hleaf).mp h
      exact ⟨state, t, ⟨hstate, ht⟩, hx'⟩
    · rintro ⟨state, t, ⟨hstate, ht⟩, hx'⟩
      exact ⟨_, ⟨state, hstate, rfl⟩, (addLine_leaf rfl header hleaf).mpr ⟨t, ht, hx'⟩⟩
  | braced header opening body closing =>
    rw [addSegment_eq_some_iff rfl]
    simp only [Yields, Segment.state?_eq_some_iff (g := .braced header opening body closing) rfl]
    constructor
    · intro h
      -- the first line is the header
      have hfirst := h
      rw [Segment.lines, List.zipIdx_cons, List.foldlM_cons] at hfirst
      obtain ⟨_, hline, -⟩ := bind_eq_ok_iff.mp hfirst
      obtain ⟨state, hstate, -⟩ := (addLine_header hmode hplaced.1).mp hline
      obtain ⟨t, ht, hx'⟩ := (foldlM_lines_braced hmode hplaced hstate).mp h
      exact ⟨state, t, ⟨hstate, ht⟩, hx'⟩
    · rintro ⟨state, t, ⟨hstate, ht⟩, hx'⟩
      exact (foldlM_lines_braced hmode hplaced hstate).mpr ⟨t, ht, hx'⟩

/-! ### Several parts -/

/-- What a part that was taken up leaves as it was. -/
theorem addSegment_frame (hmode : x.mode = .between) (h : x.addSegment g = some x') :
    x'.mode = .between ∧ x'.schema = x.schema ∧ x'.options = x.options ∧ x'.tables = x.tables ∧
      x'.trees.size = x.trees.size := by
  by_cases hg : g.isBlock = true
  · obtain ⟨state, t, -, rfl⟩ := (addSegment_eq_some_iff hg).mp h
    exact ⟨rfl, rfl, rfl, rfl, Array.size_setIfInBounds ..⟩
  · rw [addSegment_of_not_isBlock hg] at h
    obtain rfl := Option.some_inj.mp h
    exact ⟨hmode, rfl, rfl, rfl, rfl⟩

theorem mode_of_addSegments (segments : List Segment) :
    ∀ {x : Scan}, x.mode = .between → segments.foldlM addSegment x = some x' →
      x'.mode = .between := by
  induction segments with
  | nil =>
    intro x hmode h
    obtain rfl : x = x' := Option.some_inj.mp h
    exact hmode
  | cons g segments ih =>
    intro x hmode h
    rw [List.foldlM_cons, Option.bind_eq_bind, Option.bind_eq_some_iff] at h
    obtain ⟨x₁, h₁, h⟩ := h
    exact ih (addSegment_frame hmode h₁).1 h

theorem foldlM_segments_eq_ok_iff (segments : List Segment) :
    ∀ {x : Scan} (n : Nat), x.mode = .between → (∀ g ∈ segments, g.WellPlaced) →
      (((segments.flatMap Segment.lines).zipIdx n).foldlM Scan.addLine x = .ok x' ↔
        segments.foldlM addSegment x = some x') := by
  induction segments with
  | nil =>
    intro x n _ _
    show Except.ok x = Except.ok x' ↔ some x = some x'
    rw [Except.ok.injEq, Option.some_inj]
  | cons g segments ih =>
    intro x n hmode hplaced
    rw [List.flatMap_cons, List.zipIdx_append, List.foldlM_append, List.foldlM_cons, bind_eq_ok_iff,
      Option.bind_eq_bind, Option.bind_eq_some_iff]
    simp only [foldlM_lines_eq_ok_iff hmode (hplaced g List.mem_cons_self)]
    refine exists_congr fun x₁ => and_congr_right fun h => ?_
    exact ih _ (addSegment_frame hmode h).1 fun g' hg' => hplaced g' (List.mem_cons_of_mem _ hg')

/-- What a block yields does not depend on the trees that were stored. -/
theorem yields_congr (hframe : x'.schema = x.schema ∧ x'.options = x.options ∧ x'.tables = x.tables)
    (g : Segment) (state : Nat) (t : Cart) : x'.Yields g state t ↔ x.Yields g state t := by
  obtain ⟨hschema, hoptions, htables⟩ := hframe
  rw [Yields, Yields, context, context, hschema, hoptions, htables]

theorem isBlock_of_yields (h : x.Yields g state t) : g.isBlock = true := by
  cases g with
  | skipped line => exact absurd h.1 (by simp [Segment.state?, Segment.header?])
  | single header leaf => rfl
  | braced header opening body closing => rfl

/-- Parts are read if every block among them yields a tree. -/
theorem exists_addSegments_iff (segments : List Segment) :
    ∀ {x : Scan}, x.mode = .between →
      ((∃ x', segments.foldlM addSegment x = some x') ↔
        ∀ g ∈ segments, g.isBlock = true → ∃ state t, x.Yields g state t) := by
  induction segments with
  | nil => exact fun _ => by simp
  | cons g segments ih =>
    intro x hmode
    -- a block that is stored changes nothing that the later ones refer to
    have hrest : ∀ x₁, x.addSegment g = some x₁ → ((∃ x', segments.foldlM addSegment x₁ = some x') ↔
        ∀ g ∈ segments, g.isBlock = true → ∃ state t, x.Yields g state t) := by
      intro x₁ h₁
      obtain ⟨hmode₁, hschema, hoptions, htables, -⟩ := addSegment_frame hmode h₁
      rw [ih hmode₁]
      simp only [yields_congr ⟨hschema, hoptions, htables⟩]
    rw [List.forall_mem_cons]
    simp only [List.foldlM_cons, Option.bind_eq_bind, Option.bind_eq_some_iff]
    constructor
    · rintro ⟨x', x₁, h₁, h⟩
      refine ⟨fun hg => ?_, (hrest x₁ h₁).mp ⟨x', h⟩⟩
      obtain ⟨state, t, hyields, -⟩ := (addSegment_eq_some_iff hg).mp h₁
      exact ⟨state, t, hyields⟩
    · rintro ⟨hg, h⟩
      obtain ⟨x₁, h₁⟩ : ∃ x₁, x.addSegment g = some x₁ := by
        by_cases hblock : g.isBlock = true
        · obtain ⟨state, t, hyields⟩ := hg hblock
          exact ⟨_, (addSegment_eq_some_iff hblock).mpr ⟨state, t, hyields, rfl⟩⟩
        · exact ⟨x, addSegment_of_not_isBlock hblock⟩
      obtain ⟨x', hx'⟩ := (hrest x₁ h₁).mpr h
      exact ⟨x', x₁, h₁, hx'⟩

/-- The trees that the blocks of different states leave: a block gives its state the tree
that it yields, and the other states keep what they had. -/
structure Stores (x : Scan) (segments : List Segment) (x' : Scan) : Prop where
  mode : x'.mode = .between
  schema : x'.schema = x.schema
  tables : x'.tables = x.tables
  size : x'.trees.size = x.trees.size
  block : ∀ g ∈ segments, ∀ state t, x.Yields g state t → x'.trees[state]? = some (some t)
  other : ∀ k, k ∉ segments.filterMap (Segment.state? x.options.numStates) →
    x'.trees[k]? = x.trees[k]?

theorem stores_of_addSegments (segments : List Segment) :
    ∀ {x : Scan}, x.mode = .between → x.trees.size = x.options.numStates →
      (segments.filterMap (Segment.state? x.options.numStates)).Nodup →
      segments.foldlM addSegment x = some x' → x.Stores segments x' := by
  induction segments with
  | nil =>
    intro x hmode _ _ h
    obtain rfl : x = x' := Option.some_inj.mp h
    exact ⟨hmode, rfl, rfl, rfl, by simp, fun _ _ => rfl⟩
  | cons g segments ih =>
    intro x hmode hsize hnodup h
    rw [List.foldlM_cons, Option.bind_eq_bind, Option.bind_eq_some_iff] at h
    obtain ⟨x₁, h₁, h⟩ := h
    obtain ⟨hmode₁, hschema, hoptions, htables, hsize₁⟩ := addSegment_frame hmode h₁
    have hyields := yields_congr ⟨hschema, hoptions, htables⟩
    by_cases hg : g.isBlock = true
    · obtain ⟨state, t, hstate, rfl⟩ := (addSegment_eq_some_iff hg).mp h₁
      rw [List.filterMap_cons_some hstate.1, List.nodup_cons] at hnodup
      have hlt : state < x.trees.size := by
        obtain ⟨header, hheader⟩ := Option.isSome_iff_exists.mp hg
        rw [hsize]
        exact stateIndex_lt ((Segment.state?_eq_some_iff hheader).mp hstate.1)
      have hrest := ih hmode₁ (hsize₁.trans hsize) hnodup.2 h
      refine ⟨hrest.mode, hrest.schema, hrest.tables, hrest.size.trans hsize₁, ?_, fun k hk => ?_⟩
      · rintro g' hg' state' t' hstate'
        rcases List.mem_cons.mp hg' with rfl | hg'
        · -- no later block has this state
          obtain rfl := Option.some_inj.mp (hstate.1.symm.trans hstate'.1)
          obtain rfl := Option.some_inj.mp (hstate.2.symm.trans hstate'.2)
          rw [hrest.other state hnodup.1, getElem?_store hlt, if_pos rfl]
        · exact hrest.block g' hg' state' t' ((hyields g' state' t').mpr hstate')
      · rw [List.filterMap_cons_some hstate.1, List.mem_cons, not_or] at hk
        rw [hrest.other k hk.2, getElem?_store hlt, if_neg (Ne.symm hk.1)]
    · rw [addSegment_of_not_isBlock hg] at h₁
      obtain rfl := Option.some_inj.mp h₁
      have hnone : g.state? x.options.numStates = none := by
        rw [Segment.isBlock, Option.not_isSome_iff_eq_none] at hg
        rw [Segment.state?, hg]
        rfl
      rw [List.filterMap_cons_none hnone] at hnodup
      have hrest := ih hmode hsize hnodup h
      refine ⟨hrest.mode, hrest.schema, hrest.tables, hrest.size, ?_, fun k hk => ?_⟩
      · rintro g' hg' state' t' hstate'
        rcases List.mem_cons.mp hg' with rfl | hg'
        · exact absurd (isBlock_of_yields hstate') hg
        · exact hrest.block g' hg' state' t' hstate'
      · rw [List.filterMap_cons_none hnone] at hk
        exact hrest.other k hk

end Scan

end FeatureTree.Hts
