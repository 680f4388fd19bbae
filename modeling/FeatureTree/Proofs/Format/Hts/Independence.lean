/-
The blocks of a file do not depend on each other.

A file has questions and then blocks, with other lines between them.  If the blocks belong
to different states, each gives its state the tree that it gives in a file of its own, and
the order of the blocks does not matter.

* `Hts.exists_bytes_of_texts`, `Hts.not_mem_of_texts` — lines that can stand in a file;
* `Hts.Consists`, `Hts.Places` — the parts of a file, and its blocks;
* `Hts.ofText_eq_ok_iff` — a file is read by taking up its blocks;
* `Hts.Collects`, `Hts.ofText_eq_ok_iff_collects` — the trees of blocks of different states;
* `Hts.blocks_independent` — each block by itself, and the blocks in another order.
-/
import FeatureTree.Proofs.Format.Hts.Segments
import FeatureTree.Proofs.Text.Lines

namespace FeatureTree.Hts

open Text

/-! ### Lines that can stand in a file -/

theorem decodeLine_eq_ok_iff {bytes : List UInt8} {text : String} :
    decodeLine bytes = .ok text ↔ Utf8.decode? bytes = some text := by
  rw [decodeLine]
  cases Utf8.decode? bytes <;> simp

/-- The lines of a file hold no line feed. -/
theorem not_mem_of_texts {bytes : List UInt8} {texts : List String}
    (h : (byteLines bytes).mapM decodeLine = .ok texts) : ∀ text ∈ texts, '\n' ∉ text.toList := by
  intro text htext hmem
  obtain ⟨line, hline, hdecode⟩ := exists_mem_of_mem_mapM h htext
  have hbyte := Utf8.mem_encode_of_ascii (by decide) hmem
  rw [Utf8.encode_of_decode? (decodeLine_eq_ok_iff.mp hdecode)] at hbyte
  exact not_mem_of_mem_cutLines hline hbyte

/-- Lines that hold no line feed are the lines of a file. -/
theorem exists_bytes_of_texts {texts : List String} (h : ∀ text ∈ texts, '\n' ∉ text.toList) :
    ∃ bytes, (byteLines bytes).mapM decodeLine = .ok texts := by
  refine ⟨_, (congrArg (List.mapM decodeLine) (Utf8.byteLines_encode_returns h)).trans ?_⟩
  rw [List.mapM_map]
  have hdecode : ∀ text ∈ texts, (decodeLine ∘ Utf8.encode) text = .ok (id text) := fun text _ =>
    decodeLine_eq_ok_iff.mpr (Utf8.decode?_encode text)
  rw [mapM_eq_ok_map hdecode, List.map_id]

/-! ### The parts of a file -/

/-- A file consists of questions and of parts that follow: blocks, none of which begins
like a question, and lines between them that are not headers. -/
structure Consists (bytes : List UInt8) (questions : List String) (segments : List Segment) :
    Prop where
  texts : (byteLines bytes).mapM decodeLine = .ok (questions ++ segments.flatMap Segment.lines)
  questions : ∀ line ∈ questions, isQuestion line = true
  placed : ∀ g ∈ segments, g.WellPlaced
  headers : ∀ g ∈ segments, ∀ header, g.header? = some header → isQuestion header = false

/-- Lines between the blocks that look like questions are left out if they come first. -/
theorem exists_dropWhile_flatMap {segments : List Segment}
    (h : ∀ g ∈ segments, ∀ header, g.header? = some header → isQuestion header = false) :
    ∃ front back, segments = front ++ back ∧ (∀ g ∈ front, g.isBlock = false) ∧
      (segments.flatMap Segment.lines).dropWhile isQuestion = back.flatMap Segment.lines := by
  induction segments with
  | nil => exact ⟨[], [], rfl, by simp, rfl⟩
  | cons g segments ih =>
    have hstop : ∀ {line rest}, g.lines = line :: rest → isQuestion line = false →
        ((g :: segments).flatMap Segment.lines).dropWhile isQuestion =
          (g :: segments).flatMap Segment.lines := by
      intro line rest hlines hline
      rw [List.flatMap_cons, hlines, List.cons_append,
        List.dropWhile_cons_of_neg (by rw [hline]; decide)]
    cases g with
    | skipped line =>
      by_cases hline : isQuestion line = true
      · obtain ⟨front, back, rfl, hfront, hback⟩ :=
          ih fun g hg => h g (List.mem_cons_of_mem _ hg)
        refine ⟨.skipped line :: front, back, rfl, ?_, ?_⟩
        · rw [List.forall_mem_cons]
          exact ⟨rfl, hfront⟩
        · rw [List.flatMap_cons, Segment.lines, List.singleton_append,
            List.dropWhile_cons_of_pos hline, hback]
      · exact ⟨[], _, rfl, by simp, hstop rfl ((Bool.not_eq_true _).mp hline)⟩
    | single header leaf =>
      exact ⟨[], _, rfl, by simp, hstop rfl (h _ List.mem_cons_self header rfl)⟩
    | braced header opening body closing =>
      exact ⟨[], _, rfl, by simp, hstop rfl (h _ List.mem_cons_self header rfl)⟩

theorem exists_dropWhile_zipIdx (texts : List String) (n : Nat) :
    ∃ m, (texts.zipIdx n).dropWhile (fun l => isQuestion l.1) =
      (texts.dropWhile isQuestion).zipIdx m := by
  induction texts generalizing n with
  | nil => exact ⟨0, rfl⟩
  | cons text texts ih =>
    rw [List.zipIdx_cons, List.dropWhile_cons, List.dropWhile_cons]
    by_cases htext : isQuestion text = true
    · rw [if_pos htext, if_pos htext]
      exact ih (n + 1)
    · rw [if_neg htext, if_neg htext]
      exact ⟨n, List.zipIdx_cons.symm⟩

/-- The blocks among the parts of a file. -/
def blocksOf (segments : List Segment) : List Segment := segments.filter Segment.isBlock

theorem blocksOf_append_of_not_isBlock {front back : List Segment}
    (h : ∀ g ∈ front, g.isBlock = false) : blocksOf (front ++ back) = blocksOf back := by
  rw [blocksOf, List.filter_append, List.filter_eq_nil_iff.mpr fun g hg => by simp [h g hg],
    List.nil_append, blocksOf]

namespace Scan

/-- Only the blocks among the parts of a file count. -/
theorem foldlM_blocksOf (segments : List Segment) (x : Scan) :
    segments.foldlM addSegment x = (blocksOf segments).foldlM addSegment x := by
  induction segments generalizing x with
  | nil => rfl
  | cons g segments ih =>
    by_cases hg : g.isBlock = true
    · rw [blocksOf, List.filter_cons_of_pos hg, List.foldlM_cons, List.foldlM_cons, ← blocksOf]
      exact congrArg _ (funext ih)
    · rw [blocksOf, List.filter_cons_of_neg hg, ← blocksOf, List.foldlM_cons,
        addSegment_of_not_isBlock hg]
      exact ih x

/-- A scan before the first line of a file. -/
def initial (s : Schema) (o : Options) (tables : Option PdfTables) : Scan :=
  { schema := s, options := o, tables, trees := Array.replicate o.numStates none }

/-- The trees of all states, where a state without a block has no nodes. -/
def result (x : Scan) : StateTrees :=
  ⟨x.trees.toList.map fun t => t.getD (Cart.empty x.schema), x.tables.map (·.vectorSize)⟩

end Scan

/-- A file that consists of questions, of blocks and of other lines between them. -/
def Places (bytes : List UInt8) (blocks : List Segment) : Prop :=
  ∃ questions segments, Consists bytes questions segments ∧ blocksOf segments = blocks

variable {s : Schema} {o : Options} {tables : Option PdfTables} {bytes : List UInt8}
  {blocks : List Segment} {r : StateTrees}

/-- A file is read by taking up its blocks. -/
theorem ofText_eq_ok_iff (h : Places bytes blocks) :
    ofText s o tables bytes = .ok r ↔ o.numStates ≠ 0 ∧ ∃ x,
      blocks.foldlM Scan.addSegment (Scan.initial s o tables) = some x ∧ x.result = r := by
  obtain ⟨questions, segments, h, rfl⟩ := h
  -- lines that look like questions go with the questions; there is no block among them
  obtain ⟨front, back, rfl, hfront, hback⟩ := exists_dropWhile_flatMap h.headers
  obtain ⟨m, hm⟩ := exists_dropWhile_zipIdx (questions ++ (front ++ back).flatMap Segment.lines) 1
  rw [List.dropWhile_append_of_pos h.questions, hback] at hm
  have hplaced : ∀ g ∈ back, g.WellPlaced := fun g hg => h.placed g (List.mem_append_right _ hg)
  have hrun : ∀ {x}, (((questions ++ (front ++ back).flatMap Segment.lines).zipIdx 1).dropWhile
      fun l => isQuestion l.1).foldlM Scan.addLine (Scan.initial s o tables) = .ok x ↔
      (blocksOf (front ++ back)).foldlM Scan.addSegment (Scan.initial s o tables) = some x := by
    intro x
    rw [hm, blocksOf_append_of_not_isBlock hfront, ← Scan.foldlM_blocksOf]
    exact Scan.foldlM_segments_eq_ok_iff back m rfl hplaced
  rw [ofText]
  by_cases hzero : o.numStates = 0
  · simp [hzero]
  · rw [if_neg hzero, h.texts]
    show (_ >>= fun x : Scan => x.finish _) = Except.ok r ↔ _
    rw [bind_eq_ok_iff]
    simp only [ne_eq, hzero, not_false_eq_true, true_and]
    refine exists_congr fun x => ?_
    rw [← Scan.initial, hrun]
    refine and_congr_right fun hx => ?_
    -- after the last block the scan stands between two blocks
    have hmode : x.mode = .between := Scan.mode_of_addSegments _ rfl hx
    rw [Scan.finish, hmode]
    show Except.ok x.result = Except.ok r ↔ _
    rw [Except.ok.injEq]

/-! ### Blocks in any order -/

/-- The states of the blocks. -/
def statesOf (numStates : Nat) (blocks : List Segment) : List Nat :=
  blocks.filterMap (Segment.state? numStates)

/-- The trees of all states are those that the blocks yield, each by itself. -/
structure Collects (s : Schema) (o : Options) (tables : Option PdfTables) (blocks : List Segment)
    (r : StateTrees) : Prop where
  length : r.trees.length = o.numStates
  vectorSize : r.vectorSize = tables.map (·.vectorSize)
  block : ∀ g ∈ blocks, ∃ state t,
    (Scan.initial s o tables).Yields g state t ∧ r.trees[state]? = some t
  other : ∀ k < o.numStates, k ∉ statesOf o.numStates blocks →
    r.trees[k]? = some (Cart.empty s)

theorem Collects.of_perm {blocks' : List Segment} (h : Collects s o tables blocks r)
    (hperm : blocks'.Perm blocks) : Collects s o tables blocks' r where
  length := h.length
  vectorSize := h.vectorSize
  block := fun g hg => h.block g (hperm.mem_iff.mp hg)
  other := fun k hk hmem =>
    h.other k hk fun hmem' => hmem ((hperm.filterMap _).mem_iff.mpr hmem')

/-- The trees are determined by the blocks. -/
theorem Collects.unique {r' : StateTrees} (h : Collects s o tables blocks r)
    (h' : Collects s o tables blocks r') : r = r' := by
  have htrees : r.trees = r'.trees := by
    refine List.ext_getElem? fun k => ?_
    by_cases hk : k < o.numStates
    · by_cases hmem : k ∈ statesOf o.numStates blocks
      · -- both have the tree that the block of this state yields
        obtain ⟨g, hg, hstate⟩ := List.mem_filterMap.mp hmem
        obtain ⟨state, t, hyields, htree⟩ := h.block g hg
        obtain ⟨state', t', hyields', htree'⟩ := h'.block g hg
        obtain rfl := Option.some_inj.mp (hyields.1.symm.trans hstate)
        obtain rfl := Option.some_inj.mp (hyields.1.symm.trans hyields'.1)
        obtain rfl := Option.some_inj.mp (hyields.2.symm.trans hyields'.2)
        exact htree.trans htree'.symm
      · exact (h.other k hk hmem).trans (h'.other k hk hmem).symm
    · rw [List.getElem?_eq_none (by rw [h.length]; omega),
        List.getElem?_eq_none (by rw [h'.length]; omega)]
  cases r
  cases r'
  rw [StateTrees.mk.injEq]
  exact ⟨htrees, h.vectorSize.trans h'.vectorSize.symm⟩

/-- What blocks of different states leave is what each of them yields. -/
theorem Scan.Stores.collects {x : Scan} (hblocks : ∀ g ∈ blocks, g.isBlock = true)
    (h : (Scan.initial s o tables).Stores blocks x)
    (hyields : ∀ g ∈ blocks, g.isBlock = true → ∃ state t,
      (Scan.initial s o tables).Yields g state t) :
    Collects s o tables blocks x.result where
  length := by rw [Scan.result, List.length_map, Array.length_toList, h.size]; simp [Scan.initial]
  vectorSize := by rw [Scan.result, h.tables]; rfl
  block := fun g hg => by
    obtain ⟨state, t, hyield⟩ := hyields g hg (hblocks g hg)
    refine ⟨state, t, hyield, ?_⟩
    rw [Scan.result, List.getElem?_map, Array.getElem?_toList, h.block g hg state t hyield]
    rfl
  other := fun k hk hmem => by
    rw [Scan.result, List.getElem?_map, Array.getElem?_toList, h.other k hmem, h.schema,
      Scan.initial, Array.getElem?_replicate, if_pos hk]
    rfl

theorem isBlock_of_places (h : Places bytes blocks) : ∀ g ∈ blocks, g.isBlock = true := by
  obtain ⟨_, segments, -, rfl⟩ := h
  exact fun g hg => (List.mem_filter.mp hg).2

/-- The trees of a file with blocks of different states. -/
theorem ofText_eq_ok_iff_collects (hfile : Places bytes blocks)
    (hstates : (statesOf o.numStates blocks).Nodup) :
    ofText s o tables bytes = .ok r ↔ o.numStates ≠ 0 ∧ Collects s o tables blocks r := by
  rw [ofText_eq_ok_iff hfile]
  refine and_congr_right fun _ => ?_
  have hblocks := isBlock_of_places hfile
  have hyields := Scan.exists_addSegments_iff blocks (x := Scan.initial s o tables) rfl
  have hcollects : ∀ {x}, blocks.foldlM Scan.addSegment (Scan.initial s o tables) = some x →
      Collects s o tables blocks x.result := by
    intro x hx
    have hstores : (Scan.initial s o tables).Stores blocks x :=
      Scan.stores_of_addSegments blocks rfl (by simp [Scan.initial]) hstates hx
    exact hstores.collects hblocks (hyields.mp ⟨x, hx⟩)
  constructor
  · rintro ⟨x, hx, rfl⟩
    exact hcollects hx
  · intro h
    -- the blocks can be read, and what they leave is determined by them
    obtain ⟨x, hx⟩ := hyields.mpr fun g hg _ =>
      let ⟨state, t, hyield, _⟩ := h.block g hg
      ⟨state, t, hyield⟩
    exact ⟨x, hx, (hcollects hx).unique h⟩

/-- One block gives its state a tree, and no other state. -/
theorem Collects.single {g : Segment} {state : Nat} {t : Cart} (hlt : state < o.numStates)
    (h : (Scan.initial s o tables).Yields g state t) :
    Collects s o tables [g]
      ⟨(List.replicate o.numStates (Cart.empty s)).set state t, tables.map (·.vectorSize)⟩ where
  length := by simp
  vectorSize := rfl
  block := fun g' hg' => by
    obtain rfl := List.mem_singleton.mp hg'
    exact ⟨state, t, h, by simp [hlt]⟩
  other := fun k hk hmem => by
    have hne : state ≠ k := by
      rintro rfl
      exact hmem (List.mem_filterMap.mpr ⟨g, List.mem_singleton_self g, h.1⟩)
    rw [List.getElem?_set_ne hne, List.getElem?_replicate, if_pos hk]

/-- Blocks of a file can stand in a file in any order, and each by itself. -/
theorem exists_places {blocks' : List Segment} (h : Places bytes blocks)
    (hsubset : blocks' ⊆ blocks) : ∃ bytes', Places bytes' blocks' := by
  have hblocks := isBlock_of_places h
  obtain ⟨questions, segments, h, rfl⟩ := h
  have hmem : ∀ g ∈ blocks', g ∈ segments := fun g hg => (List.mem_filter.mp (hsubset hg)).1
  have htexts := not_mem_of_texts h.texts
  have htexts' : ∀ text ∈ blocks'.flatMap Segment.lines, '\n' ∉ text.toList := by
    intro text htext
    obtain ⟨g, hg, htext⟩ := List.mem_flatMap.mp htext
    exact htexts text (List.mem_append_right _ (List.mem_flatMap.mpr ⟨g, hmem g hg, htext⟩))
  obtain ⟨bytes', hbytes'⟩ := exists_bytes_of_texts htexts'
  refine ⟨bytes', [], blocks', ⟨hbytes', by simp, fun g hg => h.placed g (hmem g hg),
    fun g hg => h.headers g (hmem g hg)⟩, List.filter_eq_self.mpr fun g hg => ?_⟩
  exact hblocks g (hsubset hg)

/-- Blocks of different states do not depend on each other: in a file that is accepted,
each gives its state the tree that it gives in a file of its own, the other states have no
nodes, and any file with the blocks in another order has the same trees. -/
theorem blocks_independent (hfile : Places bytes blocks)
    (hstates : (statesOf o.numStates blocks).Nodup) (h : ofText s o tables bytes = .ok r) :
    r.trees.length = o.numStates ∧
    (∀ g ∈ blocks, ∃ state t, g.state? o.numStates = some state ∧ r.trees[state]? = some t ∧
      (∃ alone, Places alone [g]) ∧ ∀ alone, Places alone [g] →
        ofText s o tables alone = .ok
          ⟨(List.replicate o.numStates (Cart.empty s)).set state t, r.vectorSize⟩) ∧
    (∀ k < o.numStates, k ∉ statesOf o.numStates blocks → r.trees[k]? = some (Cart.empty s)) ∧
    ∀ blocks', blocks'.Perm blocks → (∃ bytes', Places bytes' blocks') ∧
      ∀ bytes', Places bytes' blocks' → ofText s o tables bytes' = .ok r := by
  obtain ⟨hzero, hcollects⟩ := (ofText_eq_ok_iff_collects hfile hstates).mp h
  refine ⟨hcollects.length, fun g hg => ?_, hcollects.other, fun blocks' hperm => ?_⟩
  · obtain ⟨state, t, hyields, htree⟩ := hcollects.block g hg
    refine ⟨state, t, hyields.1, htree, exists_places hfile (List.cons_subset.mpr ⟨hg, by simp⟩),
      fun alone halone => ?_⟩
    have hlt : state < o.numStates := by
      rw [← hcollects.length]
      exact (List.getElem?_eq_some_iff.mp htree).1
    have hone : (statesOf o.numStates [g]).Nodup :=
      hstates.sublist ((List.singleton_sublist.mpr hg).filterMap _)
    rw [hcollects.vectorSize]
    exact (ofText_eq_ok_iff_collects halone hone).mpr ⟨hzero, .single hlt hyields⟩
  · refine ⟨exists_places hfile hperm.subset, fun bytes' hfile' => ?_⟩
    have hstates' : (statesOf o.numStates blocks').Nodup :=
      ((hperm.filterMap _).nodup_iff).mpr hstates
    exact (ofText_eq_ok_iff_collects hfile' hstates').mpr ⟨hzero, hcollects.of_perm hperm⟩

/-- Lines with a line feed after each of them. -/
def joined (lines : List String) : List UInt8 := Utf8.encode (String.join (lines.map (· ++ "\n")))

/-- A block in braces for the second state. -/
def sampleTree : Segment := .braced "\x7b*\x7d[3]" "\x7b" sampleBody "\x7d"

/-- A block for the first state, which is a leaf. -/
def sampleLeaf : Segment := .single "\x7b*\x7d[2]" "\"x_7\""

/-- The two blocks in the order of their states, after a question. -/
def sampleFile : List UInt8 := joined ("QS" :: (sampleLeaf.lines ++ "" :: sampleTree.lines))

/-- The two blocks the other way round. -/
def turnedFile : List UInt8 := joined (sampleTree.lines ++ "QS" :: sampleLeaf.lines)

/-- The blocks of the first two of three states are read the same in both orders. -/
theorem blocks_independent_sample :
    ∃ r, ofText Sample.schema ⟨3, .standard⟩ none sampleFile = .ok r ∧
      ofText Sample.schema ⟨3, .standard⟩ none turnedFile = .ok r ∧
      r.trees[2]? = some (Cart.empty Sample.schema) := by
  have haccepted :
      (ofText Sample.schema ⟨3, .standard⟩ none sampleFile).toOption.isSome = true := by
    decide +kernel
  obtain ⟨r, hr⟩ := Option.isSome_iff_exists.mp haccepted
  rw [toOption_eq_some_iff] at hr
  have hfile : Places sampleFile [sampleLeaf, sampleTree] :=
    ⟨["QS"], [sampleLeaf, .skipped "", sampleTree], ⟨by decide +kernel, by decide +kernel,
      by decide +kernel, by decide +kernel⟩, rfl⟩
  have hturned : Places turnedFile [sampleTree, sampleLeaf] :=
    ⟨[], [sampleTree, .skipped "QS", sampleLeaf], ⟨by decide +kernel, by decide +kernel,
      by decide +kernel, by decide +kernel⟩, rfl⟩
  have hstates : (statesOf 3 [sampleLeaf, sampleTree]).Nodup := by decide +kernel
  obtain ⟨-, -, hother, horder⟩ :=
    blocks_independent (o := ⟨3, .standard⟩) hfile hstates hr
  exact ⟨r, hr, (horder _ (List.Perm.swap ..)).2 _ hturned,
    hother 2 (by decide) (by decide +kernel)⟩

end FeatureTree.Hts
