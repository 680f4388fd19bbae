/-
Distributions are read back, but for a standard deviation of plus infinity.

A line that begins with a letter after its brackets holds a decision, unless it begins with
`nan`.  So a record that begins with `inf` is taken for a decision on a feature of that name,
which lacks an operator and a value.  Minus infinity begins with a sign, and the mean of a
distribution never comes first.

* `Wagon.isNodeLine_gaussian` — the record of a distribution is a line by itself;
* `Wagon.Assembly.addLeafClosing`, `Wagon.addLine_gaussian` — what is read from it;
* `Wagon.stddev_ne_infinity` — no text with an infinite deviation is accepted;
* `Wagon.gaussians_read_back_iff` — the lines of a regression tree.
-/
import FeatureTree.Proofs.Format.Wagon.LineOrder
import FeatureTree.Proofs.Format.Wagon.Packing

namespace FeatureTree

open Text

namespace Wagon

open Assembly

variable {g : Gaussian} {written : String} {s : Schema} {a : Assembly} {o : Options}
  {ls : List String}

/-! ### The line of a distribution -/

theorem legible_gaussian (h : g.stddev ≠ Floating.infinity false) :
    (Payload.gaussian g).Legible where
  weights := by
    intro w hw
    cases hw
  stddev := by
    intro g' hg
    obtain rfl := Payload.gaussian.inj hg
    exact h

theorem toList_gaussian (htext : leafText (.gaussian g) = .ok written) (n : Nat) :
    (written ++ closing n).toList = '(' :: '(' ::
      (g.stddev.renderLower.toList ++ ' ' :: bracketed 0 g.mean.renderLower.toList (n + 2)) :=
  (toList_leafText htext n).trans (record_gaussian g n)

theorem isNodeLine_gaussian (htext : leafText (.gaussian g) = .ok written) (n : Nat) :
    IsNodeLine (written ++ closing n) where
  opening := ⟨_, toList_gaussian htext n⟩
  closing := by
    have hkind : (Payload.gaussian g).kind = WagonKind.regression.leafKind := rfl
    rw [toList_leafText htext, getLast?_record hkind]
  inline := by
    rw [toList_leafText htext]
    exact lineFeed_not_mem_intercalate (isBracketed_gaussian g)

theorem renderLower_infinity : (Floating.infinity false : Single).renderLower = "inf" := by
  decide +kernel

/-- After the first word of a record there is one token and nothing else. -/
theorem parseDecision_infinity (line n : Nat) {mean : List Char} (hmean : IsToken mean) :
    parseDecision s line ("inf".toList ++ ' ' :: bracketed 0 mean (n + 2)) =
      .error (.invalidLine line .noOperand) := by
  have hsolid := solid_bracketed (k := 0) (n := n + 2) hmean
  have hname : splitOnce? isBlank ("inf".toList ++ ' ' :: bracketed 0 mean (n + 2)) =
      some ("inf".toList, bracketed 0 mean (n + 2)) :=
    splitOnce?_append (solid_of_all (by decide)) (by decide) _
  have hdrop : (bracketed 0 mean (n + 2)).dropWhile isBlank = bracketed 0 mean (n + 2) := by
    cases hcs : bracketed 0 mean (n + 2) with
    | nil => rfl
    | cons c cs =>
      rw [List.dropWhile_cons, if_neg]
      rw [hsolid c (hcs ▸ List.mem_cons_self)]
      decide
  rw [parseDecision]
  simp only [hname, hdrop, splitOnce?_eq_none hsolid]

/-- A record that begins with plus infinity is taken for a decision. -/
theorem addLine_infinity (hstddev : g.stddev = Floating.infinity false)
    (htext : leafText (.gaussian g) = .ok written) (a : Assembly) (n line : Nat) :
    a.addLine line (written ++ closing n) = .error (.invalidLine line .noOperand) := by
  have hbody := toList_gaussian htext n
  rw [hstddev, renderLower_infinity] at hbody
  have hdecision :
      isDecision ("inf".toList ++ ' ' :: bracketed 0 g.mean.renderLower.toList (n + 2)) = true := by
    show (isAlphabetic 'i' && true) = true
    decide +kernel
  rw [addLine_nodeLine (isNodeLine_gaussian htext n) hbody, if_pos hdecision, addDecisionLine_eq,
    parseDecision_infinity line n (isToken_renderLower g.mean)]
  rfl

/-- The state with one more leaf in its place, after which this many decisions are closed. -/
def Assembly.addLeafClosing (a : Assembly) (line : Nat) (p : Payload) (n : Nat) :
    Except FormatError Assembly := do
  let a₁ ← { a with lastLine := line }.put line (some (.leaf p))
  Assembly.close line a₁ (List.replicate n ')')

/-- Wherever the line of a distribution stands, it adds that leaf and closes decisions, unless
the standard deviation is plus infinity. -/
theorem addLine_gaussian (htext : leafText (.gaussian g) = .ok written) (ha : a.kind = .regression)
    (n line : Nat) :
    a.addLine line (written ++ closing n) =
      if g.stddev = Floating.infinity false then .error (.invalidLine line .noOperand)
      else a.addLeafClosing line (.gaussian g.canonical) n := by
  split
  · next h => exact addLine_infinity h htext a n line
  · next h => exact addLine_record rfl (legible_gaussian h) htext ha rfl line

/-! ### The lines of a text -/

theorem Assembly.Reads.exists_addLine {a' : Assembly} {ls : List (List Char)} {cs : List Char}
    (h : a.Reads ls a') (hcs : cs ∈ ls) :
    ∃ (a₀ a₁ : Assembly) (line : Nat) (text : String),
      trimBy isBlank text.toList = cs ∧ a₀.addLine line text = .ok a₁ := by
  obtain ⟨before, after, rfl⟩ := List.append_of_mem hcs
  obtain ⟨a₀, -, hafter⟩ := h.exists_of_append
  cases hafter with
  | cons hline _ => exact ⟨a₀, _, _, _, rfl, hline⟩

theorem nodeLine?_encode {l : String} (h : IsNodeLine l) :
    nodeLine? (Utf8.encode l) = some l.toList := by
  obtain ⟨body, hbody⟩ := h.opening
  rw [nodeLine?, Utf8.decode?_encode, Option.bind_some,
    if_neg (by simp [isSkipped_bracketed hbody]), trimBy_bracketed hbody h.closing]

theorem mem_nodeLines {l : String} (hl : l ∈ ls) (h : IsNodeLine l) :
    l.toList ∈ nodeLines (Utf8.encode (String.join (ls.map (· ++ "\n")))) := by
  refine List.mem_filterMap.mpr ⟨Utf8.encode l, ?_, nodeLine?_encode h⟩
  refine Utf8.mem_byteLines_encode hl h.inline ?_
  rw [h.closing]
  decide

/-- No text with an infinite deviation is accepted, whatever else it holds. -/
theorem stddev_ne_infinity {n : Nat} {t : Cart} (htext : leafText (.gaussian g) = .ok written)
    (hl : written ++ closing n ∈ ls)
    (h : ofText s o (Utf8.encode (String.join (ls.map (· ++ "\n")))) = .ok t) :
    g.stddev ≠ Floating.infinity false := by
  intro hstddev
  -- the line was read in some state or other, and it is refused in all
  obtain ⟨a, hassembled, -⟩ := ofText_eq_ok_iff.mp h
  obtain ⟨a₀, -, hreads⟩ := reads_of_assembled hassembled
  have hnode := isNodeLine_gaussian htext n
  obtain ⟨a₁, a₂, line, text, htrim, hline⟩ := hreads.exists_addLine (mem_nodeLines hl hnode)
  obtain ⟨body, hbody⟩ := hnode.opening
  have hsame : trimBy isBlank text.toList = trimBy isBlank (written ++ closing n).toList := by
    rw [htrim, trimBy_bracketed hbody hnode.closing]
  rw [addLine_congr hsame, addLine_infinity hstddev htext] at hline
  cases hline

/-! ### Regression trees -/

section

variable (t : Cart) (hleaves : ∀ u p, t.arena.content? u = some (.leaf p) → p.kind = .gaussian)
include hleaves

/-- A tree of distributions has lines, whatever numbers they hold. -/
theorem exists_lines_of_gaussian : ∃ ls, t.arena.outline.lines t.arena.schema 0 = .ok ls := by
  refine exists_lines_iff.mpr fun x hx => ?_
  cases Arena.isPart_of_mem hx with
  | empty => exact ⟨_, .empty 0⟩
  | @leaf u p hp =>
    have hkind : p.kind = WagonKind.regression.leafKind := hleaves u p hp
    obtain ⟨written, hwritten⟩ := exists_leafText hkind
    exact ⟨_, .leaf 0 hwritten⟩
  | branch => exact ⟨_, .branch _ _ _⟩
  | backOff _ _ hg => exact absurd hg (t.content?_ne_graph _ _)

variable {symbolFeature : Option String}
  (hsymbol : ∀ name, symbolFeature = some name → ∃ i, t.arena.schema.featureIndex? name = some i)
  (hdecisions : ∀ u d, t.arena.content? u = some (.decision d) → d.Legible t.arena.schema)
include hsymbol hdecisions

/-- Without infinite deviations the text is read back. -/
theorem exists_ofText_of_finite {root : NodeId} (hroot : t.arena.root = some root)
    (hls : t.arena.outline.lines t.arena.schema 0 = .ok ls)
    (hfinite : ∀ u g, t.arena.content? u = some (.leaf (.gaussian g)) →
      g.stddev ≠ Floating.infinity false) :
    ∃ t', ofText t.arena.schema { kind := .regression, symbolFeature }
        (Utf8.encode (String.join (ls.map (· ++ "\n")))) = .ok t' ∧
      t'.arena.outline = t.arena.outline.reread .regression
        (symbolFeature.bind t.arena.schema.featureIndex?) := by
  have hlegible : t.arena.outline.Legible t.arena.schema .regression := by
    refine legible_outline hroot (fun u p hp => ⟨hleaves u p hp, ?_⟩) hdecisions
    cases p with
    | gaussian g => exact legible_gaussian (hfinite u g hp)
    | _ => cases hleaves u _ hp
  have hne : t.arena.outline ≠ .empty := by
    intro h
    have hempty := t.isEmpty_iff.mpr h
    rw [Cart.isEmpty, hroot] at hempty
    cases hempty
  obtain ⟨t', hread, -, -, houtline, -⟩ := exists_ofText hlegible hne hls hsymbol
  exact ⟨t', hread, houtline⟩

/-- In the text of a regression tree every leaf has its line.  Wherever the line stands, it is
read as a leaf with the same distribution, up to which NaN it is, if the standard deviation is
not plus infinity, and refused as a decision otherwise.  So the text of a tree whose decisions
can be read back is accepted if no standard deviation is plus infinity, and then it is a tree
with the same distributions in the same places. -/
theorem gaussians_read_back_iff {o : Option WagonKind} (ho : o = none ∨ o = some .regression) :
    ∃ (ls : List String) (text : String), text = String.join (ls.map (· ++ "\n")) ∧
      toText t o = .ok text ∧
      (∀ u g, t.arena.content? u = some (.leaf (.gaussian g)) →
        ∃ written n, leafText (.gaussian g) = .ok written ∧ written ++ closing n ∈ ls ∧
          ∀ (a : Assembly) line, a.kind = .regression →
            a.addLine line (written ++ closing n) =
              if g.stddev = Floating.infinity false then .error (.invalidLine line .noOperand)
              else a.addLeafClosing line (.gaussian g.canonical) n) ∧
      ((∃ t', ofText t.arena.schema { kind := .regression, symbolFeature } (Utf8.encode text) =
          .ok t') ↔
        ∀ u g, t.arena.content? u = some (.leaf (.gaussian g)) →
          g.stddev ≠ Floating.infinity false) ∧
      ∀ t', ofText t.arena.schema { kind := .regression, symbolFeature } (Utf8.encode text) =
          .ok t' →
        t'.arena.outline = t.arena.outline.reread .regression
          (symbolFeature.bind t.arena.schema.featureIndex?) := by
  cases hroot : t.arena.root with
  | none =>
    -- a tree without nodes has neither leaves nor lines
    have hnone : ∀ u x, t.arena.content? u ≠ some x := by
      intro u x hx
      have hu := Arena.lt_size_of_content? hx
      rw [t.size_eq_zero hroot] at hu
      exact Nat.not_lt_zero u hu
    obtain ⟨t', hread, hroot'⟩ : ∃ t', ofText t.arena.schema { kind := .regression, symbolFeature }
        (Utf8.encode "") = .ok t' ∧ t'.arena.root = none := by
      obtain ⟨t', hread, -, hroot'⟩ := exists_ofText_empty hsymbol
      exact ⟨t', hread, hroot'⟩
    refine ⟨[], "", rfl, toText_eq_of_root_eq_none t ho hroot, fun u g hg => absurd hg (hnone u _),
      ⟨fun _ u g hg => absurd hg (hnone u _), fun _ => ⟨t', hread⟩⟩, fun t'' hread' => ?_⟩
    obtain rfl := Except.ok.inj (hread.symm.trans hread')
    rw [Arena.outline, Arena.outline, hroot, hroot', Arena.unfold_none, Arena.unfold_none,
      Outline.reread, if_pos rfl]
  | some root =>
    obtain ⟨ls, hls⟩ := exists_lines_of_gaussian t hleaves
    have haccepted : ∀ t', ofText t.arena.schema { kind := .regression, symbolFeature }
        (Utf8.encode (String.join (ls.map (· ++ "\n")))) = .ok t' →
        ∀ u g, t.arena.content? u = some (.leaf (.gaussian g)) →
          g.stddev ≠ Floating.infinity false := by
      intro t' ht' u g hg
      obtain ⟨written, n, hwritten, hl⟩ := leafLine_mem_lines hg hls
      exact stddev_ne_infinity hwritten hl ht'
    have hread := exists_ofText_of_finite t hleaves hsymbol hdecisions hroot hls
    refine ⟨ls, _, rfl, by rw [toText_eq t ho hleaves hroot, hls]; rfl, fun u g hg => ?_,
      ⟨?_, fun hfinite => ?_⟩, fun t' ht' => ?_⟩
    · obtain ⟨written, n, hwritten, hl⟩ := leafLine_mem_lines hg hls
      exact ⟨written, n, hwritten, hl, fun a line ha => addLine_gaussian hwritten ha n line⟩
    · rintro ⟨t', ht'⟩
      exact haccepted t' ht'
    · obtain ⟨t', ht', -⟩ := hread hfinite
      exact ⟨t', ht'⟩
    · obtain ⟨t'', ht'', houtline⟩ := hread (haccepted t' ht')
      obtain rfl := Except.ok.inj (ht'.symm.trans ht'')
      exact houtline

end

end Wagon

/-- A tree of distributions with a NaN and infinities that do not stand in the way. -/
def Sample.extremeTree : Except GraphError Cart := do
  let b := (Builder.empty Sample.schema).addDecision (.byteEquals 0 1) |>.1
  let b := addLeaves b [.gaussian ⟨Floating.nan, Floating.infinity false⟩,
    .gaussian ⟨Floating.infinity true, Floating.zero⟩]
  Cart.ofBuilder? (← wire (b.setRoot 0) [(0, some 1), (0, some 2)])

/-- A tree that is one leaf, whose standard deviation is plus infinity. -/
def Sample.infiniteTree : Except GraphError Cart :=
  let b := (Builder.empty Sample.schema).addLeaf
    (.gaussian ⟨Floating.infinity false, Floating.ofInt 1⟩)
  Cart.ofBuilder? (b.1.setRoot 0)

namespace Wagon

theorem gaussians_read_back_iff_extremeTree :
    ∃ t text t', Sample.extremeTree = .ok t ∧ toText t none = .ok text ∧
      text = "((phone is a)\n((nan inf))\n((-inf 0)))\n" ∧
      ofText t.arena.schema { kind := .regression } (Utf8.encode text) = .ok t' ∧
      t'.arena.outline = t.arena.outline.reread .regression none := by
  have hsample : (Sample.extremeTree.toOption.any fun t =>
      t.arena.schema.features.toList == Sample.features &&
        (toText t none).toOption == some "((phone is a)\n((nan inf))\n((-inf 0)))\n" &&
        t.arena.nodes.toList.map Node.content ==
          [.decision ⟨0, .byteEquals 1, #[some 1, some 2]⟩,
            .leaf (.gaussian ⟨Floating.nan, Floating.infinity false⟩),
            .leaf (.gaussian ⟨Floating.infinity true, Floating.zero⟩)]) = true := by
    decide +kernel
  cases ht : Sample.extremeTree with
  | error e => simp [ht, Except.toOption] at hsample
  | ok t =>
    simp only [ht, Except.toOption, Option.any_some, Bool.and_eq_true, beq_iff_eq] at hsample
    obtain ⟨⟨hfeatures, htext⟩, hcontents⟩ := hsample
    have hget : ∀ i, t.arena.schema.get? i = Sample.features[i]? := by
      intro i
      rw [Schema.get?, ← Array.getElem?_toList, hfeatures]
    have hcontent : ∀ {u x}, t.arena.content? u = some x →
        x = .decision ⟨0, .byteEquals 1, #[some 1, some 2]⟩ ∨
          x = .leaf (.gaussian ⟨Floating.nan, Floating.infinity false⟩) ∨
          x = .leaf (.gaussian ⟨Floating.infinity true, Floating.zero⟩) := by
      intro u x hx
      obtain ⟨n, hn, rfl⟩ := Arena.content?_eq_some_iff.mp hx
      obtain ⟨hu, rfl⟩ := Arena.node?_eq_some_iff.mp hn
      have hmem := List.mem_map_of_mem (f := Node.content) (Array.getElem_mem_toList hu)
      rw [hcontents] at hmem
      simpa using hmem
    have hleaves : ∀ u p, t.arena.content? u = some (.leaf p) → p.kind = .gaussian := by
      intro u p hp
      rcases hcontent hp with h | h | h
      · cases h
      · rw [NodeContent.leaf.inj h]
        rfl
      · rw [NodeContent.leaf.inj h]
        rfl
    have hdecisions : ∀ u d, t.arena.content? u = some (.decision d) →
        d.Legible t.arena.schema := by
      intro u d hd
      rcases hcontent hd with h | h | h
      · rw [NodeContent.decision.inj h]
        exact legible_sample hget (by decide) (.inl ⟨rfl, rfl⟩)
      · cases h
      · cases h
    have hfinite : ∀ u g, t.arena.content? u = some (.leaf (.gaussian g)) →
        g.stddev ≠ Floating.infinity false := by
      intro u g hg
      rcases hcontent hg with h | h | h
      · cases h
      · rw [Payload.gaussian.inj (NodeContent.leaf.inj h)]
        decide +kernel
      · rw [Payload.gaussian.inj (NodeContent.leaf.inj h)]
        decide +kernel
    have hsymbol : ∀ name, (none : Option String) = some name →
        ∃ i, t.arena.schema.featureIndex? name = some i := by
      intro name hname
      cases hname
    obtain ⟨ls, text, -, hwritten, -, hiff, hread⟩ :=
      gaussians_read_back_iff t hleaves hsymbol hdecisions (.inl rfl)
    obtain ⟨t', ht'⟩ := hiff.mpr hfinite
    rw [hwritten] at htext
    exact ⟨t, text, t', rfl, hwritten, Option.some_inj.mp htext, ht', hread t' ht'⟩

/-- The line of the leaf is refused because it has no value. -/
theorem not_read_back_infiniteTree :
    ∃ t, Sample.infiniteTree = .ok t ∧
      t.arena.content? 0 =
        some (.leaf (.gaussian ⟨Floating.infinity false, Floating.ofInt 1⟩)) ∧
      toText t (some .regression) = .ok "((inf 1))\n" ∧
      ofText t.arena.schema { kind := .regression } (Utf8.encode "((inf 1))\n") =
        .error (.invalidLine 1 .noOperand) := by
  have hsample : (Sample.infiniteTree.toOption.any fun t =>
      t.arena.content? 0 ==
          some (.leaf (.gaussian ⟨Floating.infinity false, Floating.ofInt 1⟩)) &&
        (toText t (some .regression)).toOption == some "((inf 1))\n" &&
        match ofText t.arena.schema { kind := .regression } (Utf8.encode "((inf 1))\n") with
        | .error e => e == .invalidLine 1 .noOperand
        | .ok _ => false) = true := by
    decide +kernel
  cases ht : Sample.infiniteTree with
  | error e => simp [ht, Except.toOption] at hsample
  | ok t =>
    simp only [ht, Except.toOption, Option.any_some, Bool.and_eq_true, beq_iff_eq] at hsample
    obtain ⟨⟨hleaf, htext⟩, hread⟩ := hsample
    refine ⟨t, rfl, hleaf, toOption_eq_some_iff.mp htext, ?_⟩
    split at hread
    · next e he => rw [he, beq_iff_eq.mp hread]
    · cases hread

end Wagon

end FeatureTree
