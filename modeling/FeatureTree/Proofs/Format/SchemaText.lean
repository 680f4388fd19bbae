/-
The text of a schema is read back.

What a line of the text says depends on the section it stands in, and on whether it is a
title, a comment or empty.  The line of a feature begins with the name, so a name that is one
word, no title and not the beginning of a comment keeps the line apart from all those; then
every line is read as it was written, in the section in which it was written.  The values of a
continuous feature mean nothing, but a line feed among them makes two lines of one.

* `SchemaText.Worded`, `SchemaText.Legible` — what a feature needs for that;
* `SchemaText.Legible.parseDefinition_eq` — its line says what it is;
* `SchemaText.gather_section`, `SchemaText.mapM_section` — the lines of a section are gathered
  in it and read;
* `SchemaText.map_trim_lines_render` — the lines of the text of a schema;
* `SchemaText.parse_render` — the schema that is read;
* `SchemaText.exists_parse_render` — the same, feature by feature;
* `SchemaText.feature_added_brokenLine` — the line of a continuous feature can be broken by its
  values.
-/
import FeatureTree.Format.SchemaText
import FeatureTree.Proofs.Schema.Names
import FeatureTree.Proofs.Stream.Reads
import FeatureTree.Proofs.Text.Lines
import FeatureTree.Proofs.Text.Search
import Mathlib.Data.List.DropRight

namespace FeatureTree

/-- What a text without weights keeps of a feature. -/
def FeatureMeta.unweighted (m : FeatureMeta) : FeatureMeta where
  name := m.name
  kind := m.kind
  values := if m.kind.isDiscrete then m.values else #[]

theorem Schema.refits_unweighted : Refits FeatureMeta.unweighted where
  name := fun _ => rfl
  kind := fun _ => rfl
  size := fun m h => by rw [FeatureMeta.unweighted, if_pos h]

namespace SchemaText

open Text

variable {m : FeatureMeta} {ms : List FeatureMeta} {kind : FeatureKind} {number : Nat}

/-! ### The line of a feature -/

/-- The lines that part the sections. -/
def titles : List String := [title .byte, title .short, title .continuous, similarityTitle]

/-- The name is a word that is no title and begins no comment, and the values of a discrete
feature are words. -/
structure Worded (m : FeatureMeta) : Prop where
  name_ne : m.name ≠ ""
  name_solid : ∀ c ∈ m.name.toList, isBlank c = false
  no_comment : m.name.toList.head? ≠ some '#'
  no_title : m.name ∉ titles
  values_solid : m.kind.isDiscrete = true → ∀ value ∈ m.values,
    value ≠ "" ∧ ∀ c ∈ value.toList, isBlank c = false

/-- Besides, the values of a continuous feature, should it have some, do not break its line. -/
structure Legible (m : FeatureMeta) : Prop extends Worded m where
  unbroken : m.kind = .continuous → ∀ value ∈ m.values, '\n' ∉ value.toList

-- characters are checked one after the other: there are too many to check them all
instance : DecidablePred Worded := fun m =>
  decidable_of_iff (m.name ≠ "" ∧ m.name.toList.all (!isBlank ·) = true ∧
      m.name.toList.head? ≠ some '#' ∧ m.name ∉ titles ∧
      (m.kind.isDiscrete = true → ∀ value ∈ m.values,
        value ≠ "" ∧ value.toList.all (!isBlank ·) = true)) <| by
    simp only [List.all_eq_true, Bool.not_eq_true']
    exact ⟨fun ⟨h₁, h₂, h₃, h₄, h₅⟩ => ⟨h₁, h₂, h₃, h₄, h₅⟩,
      fun h => ⟨h.name_ne, h.name_solid, h.no_comment, h.no_title, h.values_solid⟩⟩

instance : DecidablePred Legible := fun m =>
  decidable_of_iff (Worded m ∧ (m.kind = .continuous → ∀ value ∈ m.values, '\n' ∉ value.toList))
    ⟨fun ⟨h, hunbroken⟩ => ⟨h, hunbroken⟩, fun h => ⟨h.toWorded, h.unbroken⟩⟩

/-- The words of a feature with spaces between them. -/
def lineOf (m : FeatureMeta) : String := joinWith " " (m.name :: m.values.toList)

/-- The line of a feature as it is read. -/
def shown (m : FeatureMeta) : String := trim (lineOf m)

theorem toList_lineOf (m : FeatureMeta) :
    (lineOf m).toList = [' '].intercalate (m.name.toList :: m.values.toList.map String.toList) := by
  rw [lineOf, joinWith, String.toList_intercalate, List.map_cons]
  rfl

/-- The name stands in front, and nothing or a space comes after it. -/
theorem exists_tail (m : FeatureMeta) :
    ∃ tail, (lineOf m).toList = m.name.toList ++ tail ∧ ∀ c, tail.head? = some c → c = ' ' := by
  rw [toList_lineOf]
  cases m.values.toList.map String.toList with
  | nil => exact ⟨[], by rw [List.intercalate_singleton, List.append_nil], by simp⟩
  | cons w ws =>
    refine ⟨' ' :: [' '].intercalate (w :: ws), ?_, fun c hc => (Option.some.inj hc).symm⟩
    rw [List.intercalate_cons_cons, List.append_assoc, List.singleton_append]

namespace Legible

variable (h : Legible m)
include h

theorem toList_name_ne_nil : m.name.toList ≠ [] := mt String.toList_eq_nil_iff.mp h.name_ne

theorem newline_notMem : '\n' ∉ (lineOf m).toList := by
  have hblank : ∀ {cs : List Char}, (∀ c ∈ cs, isBlank c = false) → '\n' ∉ cs := fun hcs hmem =>
    absurd (hcs _ hmem) (by decide)
  rw [toList_lineOf]
  intro hmem
  rcases mem_intercalate hmem with hspace | ⟨w, hw, hmem⟩
  · exact absurd hspace (by decide)
  · rcases List.mem_cons.mp hw with rfl | hw
    · exact hblank h.name_solid hmem
    · obtain ⟨value, hvalue, rfl⟩ := List.mem_map.mp hw
      rw [Array.mem_toList_iff] at hvalue
      cases hd : m.kind.isDiscrete with
      | true => exact hblank (h.values_solid hd value hvalue).2 hmem
      | false => exact h.unbroken (FeatureKind.isDiscrete_eq_false_iff.mp hd) value hvalue hmem

/-- The name is not trimmed, and nothing or a blank comes after it. -/
theorem exists_tail_shown :
    ∃ tail, (shown m).toList = m.name.toList ++ tail ∧
      ∀ c, tail.head? = some c → isBlank c = true := by
  obtain ⟨tail, htail, hhead⟩ := exists_tail m
  refine ⟨trimEndBy isBlank tail, ?_, fun c hc => ?_⟩
  · rw [shown, trim, String.toList_ofList, htail,
      trimBy_append_of_none h.toList_name_ne_nil h.name_solid]
  · obtain ⟨rest, hrest⟩ : trimEndBy isBlank tail <+: tail := List.rdropWhile_prefix isBlank tail
    obtain ⟨cs, hcs⟩ := List.head?_eq_some_iff.mp hc
    have hc' : c = ' ' := hhead c (by rw [← hrest, hcs]; rfl)
    rw [hc']
    decide

theorem shown_notMem_titles : shown m ∉ titles := by
  intro hmem
  obtain ⟨tail, htail, hhead⟩ := h.exists_tail_shown
  cases tail with
  | nil =>
    rw [List.append_nil, String.toList_inj] at htail
    exact h.no_title (htail ▸ hmem)
  | cons c tail =>
    -- titles have no blanks
    have hsolid : (titles.all fun t => t.toList.all (!isBlank ·)) = true := by decide +kernel
    have hc : c ∈ (shown m).toList := by rw [htail]; simp
    have := hhead c rfl
    rw [solid_of_all (List.all_eq_true.mp hsolid _ hmem) c hc] at this
    cases this

theorem shown_ne_empty : shown m ≠ "" := by
  obtain ⟨tail, htail, -⟩ := h.exists_tail_shown
  intro hempty
  rw [hempty, String.toList_empty] at htail
  exact h.toList_name_ne_nil (List.append_eq_nil_iff.mp htail.symm).1

theorem isSkipped_shown : isSkipped (shown m) = false := by
  obtain ⟨tail, htail, -⟩ := h.exists_tail_shown
  obtain ⟨c, cs, hname⟩ := List.exists_cons_of_ne_nil h.toList_name_ne_nil
  have hhead : c ≠ '#' := by
    rintro rfl
    exact h.no_comment (by rw [hname]; rfl)
  have hempty : (shown m).isEmpty = false := by simpa using h.shown_ne_empty
  rw [isSkipped, hempty, htail, hname]
  simpa using hhead

/-- The first word of the line is the name. -/
theorem exists_words_lineOf : ∃ ws, words (lineOf m).toList = m.name.toList :: ws := by
  have hname := h.toList_name_ne_nil
  obtain ⟨tail, htail, hhead⟩ := exists_tail m
  rw [htail]
  cases tail with
  | nil => exact ⟨[], by rw [List.append_nil, words_solid hname h.name_solid]⟩
  | cons c tail =>
    obtain rfl := hhead c rfl
    exact ⟨words tail, words_solid_append_blank _ hname h.name_solid (by decide)⟩

/-- The other words of a discrete feature are the values. -/
theorem words_lineOf (hd : m.kind.isDiscrete = true) :
    words (lineOf m).toList = m.name.toList :: m.values.toList.map String.toList := by
  rw [toList_lineOf, words_intercalate]
  intro w hw
  rcases List.mem_cons.mp hw with rfl | hw
  · exact ⟨h.toList_name_ne_nil, h.name_solid⟩
  · obtain ⟨value, hvalue, rfl⟩ := List.mem_map.mp hw
    obtain ⟨hne, hsolid⟩ := h.values_solid hd value (Array.mem_toList_iff.mp hvalue)
    exact ⟨mt String.toList_eq_nil_iff.mp hne, hsolid⟩

/-- The line of a feature says what it is. -/
theorem parseDefinition_eq (number : Nat) :
    parseDefinition number m.kind (shown m).toList = .ok m.unweighted := by
  have hwords : words (shown m).toList = words (lineOf m).toList := by
    rw [shown, trim, String.toList_ofList, words_trimBy]
  have hback : (m.values.toList.map String.toList).map String.ofList = m.values.toList := by
    rw [List.map_map]
    exact List.map_id'' (fun _ => String.ofList_toList) _
  rw [parseDefinition, hwords, FeatureMeta.unweighted]
  cases hk : m.kind with
  | continuous =>
    obtain ⟨ws, hws⟩ := h.exists_words_lineOf
    rw [hws, List.map_cons, String.ofList_toList]
    rfl
  | byte =>
    rw [h.words_lineOf (by rw [hk]; rfl), List.map_cons, String.ofList_toList, hback]
    simp only [Array.toArray_toList]
    rfl
  | short =>
    rw [h.words_lineOf (by rw [hk]; rfl), List.map_cons, String.ofList_toList, hback]
    simp only [Array.toArray_toList]
    rfl

end Legible

/-! ### The lines of a section -/

/-- The line of a feature is gathered in its section, whichever it is. -/
theorem gather_feature (h : Legible m) (kind : FeatureKind) (number : Nat)
    (rest : List (Nat × String)) :
    gather kind ((number, shown m) :: rest) =
      ((kind, number, shown m) :: (gather kind rest).1, (gather kind rest).2) := by
  have hne : ∀ t ∈ titles, shown m ≠ t := fun t ht heq => h.shown_notMem_titles (heq ▸ ht)
  have hshort : ¬(kind = .byte ∧ shown m = title .short) := fun hc =>
    hne _ (by simp [titles]) hc.2
  have hcontinuous : ¬(kind = .short ∧ shown m = title .continuous) := fun hc =>
    hne _ (by simp [titles]) hc.2
  have hend : ¬(kind = .continuous ∧ (shown m = "" ∨ shown m = similarityTitle)) := by
    rintro ⟨-, hempty | hsimilarity⟩
    · exact h.shown_ne_empty hempty
    · exact hne _ (by simp [titles]) hsimilarity
  rw [gather, if_neg hshort, if_neg hcontinuous, if_neg hend, h.isSkipped_shown]
  rfl

/-- The lines of features up to the next title are gathered. -/
theorem gather_section (h : ∀ m ∈ ms, Legible m) (kind : FeatureKind) {ls : List (Nat × String)}
    (hls : ls.map (·.2) = ms.map shown) (rest : List (Nat × String)) :
    gather kind (ls ++ rest) =
      (ls.map (kind, ·) ++ (gather kind rest).1, (gather kind rest).2) := by
  induction ms generalizing ls with
  | nil =>
    obtain rfl : ls = [] := by simpa using hls
    rfl
  | cons m ms ih =>
    obtain ⟨⟨number, line⟩, rest', rfl, hline, hrest⟩ := List.map_eq_cons_iff.mp hls
    obtain rfl : line = shown m := hline
    rw [List.cons_append, gather_feature (h m List.mem_cons_self),
      ih (fun m hm => h m (List.mem_cons_of_mem _ hm)) hrest]
    rfl

/-- Each of them is read as its feature. -/
theorem mapM_section (h : ∀ m ∈ ms, Legible m) (hkind : ∀ m ∈ ms, m.kind = kind)
    {ls : List (Nat × String)} (hls : ls.map (·.2) = ms.map shown) :
    ((ls.map (kind, ·)).mapM fun l => parseLine false l.1 l.2.1 l.2.2) =
      .ok (ms.map FeatureMeta.unweighted) := by
  induction ms generalizing ls with
  | nil =>
    obtain rfl : ls = [] := by simpa using hls
    rfl
  | cons m ms ih =>
    obtain ⟨⟨number, line⟩, rest, rfl, hline, hrest⟩ := List.map_eq_cons_iff.mp hls
    obtain rfl : line = shown m := hline
    have hm : parseLine false kind number (shown m) = .ok m.unweighted := by
      rw [parseLine, if_neg Bool.false_ne_true, ← hkind m List.mem_cons_self,
        (h m List.mem_cons_self).parseDefinition_eq number]
    have hms := ih (fun m hm => h m (List.mem_cons_of_mem _ hm))
      (fun m hm => hkind m (List.mem_cons_of_mem _ hm)) hrest
    rw [List.map_cons, List.mapM_cons, hm, hms]
    rfl

/-! ### The lines of a schema -/

variable {s : Schema}

/-- The lines of a section, its title in front. -/
def sectionLines (s : Schema) (kind : FeatureKind) : List String :=
  title kind :: (Schema.ofKind kind s.features.toList).map lineOf

/-- The lines of the text. -/
def textLines (s : Schema) : List String :=
  sectionLines s .byte ++ sectionLines s .short ++ sectionLines s .continuous

theorem renderSection_eq (s : Schema) (kind : FeatureKind) :
    renderSection false s kind = String.join ((sectionLines s kind).map (· ++ "\n")) := by
  have hline : ∀ m, renderLine false m = lineOf m ++ "\n" := fun m => by
    rw [renderLine, if_neg Bool.false_ne_true, String.empty_append, lineOf]
  rw [renderSection, sectionLines, List.map_cons, List.map_map, String.join_cons]
  refine congrArg _ (congrArg _ (List.map_congr_left fun m _ => ?_))
  rw [hline, Function.comp]

theorem render_eq (s : Schema) : render s false = String.join ((textLines s).map (· ++ "\n")) := by
  rw [render, renderSection_eq, renderSection_eq, renderSection_eq, textLines, List.map_append,
    List.map_append, String.join_append, String.join_append]

theorem trim_title (kind : FeatureKind) : trim (title kind) = title kind := by
  cases kind <;> decide +kernel

theorem newline_notMem_textLines (h : ∀ m ∈ s.features, Legible m) :
    ∀ line ∈ textLines s, '\n' ∉ line.toList := by
  have htitle : ∀ kind, '\n' ∉ (title kind).toList := by
    intro kind
    cases kind <;> decide +kernel
  have hsection : ∀ kind, ∀ line ∈ sectionLines s kind, '\n' ∉ line.toList := by
    intro kind line hline
    rcases List.mem_cons.mp hline with rfl | hline
    · exact htitle kind
    · obtain ⟨m, hm, rfl⟩ := List.mem_map.mp hline
      exact (h m (Array.mem_toList_iff.mp (Schema.mem_ofKind_iff.mp hm).1)).newline_notMem
  intro line hline
  rw [textLines, List.mem_append, List.mem_append] at hline
  rcases hline with (hline | hline) | hline <;> exact hsection _ _ hline

/-- The text is its lines, and blanks around them do not count. -/
theorem map_trim_lines_render (h : ∀ m ∈ s.features, Legible m) :
    (lines (render s false)).map trim = (textLines s).map trim := by
  have hcut : cutLines '\n' '\r' (((textLines s).map String.toList).flatMap (· ++ ['\n'])) =
      ((textLines s).map String.toList).map (dropReturn '\r') :=
    cutLines_flatMap_dropReturn fun cs hcs => by
      obtain ⟨line, hline, rfl⟩ := List.mem_map.mp hcs
      exact newline_notMem_textLines h line hline
  rw [render_eq, lines, Utf8.toList_join_lines, hcut, List.map_map, List.map_map, List.map_map]
  refine List.map_congr_left fun line _ => ?_
  simp only [Function.comp, trim, String.toList_ofList, trimBy_dropReturn]

theorem map_trim_sectionLines (s : Schema) (kind : FeatureKind) :
    (sectionLines s kind).map trim =
      title kind :: (Schema.ofKind kind s.features.toList).map shown := by
  rw [sectionLines, List.map_cons, trim_title, List.map_map]
  rfl

/-! ### The schema that is read -/

/-- The features of a kind, without their weights. -/
def readFeatures (s : Schema) (kind : FeatureKind) : List FeatureMeta :=
  (Schema.ofKind kind s.features.toList).map FeatureMeta.unweighted

/-- After the first title the lines of the three sections are gathered, each in its section, and
read. -/
theorem exists_gather (h : ∀ m ∈ s.features, Legible m) {ls : List (Nat × String)}
    (hls : ls.map (·.2) = (Schema.ofKind .byte s.features.toList).map shown ++ title .short ::
      ((Schema.ofKind .short s.features.toList).map shown ++ title .continuous ::
        (Schema.ofKind .continuous s.features.toList).map shown)) :
    ∃ described, gather .byte ls = (described, .continuous) ∧
      (described.mapM fun l => parseLine false l.1 l.2.1 l.2.2) =
        .ok (readFeatures s .byte ++ readFeatures s .short ++ readFeatures s .continuous) := by
  have hlegible : ∀ kind, ∀ m ∈ Schema.ofKind kind s.features.toList, Legible m :=
    fun kind m hm => h m (Array.mem_toList_iff.mp (Schema.mem_ofKind_iff.mp hm).1)
  have hread : ∀ kind {ls : List (Nat × String)},
      ls.map (·.2) = (Schema.ofKind kind s.features.toList).map shown →
      ((ls.map (kind, ·)).mapM fun l => parseLine false l.1 l.2.1 l.2.2) =
        .ok (readFeatures s kind) := fun kind ls hls =>
    mapM_section (hlegible kind) (fun m hm => (Schema.mem_ofKind_iff.mp hm).2) hls
  obtain ⟨bs, afterBytes, rfl, hbs, hbytes'⟩ := List.map_eq_append_iff.mp hls
  obtain ⟨⟨n, line⟩, shortLines, rfl, hline, hshorts'⟩ := List.map_eq_cons_iff.mp hbytes'
  obtain rfl : line = title .short := hline
  obtain ⟨ss, afterShorts, rfl, hss, hafter⟩ := List.map_eq_append_iff.mp hshorts'
  obtain ⟨⟨n', line⟩, cs, rfl, hline, hcs⟩ := List.map_eq_cons_iff.mp hafter
  obtain rfl : line = title .continuous := hline
  have hlast : gather .continuous cs = (cs.map (.continuous, ·), .continuous) := by
    have := gather_section (hlegible .continuous) .continuous hcs []
    rwa [List.append_nil, gather, List.append_nil] at this
  refine ⟨bs.map (.byte, ·) ++ (ss.map (.short, ·) ++ cs.map (.continuous, ·)), ?_, ?_⟩
  · rw [gather_section (hlegible .byte) .byte hbs, gather, if_pos ⟨rfl, rfl⟩,
      gather_section (hlegible .short) .short hss, gather, if_neg (by simp), if_pos ⟨rfl, rfl⟩,
      hlast]
  · rw [List.mapM_append, List.mapM_append, hread .byte hbs, hread .short hss,
      hread .continuous hcs, List.append_assoc]
    rfl

theorem parse_render (h : ∀ m ∈ s.features, Legible m) :
    parse (render s false) false =
      .ok (s.refit FeatureMeta.unweighted Schema.refits_unweighted) := by
  have htexts : ((lines (render s false)).zipIdx.map fun l => (l.2 + 1, trim l.1)).map (·.2) =
      title .byte :: ((Schema.ofKind .byte s.features.toList).map shown ++ title .short ::
        ((Schema.ofKind .short s.features.toList).map shown ++ title .continuous ::
          (Schema.ofKind .continuous s.features.toList).map shown)) := by
    rw [List.map_map]
    show (lines (render s false)).zipIdx.map (trim ∘ Prod.fst) = _
    rw [← List.map_map, List.zipIdx_map_fst, map_trim_lines_render h, textLines, List.map_append,
      List.map_append, map_trim_sectionLines, map_trim_sectionLines, map_trim_sectionLines,
      List.append_assoc]
    rfl
  obtain ⟨⟨number, line⟩, ls, hnumbered, hline, hls⟩ := List.map_eq_cons_iff.mp htexts
  obtain rfl : line = title .byte := hline
  obtain ⟨described, hgather, hread⟩ := exists_gather h hls
  have hkeep : isSkipped (title .byte) = false := by decide +kernel
  have hschema : Schema.ofFeatures? (readFeatures s .byte ++ readFeatures s .short ++
      readFeatures s .continuous) = .ok (s.refit FeatureMeta.unweighted Schema.refits_unweighted) :=
    Schema.ofFeatures?_refit s Schema.refits_unweighted
  rw [parse]
  simp only [hnumbered, List.dropWhile_cons, hkeep, Bool.false_eq_true, if_false]
  simp only [hgather, hread, ne_eq, not_true_eq_false, if_false]
  show FormatError.ofSchema (Schema.ofFeatures? _) = _
  rw [hschema]
  rfl

/-- A schema survives as text without weights: what is read has the features that were written
in the same order, with the same names and kinds and the same values of the discrete ones.  All
weights are zero, and there are no weighting functions.

A name that is no word, or that a reader takes for a comment, a title or the end of the
features, would not come back.  Continuous features have no values of their own; if one has
some they are not read, unless a line feed among them begins a new line. -/
theorem exists_parse_render (h : ∀ m ∈ s.features, Legible m) :
    ∃ s', parse (render s false) false = .ok s' ∧ s'.size = s.size ∧
      ∀ i m, s.get? i = some m → ∃ m', s'.get? i = some m' ∧
        m'.name = m.name ∧ m'.kind = m.kind ∧
        (m.kind.isDiscrete = true → m'.values = m.values) ∧
        (m.kind = .continuous → m'.values = #[]) ∧
        m'.weight = Floating.zero ∧ m'.weightFunction = none := by
  refine ⟨_, parse_render h, Array.size_map, fun i m hm => ?_⟩
  refine ⟨m.unweighted, ?_, rfl, rfl, ?_, ?_, rfl, rfl⟩
  · rw [Schema.get?_refit, hm, Option.map_some]
  · exact fun hd => if_pos hd
  · exact fun hc => if_neg (by rw [hc]; decide)

/-- Features of all kinds, in another order, with weights and a weighting function, with names
that begin like titles, and with values that would be titles and comments. -/
def nearTitles : List FeatureMeta :=
  [{ FeatureMeta.continuous "FeatureSimilarity2" with
      weight := Floating.nan, weightFunction := some "linear" },
    FeatureMeta.byte "p#" #["#", "ShortValuedFeatureProcessors", "#"],
    { FeatureMeta.continuous "e" with values := #["a b", ""] },
    FeatureMeta.short "é" #[]]

theorem exists_parse_render_nearTitles :
    ∃ s s', Schema.ofFeatures? nearTitles = .ok s ∧ (∀ m ∈ s.features, Legible m) ∧
      parse (render s false) false = .ok s' ∧ s'.size = 4 ∧
      (∃ m, s'.get? 0 = some m ∧ m.name = "p#" ∧
        m.values = #["#", "ShortValuedFeatureProcessors", "#"]) ∧
      ∃ m, s'.get? 2 = some m ∧ m.name = "FeatureSimilarity2" ∧ m.weight = Floating.zero ∧
        m.weightFunction = none := by
  have hsample : ((Schema.ofFeatures? nearTitles).toOption.any fun s =>
      decide (∀ m ∈ s.features, Legible m) && s.size == 4 &&
        s.get? 0 == some (FeatureMeta.byte "p#" #["#", "ShortValuedFeatureProcessors", "#"]) &&
        s.get? 2 == some { FeatureMeta.continuous "FeatureSimilarity2" with
          weight := Floating.nan, weightFunction := some "linear" }) = true := by
    decide +kernel
  obtain ⟨s, hs, hsample⟩ := exists_of_any_toOption hsample
  simp only [Bool.and_eq_true, beq_iff_eq, decide_eq_true_eq] at hsample
  obtain ⟨⟨⟨hlegible, hsize⟩, hfirst⟩, hthird⟩ := hsample
  obtain ⟨s', hread, hsize', hfeatures⟩ := exists_parse_render hlegible
  obtain ⟨m, hm, hname, -, hvalues, -, -, -⟩ := hfeatures 0 _ hfirst
  obtain ⟨m', hm', hname', -, -, -, hweight, hfunction⟩ := hfeatures 2 _ hthird
  exact ⟨s, s', hs, hlegible, hread, hsize'.trans hsize, ⟨m, hm, hname, hvalues rfl⟩,
    ⟨m', hm', hname', hweight, hfunction⟩⟩

/-- A continuous feature with a value of two lines. -/
def brokenLine : List FeatureMeta := [{ FeatureMeta.continuous "e" with values := #["a\nb"] }]

/-- Words alone do not do: the second line of a value becomes another feature. -/
theorem feature_added_brokenLine :
    ∃ s s' m, Schema.ofFeatures? brokenLine = .ok s ∧ (∀ m ∈ s.features, Worded m) ∧
      render s false = "ByteValuedFeatureProcessors\nShortValuedFeatureProcessors\n" ++
        "ContinuousFeatureProcessors\ne a\nb\n" ∧
      parse (render s false) false = .ok s' ∧ s.size = 1 ∧ s'.size = 2 ∧
      s'.get? 1 = some m ∧ m.name = "b" := by
  have hsample : ((Schema.ofFeatures? brokenLine).toOption.any fun s =>
      decide (∀ m ∈ s.features, Worded m) && s.size == 1 &&
        render s false == "ByteValuedFeatureProcessors\nShortValuedFeatureProcessors\n" ++
          "ContinuousFeatureProcessors\ne a\nb\n" &&
        (parse (render s false) false).toOption.any fun s' =>
          s'.size == 2 && (s'.get? 1).any (·.name == "b")) = true := by
    decide +kernel
  obtain ⟨s, hs, hsample⟩ := exists_of_any_toOption hsample
  simp only [Bool.and_eq_true, beq_iff_eq, decide_eq_true_eq] at hsample
  obtain ⟨⟨⟨hworded, hsize⟩, htext⟩, hread⟩ := hsample
  obtain ⟨s', hs', hread⟩ := exists_of_any_toOption hread
  obtain ⟨hsize', hsecond⟩ := Bool.and_eq_true_iff.mp hread
  obtain ⟨m, hm, hname⟩ := (Option.any_eq_true ..).mp hsecond
  exact ⟨s, s', m, hs, hworded, htext, hs', hsize, beq_iff_eq.mp hsize', hm,
    beq_iff_eq.mp hname⟩

end SchemaText

end FeatureTree
