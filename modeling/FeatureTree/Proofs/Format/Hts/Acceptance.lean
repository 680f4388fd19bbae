/-
Which blocks of a file are accepted.

A block whose lines can be read one by one is accepted exactly if they list a tree,
parents before children.  Every check is made on the spot or at the end of the block: the
id of a line, the ids that it refers to, and the ids that are left without a line.  What
passes these checks is a tree, so that the check of the finished nodes cannot fail.

* `Hts.StateAssembly.Tracks` — the state between two lines, in terms of their rules;
* `Hts.StateAssembly.Tracks.addLines`, `Hts.StateAssembly.Tracks.exists_addLines` — all
  lines of a block;
* `Hts.StateAssembly.exists_finish_iff` — the block as a whole;
* `Hts.Scan.accepts_iff_listed` — the block in a file.
-/
import FeatureTree.Proofs.Format.Hts.Files
import FeatureTree.Proofs.Format.Hts.Growth
import FeatureTree.Proofs.Format.Hts.Listing

namespace FeatureTree.Hts

namespace Context

variable {c : Context} {text : String} {r : Rule}

/-- Whether a line has four fields, of which the question can be resolved and the
references are well formed, those to leaves with a density if there are tables. -/
def legible (c : Context) (text : String) : Bool :=
  match Text.words text.toList with
  | [_, question, no, yes] =>
    (c.asked? question).isSome && ((Reference.ofName? no).bind c.seed?).isSome &&
      ((Reference.ofName? yes).bind c.seed?).isSome
  | _ => false

/-- A legible line with an id is read in all its parts. -/
theorem says_of_legible (line : Nat) (h : c.legible text = true) (hr : c.rule? text = some r) :
    ∃ q, c.Says line text r q ∧ (c.seed? r.yes).isSome ∧ (c.seed? r.no).isSome := by
  rw [legible] at h
  rw [rule?] at hr
  split at h
  · next name question no yes hwords =>
    simp only [hwords] at hr
    obtain ⟨id, hid, hr⟩ := Option.bind_eq_some_iff.mp hr
    obtain ⟨⟨feature, ordinal⟩, hasked, hr⟩ := Option.bind_eq_some_iff.mp hr
    obtain ⟨noRef, hno, hr⟩ := Option.bind_eq_some_iff.mp hr
    obtain ⟨yesRef, hyes, hr⟩ := Option.bind_eq_some_iff.mp hr
    obtain rfl := Option.some_inj.mp hr
    obtain ⟨q, hq⟩ := exists_question line hasked
    rw [hno, hyes, Bool.and_eq_true, Bool.and_eq_true] at h
    exact ⟨q, ⟨name, question, no, yes, hwords, hid, hq, hasked, hno, hyes⟩, h.2, h.1.2⟩
  · exact absurd h (by simp)

end Context

namespace StateAssembly

variable {a a' : StateAssembly} {rules : List Rule} {r : Rule}

/-! ### The state between two lines -/

/-- The lines of some rules, which list parents before children, were read: the ids that
occurred are 0 and those that a rule refers to. -/
structure Tracks (a : StateAssembly) (rules : List Rule) : Prop where
  ordered : Ordered rules
  follows : ∃ leaves, a.Follows rules [] leaves
  grows : a.Grows
  known : ∀ i, a.find? i ≠ none ↔ (rules ≠ [] ∧ i = 0) ∨ i ∈ rules.flatMap Rule.targets

theorem tracks_start (c : Context) : (start c).Tracks [] where
  ordered := ordered_nil
  follows := ⟨0, follows_start c⟩
  grows := grows_start c
  known := fun i => by simp [start, find?]

namespace Tracks

/-- There are no ids before the first line. -/
theorem declarations_eq_nil_iff (h : a.Tracks rules) : a.declarations = [] ↔ rules = [] := by
  constructor
  · intro hempty
    by_contra hne
    refine (h.known 0).mpr (.inl ⟨hne, rfl⟩) ?_
    rw [find?, hempty]
    rfl
  · rintro rfl
    by_contra hne
    obtain ⟨d, rest, hd⟩ := List.exists_cons_of_ne_nil hne
    have hfound : a.find? d.id ≠ none := by
      rw [find?, hd, List.find?_cons_of_pos (by simp)]
      simp
    simpa using (h.known d.id).mp hfound

/-- With the root declared, the ids that occurred are 0 and those that a rule refers to. -/
theorem known_declareRoot (h : a.Tracks rules) {id : Nat} (hid : rules = [] → id = 0) (i : Nat) :
    (a.declareRoot id).find? i = none ↔ i ≠ 0 ∧ i ∉ rules.flatMap Rule.targets := by
  have hknown := h.known i
  by_cases hne : rules = []
  · obtain rfl := hid hne
    subst hne
    rw [declareRoot_of_nil (h.declarations_eq_nil_iff.mpr rfl), find?_planted]
    by_cases hi : 0 = i
    · simp [← hi]
    · rw [if_neg hi]
      simpa [Ne.symm hi] using hknown
  · rw [declareRoot_of_ne fun hfirst => hne (h.declarations_eq_nil_iff.mp hfirst.2),
      ← not_iff_not, ← ne_eq, hknown]
    simp only [hne, ne_eq, not_false_eq_true, true_and, not_and_or, not_not]

/-- The checks on the ids of a line say that its rule can follow. -/
theorem admits_iff (h : a.Tracks rules) :
    ((∃ u, (a.declareRoot r.id).Open r.id u) ∧ r.targets.Nodup ∧
      ∀ i ∈ r.targets, (a.declareRoot r.id).find? i = none) ↔ Admits rules r := by
  obtain ⟨leaves, hfollows⟩ := h.follows
  have hfollows := hfollows.declareRoot r.id
  constructor
  · rintro ⟨⟨u, d, hd, hundefined, -⟩, hnodup, hnew⟩
    -- before the first line nothing can have been declared but the root
    have hroot : rules = [] → r.id = 0 := by
      rintro rfl
      by_contra hid
      rw [declareRoot_of_ne fun hfirst => hid hfirst.1] at hd
      have := (h.known r.id).mp (by simp [hd])
      simp at this
    have hundefined : r.id ∉ rules.map Rule.id := fun hmem => by
      rw [(hfollows.defined r.id d hd).mpr hmem] at hundefined
      exact absurd hundefined (by simp)
    refine ⟨hroot, fun hne => ?_, hundefined, hnodup, fun i hi => ?_⟩
    · by_contra hmem
      have hzero : r.id ≠ 0 := fun hzero => hundefined (hzero ▸ h.ordered.zero_mem hne)
      rw [(h.known_declareRoot hroot r.id).mpr ⟨hzero, hmem⟩] at hd
      exact absurd hd (by simp)
    · exact (h.known_declareRoot hroot i).mp (hnew i hi)
  · intro hr
    have hknown := h.known_declareRoot hr.root
    refine ⟨?_, hr.distinct, fun i hi => (hknown i).mpr (hr.new i hi)⟩
    obtain ⟨d, hd⟩ : ∃ d, (a.declareRoot r.id).find? r.id = some d := by
      refine Option.ne_none_iff_exists'.mp fun hnone => ?_
      obtain ⟨hzero, hmem⟩ := (hknown r.id).mp hnone
      by_cases hne : rules = []
      · exact hzero (hr.root hne)
      · exact hmem (hr.known hne)
    refine ⟨d.node, d, hd, ?_, rfl⟩
    exact Bool.eq_false_iff.mpr fun hdefined =>
      hr.undefined ((hfollows.defined r.id d hd).mp hdefined)

/-! ### One line -/

/-- A line that is read has a rule that can follow, and is done with. -/
theorem addLine (h : a.Tracks rules) {line : Nat} {text : String}
    (hline : a.addLine line text = .ok a') :
    ∃ r, a.context.rule? text = some r ∧ a'.Tracks (rules ++ [r]) ∧ a'.context = a.context := by
  obtain ⟨r, q, hread, htakes⟩ := addLine_eq_ok_iff.mp hline
  obtain ⟨leaves, hfollows⟩ := h.follows
  have hread' : (a.declareRoot r.id).context.Says line text r q := by
    rwa [context_declareRoot]
  obtain ⟨hfollows', hkeeps, -⟩ := (hfollows.declareRoot r.id).takes hread' htakes
  have hgrows := (h.grows.declareRoot r.id).takes (hfollows.declareRoot r.id) hread' htakes
  refine ⟨r, hread.rule?, ?_, hkeeps.context.trans (context_declareRoot a r.id)⟩
  have hr : Admits rules r := by
    cases htakes with
    | @intro d x y b b' hd hundefined _ _ hnodup hnew =>
      exact h.admits_iff.mp ⟨⟨d.node, d, hd, hundefined, rfl⟩, hnodup, hnew⟩
  refine ⟨hr.ordered_concat h.ordered, ⟨_, hfollows'⟩, hgrows, fun i => ?_⟩
  rw [ne_eq, htakes.find?_eq_none_iff, h.known_declareRoot hr.root, List.flatMap_append,
    List.flatMap_singleton, List.mem_append]
  have hne : rules ++ [r] ≠ [] := by simp
  generalize rules.flatMap Rule.targets = targets
  tauto

/-- A legible line with a rule that can follow is read. -/
theorem exists_addLine (h : a.Tracks rules) {line : Nat} {text : String}
    (hlegible : a.context.legible text = true) (hr : a.context.rule? text = some r)
    (hordered : Ordered (rules ++ [r])) : ∃ a', a.addLine line text = .ok a' := by
  obtain ⟨q, hread, hyes, hno⟩ := Context.says_of_legible line hlegible hr
  obtain ⟨⟨u, hopen⟩, hnodup, hnew⟩ := h.admits_iff.mpr ((ordered_concat_iff h.ordered).mp hordered)
  rw [← context_declareRoot a r.id] at hread hyes hno
  obtain ⟨a', htakes⟩ :=
    exists_takes (h.grows.declareRoot r.id) hread hopen hyes hno hnodup hnew
  rw [context_declareRoot] at hread
  exact ⟨a', addLine_eq_ok_iff.mpr ⟨r, q, hread, htakes⟩⟩

/-! ### All lines of a block -/

/-- The lines that are read have rules that list parents before children. -/
theorem addLines (lines : List (String × Nat)) :
    ∀ {a : StateAssembly} {rules : List Rule}, a.Tracks rules →
      lines.foldlM addNumbered a = .ok a' →
      ∃ more, (lines.map Prod.fst).mapM a.context.rule? = some more ∧
        a'.Tracks (rules ++ more) ∧ a'.context = a.context := by
  induction lines with
  | nil =>
    intro a rules h hrun
    obtain rfl : a = a' := Except.ok.inj hrun
    exact ⟨[], rfl, by rwa [List.append_nil], rfl⟩
  | cons line lines ih =>
    intro a rules h hrun
    rw [List.foldlM_cons] at hrun
    obtain ⟨a₁, hline, hrun⟩ := bind_eq_ok_iff.mp hrun
    obtain ⟨r, hr, h₁, hcontext₁⟩ := h.addLine hline
    obtain ⟨more, hmore, h', hcontext'⟩ := ih h₁ hrun
    rw [hcontext₁] at hmore
    refine ⟨r :: more, ?_, by rwa [List.append_cons], hcontext'.trans hcontext₁⟩
    rw [List.map_cons, List.mapM_cons, hr, hmore]
    rfl

/-- Legible lines are read if their rules list parents before children. -/
theorem exists_addLines (lines : List (String × Nat)) :
    ∀ {a : StateAssembly} {rules more : List Rule}, a.Tracks rules →
      (∀ line ∈ lines, a.context.legible line.1 = true) →
      (lines.map Prod.fst).mapM a.context.rule? = some more → Ordered (rules ++ more) →
      ∃ a', lines.foldlM addNumbered a = .ok a' := by
  induction lines with
  | nil => exact fun _ _ _ _ => ⟨_, rfl⟩
  | cons line lines ih =>
    intro a rules more h hlegible hmore hordered
    rw [List.map_cons, List.mapM_cons] at hmore
    obtain ⟨r, hr, hmore⟩ := Option.bind_eq_some_iff.mp hmore
    obtain ⟨more, hmore', hmore⟩ := Option.bind_eq_some_iff.mp hmore
    obtain rfl := Option.some_inj.mp hmore
    rw [List.append_cons] at hordered
    -- the rules up to the first of the lines are a beginning of all of them
    obtain ⟨a₁, hline⟩ :=
      h.exists_addLine (hlegible line List.mem_cons_self) hr hordered.of_append
    obtain ⟨r', hr', h₁, hcontext₁⟩ := h.addLine hline
    obtain rfl := Option.some_inj.mp (hr.symm.trans hr')
    rw [← hcontext₁] at hmore'
    have hlegible' : ∀ line ∈ lines, a₁.context.legible line.1 = true := fun l hl => by
      rw [hcontext₁]
      exact hlegible l (List.mem_cons_of_mem _ hl)
    obtain ⟨a', hrun⟩ := ih h₁ hlegible' hmore' hordered
    exact ⟨a', by rw [List.foldlM_cons]; exact bind_eq_ok_iff.mpr ⟨a₁, hline, hrun⟩⟩

/-- Once every id that occurred was defined, the nodes are a tree. -/
theorem exists_cart (h : a.Tracks rules) (hall : ∀ d ∈ a.declarations, d.isDefined = true) :
    ∃ t, Cart.ofBuilder? a.builder = .ok t := by
  obtain ⟨leaves, hfollows⟩ := h.follows
  exact h.grows.exists_cart hfollows.schema hall

/-- Every id that occurred was defined if every line that is referred to is there. -/
theorem all_defined_iff (h : a.Tracks rules) :
    (∀ d ∈ a.declarations, d.isDefined = true) ↔
      ∀ t ∈ rules.flatMap Rule.targets, t ∈ rules.map Rule.id := by
  obtain ⟨leaves, hfollows⟩ := h.follows
  constructor
  · intro hall t ht
    obtain ⟨d, hd⟩ := Option.ne_none_iff_exists'.mp ((h.known t).mpr (.inr ht))
    exact (hfollows.defined t d hd).mp (hall d (mem_of_find? hd))
  · intro htargets d hd
    have hfound := find?_of_mem hfollows.ids hd
    refine (hfollows.defined d.id d hfound).mpr ?_
    rcases (h.known d.id).mp (by rw [hfound]; simp) with ⟨hne, hzero⟩ | hmem
    · exact hzero ▸ h.ordered.zero_mem hne
    · exact htargets d.id hmem

/-- At the end of a block there is a tree if every line that is referred to is there. -/
theorem exists_finish_iff (h : a.Tracks rules) (line : Nat) :
    (∃ t, a.finish line = .ok t) ↔ ∀ t ∈ rules.flatMap Rule.targets, t ∈ rules.map Rule.id := by
  rw [← h.all_defined_iff]
  constructor
  · rintro ⟨t, ht⟩
    exact (finish_eq_ok_iff.mp ht).1
  · intro hall
    obtain ⟨t, ht⟩ := h.exists_cart hall
    exact ⟨t, finish_eq_ok_iff.mpr ⟨hall, ht⟩⟩

end Tracks

/-- Legible lines make a tree exactly if their rules list one. -/
theorem exists_finish_iff_listed {c : Context} (lines : List (String × Nat)) (line : Nat)
    (hlegible : ∀ l ∈ lines, c.legible l.1 = true) :
    (∃ a t, lines.foldlM addNumbered (start c) = .ok a ∧ a.finish line = .ok t) ↔
      ∃ rules, (lines.map Prod.fst).mapM c.rule? = some rules ∧ Listed rules := by
  constructor
  · rintro ⟨a, t, hrun, hfinish⟩
    obtain ⟨rules, hrules, h, -⟩ := (tracks_start c).addLines lines hrun
    exact ⟨rules, hrules, h.ordered, (h.exists_finish_iff line).mp ⟨t, hfinish⟩⟩
  · rintro ⟨rules, hrules, hlisted⟩
    obtain ⟨a, hrun⟩ :=
      (tracks_start c).exists_addLines lines hlegible hrules hlisted.toOrdered
    obtain ⟨rules', hrules', h, -⟩ := (tracks_start c).addLines lines hrun
    obtain rfl := Option.some_inj.mp (hrules.symm.trans hrules')
    obtain ⟨t, ht⟩ := (h.exists_finish_iff line).mpr hlisted.defined
    exact ⟨a, t, hrun, ht⟩

end StateAssembly

/-! ### The block in a file -/

/-- The lines within braces that are not blank, with their numbers. -/
theorem Segment.map_fst_filter_zipIdx (body : List String) (n : Nat) :
    ((body.zipIdx n).filter fun line => !Text.allBlank line.1).map Prod.fst = filled body := by
  have hfst := List.filter_map (f := Prod.fst) (p := (!Text.allBlank ·)) (l := body.zipIdx n)
  rw [List.zipIdx_map_fst] at hfst
  exact hfst.symm

namespace Scan

variable {x : Scan}

/-- The lines within braces are read one after the other, but for the blank ones. -/
theorem foldlM_addLine_within (lines : List (String × Nat))
    (hbody : ∀ line ∈ lines, line.1.toList.contains '\x7d' = false) (a : StateAssembly) :
    lines.foldlM Scan.addLine { x with mode := .within a } = do
      let a' ← (lines.filter fun line => !Text.allBlank line.1).foldlM StateAssembly.addNumbered a
      return { x with mode := .within a' } := by
  induction lines generalizing a with
  | nil => rfl
  | cons line lines ih =>
    have hopen : ¬ line.1.toList.contains '\x7d' = true := by
      rw [hbody line List.mem_cons_self]
      decide
    have ih := ih fun l hl => hbody l (List.mem_cons_of_mem _ hl)
    rw [List.foldlM_cons, Scan.addLine.eq_def]
    dsimp only
    rw [if_neg hopen]
    by_cases hblank : Text.allBlank line.1 = true
    · rw [if_pos hblank, List.filter_cons_of_neg (by simp [hblank])]
      exact ih a
    · rw [if_neg hblank, List.filter_cons_of_pos (by simp [hblank]), List.foldlM_cons,
        StateAssembly.addNumbered]
      cases a.addLine line.2 line.1 with
      | error e => rfl
      | ok a₁ => exact ih a₁

/-- A block in braces is read by its lines that are not blank. -/
theorem foldlM_addLine_braced {header opening closing : String} {body : List String}
    {state : Nat} (hmode : x.mode = .between)
    (hplaced : (Segment.braced header opening body closing).WellPlaced)
    (hstate : stateIndex 0 x.options.numStates header.toList = .ok state) (n : Nat) :
    ((Segment.braced header opening body closing).lines.zipIdx n).foldlM Scan.addLine x = do
      let a ← ((body.zipIdx (n + 2)).filter fun line => !Text.allBlank line.1).foldlM
        StateAssembly.addNumbered (StateAssembly.start (x.context state))
      let t ← a.finish (n + 2 + body.length)
      return x.store a.context.state t := by
  obtain ⟨hheader, hopening, hbody, hclosing⟩ := hplaced
  have hlines : (Segment.braced header opening body closing).lines.zipIdx n =
      (header, n) :: (opening, n + 1) ::
        (body.zipIdx (n + 2) ++ [(closing, n + 2 + body.length)]) := by
    simp [Segment.lines, List.zipIdx_cons, List.zipIdx_append]
  have hfirst : x.addLine (header, n) = .ok { x with mode := .afterHeader n state } := by
    rw [Scan.addLine.eq_def, hmode]
    dsimp only
    rw [← Segment.isHeader, if_pos hheader, stateIndex_eq_ok hstate]
    rfl
  have hsecond : Scan.addLine { x with mode := .afterHeader n state } (opening, n + 1) =
      .ok { x with mode := .within (StateAssembly.start (x.context state)) } := by
    rw [Scan.addLine.eq_def]
    dsimp only
    rw [if_pos hopening]
    rfl
  have hlast : ∀ a m, [(closing, m)].foldlM Scan.addLine { x with mode := .within a } = do
      let t ← a.finish m
      return x.store a.context.state t := by
    intro a m
    rw [List.foldlM_cons, Scan.addLine.eq_def]
    dsimp only
    rw [if_pos hclosing]
    cases a.finish m <;> rfl
  have hbody' : ∀ line ∈ body.zipIdx (n + 2), line.1.toList.contains '\x7d' = false :=
    fun line hline => hbody line.1 (List.fst_mem_of_mem_zipIdx hline)
  calc ((Segment.braced header opening body closing).lines.zipIdx n).foldlM Scan.addLine x
      = (body.zipIdx (n + 2) ++ [(closing, n + 2 + body.length)]).foldlM Scan.addLine
          { x with mode := .within (StateAssembly.start (x.context state)) } := by
        rw [hlines, List.foldlM_cons, hfirst]
        show ((opening, n + 1) :: _).foldlM Scan.addLine { x with mode := .afterHeader n state } = _
        rw [List.foldlM_cons, hsecond]
        rfl
    _ = _ := by
        rw [List.foldlM_append, foldlM_addLine_within _ hbody']
        cases ((body.zipIdx (n + 2)).filter fun line => !Text.allBlank line.1).foldlM
          StateAssembly.addNumbered (StateAssembly.start (x.context state)) with
        | error e => rfl
        | ok a => exact hlast a _

/-- A block in braces whose lines are legible is accepted exactly if its lines list a tree:
it is empty, or its first line has id 0, every later line has a positive id to which a line
before it refers, no id is defined or referred to twice, and every id that is referred to
is defined.  Whatever lines were read, the nodes are a tree once every id that occurred
was defined. -/
theorem accepts_iff_listed {header opening closing : String} {body : List String}
    {state : Nat} (hmode : x.mode = .between)
    (hplaced : (Segment.braced header opening body closing).WellPlaced)
    (hstate : stateIndex 0 x.options.numStates header.toList = .ok state)
    (hlegible : ∀ line ∈ Segment.filled body, (x.context state).legible line = true) (n : Nat) :
    ((∃ x', ((Segment.braced header opening body closing).lines.zipIdx n).foldlM Scan.addLine x =
        .ok x') ↔
      ∃ rules, (Segment.filled body).mapM (x.context state).rule? = some rules ∧ Listed rules) ∧
    ∀ (c : Context) (lines : List (String × Nat)) (a : StateAssembly),
      lines.foldlM StateAssembly.addNumbered (StateAssembly.start c) = .ok a →
      (∀ d ∈ a.declarations, d.isDefined = true) → ∃ t, Cart.ofBuilder? a.builder = .ok t := by
  have hfilled := Segment.map_fst_filter_zipIdx body (n + 2)
  refine ⟨?_, fun c lines a hrun hall => ?_⟩
  · have hblock := StateAssembly.exists_finish_iff_listed (c := x.context state)
      ((body.zipIdx (n + 2)).filter fun line => !Text.allBlank line.1) (n + 2 + body.length)
      fun l hl => hlegible l.1 (hfilled ▸ List.mem_map_of_mem hl)
    rw [hfilled] at hblock
    rw [foldlM_addLine_braced hmode hplaced hstate, ← hblock]
    constructor
    · rintro ⟨x', hrun⟩
      obtain ⟨a, ha, hrun⟩ := bind_eq_ok_iff.mp hrun
      obtain ⟨t, ht, -⟩ := bind_eq_ok_iff.mp hrun
      exact ⟨a, t, ha, ht⟩
    · rintro ⟨a, t, ha, ht⟩
      exact ⟨_, bind_eq_ok_iff.mpr ⟨a, ha, bind_eq_ok_iff.mpr ⟨t, ht, rfl⟩⟩⟩
  · obtain ⟨rules, -, h, -⟩ := (StateAssembly.tracks_start c).addLines lines hrun
    exact h.exists_cart hall

/-- A file before its first block. -/
def sample : Scan :=
  { schema := Sample.schema, options := ⟨1, .standard⟩, tables := none, trees := #[none] }

/-- A line whose answers lead to the same line. -/
def sharedBody : List String := ["0 phone=a -1 \"x_1\"", "-1 pos=n -2 -2"]

/-- A block that lists a tree is accepted, and one with a shared reference is not. -/
theorem accepts_iff_listed_sample :
    (∃ x', ((Segment.braced "\x7b*\x7d[2]" "\x7b" sampleBody "\x7d").lines.zipIdx 1).foldlM
      Scan.addLine sample = .ok x') ∧
    ¬ ∃ x', ((Segment.braced "\x7b*\x7d[2]" "\x7b" sharedBody "\x7d").lines.zipIdx 1).foldlM
      Scan.addLine sample = .ok x' := by
  have hstate : stateIndex 0 sample.options.numStates "\x7b*\x7d[2]".toList = .ok 0 := by
    decide +kernel
  constructor
  · have haccepts := accepts_iff_listed (x := sample) rfl
      (by decide +kernel : (Segment.braced "\x7b*\x7d[2]" "\x7b" sampleBody "\x7d").WellPlaced)
      hstate (by decide +kernel) 1
    exact haccepts.1.mpr ⟨[⟨0, 0, 1, .line 1, .leaf 1⟩, ⟨1, 1, 1, .leaf 2, .leaf 1⟩],
      by decide +kernel, by decide⟩
  · have haccepts := accepts_iff_listed (x := sample) rfl
      (by decide +kernel : (Segment.braced "\x7b*\x7d[2]" "\x7b" sharedBody "\x7d").WellPlaced)
      hstate (by decide +kernel) 1
    intro haccepted
    obtain ⟨rules, hrules, hlisted⟩ := haccepts.1.mp haccepted
    have hsame : (Segment.filled sharedBody).mapM (sample.context 0).rule? =
        some [⟨0, 0, 1, .line 1, .leaf 1⟩, ⟨1, 1, 1, .line 2, .line 2⟩] := by
      decide +kernel
    obtain rfl := Option.some_inj.mp (hrules.symm.trans hsame)
    exact absurd hlisted.targets (by decide)

end Scan

end FeatureTree.Hts
