/-
The trees of a file mean what its lines say.

The lines after the questions are cut into parts in one way: lines between the blocks,
headers with the name of a leaf, and headers with lines in braces.  While a file is read,
every block in braces that is complete tells of a tree, and the last block of a state gave
the state its tree.

* `Hts.Segment.Cuts`, `Hts.Segment.Cuts.unique` — the cut of a file into parts;
* `Hts.Scan.Step` — what reading a line can make of a scan;
* `Hts.Scan.Covers` — the parts that are complete, and the lines since;
* `Hts.tells_of_ofText` — the trees of a file.
-/
import FeatureTree.Proofs.Format.Hts.Blocks

namespace FeatureTree.Hts

/-! ### The blocks of a file -/

/-- A part of a file after its questions: a line between the blocks, a header with the
name of a leaf, or a header with lines in braces. -/
inductive Segment where
  | skipped (line : String)
  | single (header leaf : String)
  | braced (header opening : String) (body : List String) (closing : String)

namespace Segment

/-- The lines of a part. -/
def lines : Segment → List String
  | skipped line => [line]
  | single header leaf => [header, leaf]
  | braced header opening body closing => header :: opening :: (body ++ [closing])

/-- The header of a block. -/
def header? : Segment → Option String
  | skipped _ => none
  | single header _ => some header
  | braced header .. => some header

/-- The state of a block. -/
def state? (numStates : Nat) (g : Segment) : Option Nat :=
  g.header?.bind fun header => (stateIndex 0 numStates header.toList).toOption

/-- Whether a line is the header of a block. -/
def isHeader (line : String) : Bool := Text.holds ['\x7b', '*', '\x7d'] line.toList

/-- Whether the braces of a part are where they belong: a block in braces ends at the
first closing brace. -/
def WellPlaced : Segment → Prop
  | skipped line => isHeader line = false
  | single header leaf => isHeader header = true ∧ leaf.toList.contains '\x7b' = false
  | braced header opening body closing =>
    isHeader header = true ∧ opening.toList.contains '\x7b' = true ∧
      (∀ line ∈ body, line.toList.contains '\x7d' = false) ∧
      closing.toList.contains '\x7d' = true

instance : DecidablePred WellPlaced
  | skipped _ => inferInstanceAs (Decidable (_ = _))
  | single _ _ => inferInstanceAs (Decidable (_ ∧ _))
  | braced _ _ _ _ => inferInstanceAs (Decidable (_ ∧ _ ∧ _ ∧ _))

/-- The lines within braces that are not blank. -/
def filled (body : List String) : List String := body.filter (!Text.allBlank ·)

theorem filled_concat (body : List String) (line : String) :
    filled (body ++ [line]) = filled body ++ if Text.allBlank line then [] else [line] := by
  rw [filled, List.filter_append, filled]
  cases h : Text.allBlank line <;> simp [h]

/-- A cut of lines into parts. -/
def Cuts (segments : List Segment) (lines : List String) : Prop :=
  segments.flatMap Segment.lines = lines ∧ ∀ g ∈ segments, g.WellPlaced

instance (segments : List Segment) (lines : List String) : Decidable (Cuts segments lines) :=
  inferInstanceAs (Decidable (_ ∧ _))

/-- What comes before the first closing brace. -/
theorem takeWhile_body {body rest : List String} {closing : String}
    (hbody : ∀ line ∈ body, line.toList.contains '\x7d' = false)
    (hclosing : closing.toList.contains '\x7d' = true) :
    (body ++ closing :: rest).takeWhile (fun line => !line.toList.contains '\x7d') = body := by
  rw [List.takeWhile_append_of_pos (fun line hline => by rw [hbody line hline]; rfl),
    List.takeWhile_cons, if_neg (by rw [hclosing]; simp), List.append_nil]

/-- The first part of a cut is determined by the lines. -/
theorem WellPlaced.unique {g g' : Segment} (h : g.WellPlaced) (h' : g'.WellPlaced)
    {rest rest' : List String} (heq : g.lines ++ rest = g'.lines ++ rest') :
    g = g' ∧ rest = rest' := by
  -- a part and another one of a different form disagree in the first or the second line
  have htwo : ∀ {header header' second second' : String} {tail tail' : List String},
      header :: second :: tail = header' :: second' :: tail' →
      header = header' ∧ second = second' ∧ tail = tail' := fun heq => by simpa using heq
  cases g with
  | skipped line =>
    cases g' with
    | skipped line' =>
      obtain ⟨rfl, rfl⟩ := List.cons.inj heq
      exact ⟨rfl, rfl⟩
    | single header' leaf' =>
      obtain ⟨rfl, -⟩ := List.cons.inj heq
      exact absurd (h.symm.trans h'.1) (by simp)
    | braced header' opening' body' closing' =>
      obtain ⟨rfl, -⟩ := List.cons.inj heq
      exact absurd (h.symm.trans h'.1) (by simp)
  | single header leaf =>
    cases g' with
    | skipped line' =>
      obtain ⟨rfl, -⟩ := List.cons.inj heq
      exact absurd (h'.symm.trans h.1) (by simp)
    | single header' leaf' =>
      obtain ⟨rfl, rfl, rfl⟩ := htwo heq
      exact ⟨rfl, rfl⟩
    | braced header' opening' body' closing' =>
      obtain ⟨rfl, rfl, -⟩ := htwo heq
      exact absurd (h.2.symm.trans h'.2.1) (by simp)
  | braced header opening body closing =>
    cases g' with
    | skipped line' =>
      obtain ⟨rfl, -⟩ := List.cons.inj heq
      exact absurd (h'.symm.trans h.1) (by simp)
    | single header' leaf' =>
      obtain ⟨rfl, rfl, -⟩ := htwo heq
      exact absurd (h'.2.symm.trans h.2.1) (by simp)
    | braced header' opening' body' closing' =>
      obtain ⟨rfl, rfl, htail⟩ := htwo heq
      obtain ⟨-, -, hbody, hclosing⟩ := h
      obtain ⟨-, -, hbody', hclosing'⟩ := h'
      have htail : body ++ closing :: rest = body' ++ closing' :: rest' := by simpa using htail
      obtain rfl : body = body' := by
        rw [← takeWhile_body hbody hclosing, htail, takeWhile_body hbody' hclosing']
      obtain ⟨rfl, rfl⟩ := List.cons.inj (List.append_cancel_left htail)
      exact ⟨rfl, rfl⟩

theorem lines_ne_nil (g : Segment) : g.lines ≠ [] := by cases g <;> simp [lines]

/-- There is one cut at most. -/
theorem Cuts.unique {segments : List Segment} :
    ∀ {other : List Segment} {lines : List String}, Cuts segments lines → Cuts other lines →
      other = segments := by
  induction segments with
  | nil =>
    intro other lines h h'
    obtain rfl := h.1
    cases other with
    | nil => rfl
    | cons g other => exact absurd (List.append_eq_nil_iff.mp h'.1).1 g.lines_ne_nil
  | cons g segments ih =>
    intro other lines h h'
    obtain rfl := h.1
    cases other with
    | nil => exact absurd (List.append_eq_nil_iff.mp h'.1.symm).1 g.lines_ne_nil
    | cons g' other =>
      obtain ⟨rfl, hrest⟩ :=
        (h'.2 g' List.mem_cons_self).unique (h.2 g List.mem_cons_self) h'.1
      rw [ih ⟨rfl, fun x hx => h.2 x (List.mem_cons_of_mem _ hx)⟩
        ⟨hrest, fun x hx => h'.2 x (List.mem_cons_of_mem _ hx)⟩]

end Segment

/-- The number of a line matters for the wording of an error alone. -/
theorem stateIndex_eq_ok {line line' numStates k : Nat} {cs : List Char}
    (h : stateIndex line numStates cs = .ok k) : stateIndex line' numStates cs = .ok k := by
  rw [stateIndex] at h ⊢
  split at h
  · exact absurd h (by simp)
  · exact h

theorem stateIndex_lt {line numStates k : Nat} {cs : List Char}
    (h : stateIndex line numStates cs = .ok k) : k < numStates := by
  rw [stateIndex] at h
  split at h
  · exact absurd h (by simp)
  · dsimp only at h
    split at h
    · next j hj =>
      obtain rfl := Except.ok.inj h
      obtain ⟨-, hj⟩ := Option.filter_eq_some_iff.mp hj
      simpa using (Bool.and_eq_true_iff.mp hj).2
    · exact absurd h (by simp)

namespace Scan

/-! ### One line of a file -/

/-- What reading a line can make of a scan. -/
inductive Step (x : Scan) (line : String × Nat) : Scan → Prop
  | skip : x.mode = .between → Segment.isHeader line.1 = false → Step x line x
  | header {state : Nat} : x.mode = .between → Segment.isHeader line.1 = true →
      stateIndex 0 x.options.numStates line.1.toList = .ok state →
      Step x line { x with mode := .afterHeader line.2 state }
  | opening {number state : Nat} : x.mode = .afterHeader number state →
      line.1.toList.contains '\x7b' = true →
      Step x line { x with mode := .within (StateAssembly.start (x.context state)) }
  | leaf {number state : Nat} {t : Cart} : x.mode = .afterHeader number state →
      line.1.toList.contains '\x7b' = false → Step x line (x.store state t)
  | closing {a : StateAssembly} {t : Cart} : x.mode = .within a →
      line.1.toList.contains '\x7d' = true → a.finish line.2 = .ok t →
      Step x line (x.store a.context.state t)
  | blank {a : StateAssembly} : x.mode = .within a → line.1.toList.contains '\x7d' = false →
      Text.allBlank line.1 = true → Step x line x
  | rule {a a' : StateAssembly} : x.mode = .within a →
      line.1.toList.contains '\x7d' = false → Text.allBlank line.1 = false →
      a.addNumbered line = .ok a' → Step x line { x with mode := .within a' }

variable {x x' : Scan} {line : String × Nat} {segments : List Segment} {rest lines : List String}

theorem step_of_addLine (h : x.addLine line = .ok x') : x.Step line x' := by
  rw [Scan.addLine.eq_def] at h
  dsimp only at h
  split at h
  · next hmode =>
    split at h
    · next hheader =>
      obtain ⟨state, hstate, h⟩ := bind_eq_ok_iff.mp h
      obtain rfl := Except.ok.inj h
      exact .header hmode hheader (stateIndex_eq_ok hstate)
    · next hheader =>
      obtain rfl := Except.ok.inj h
      exact .skip hmode ((Bool.not_eq_true _).mp hheader)
  · next number state hmode =>
    split at h
    · next hopening =>
      obtain rfl := Except.ok.inj h
      exact .opening hmode hopening
    · next hopening =>
      obtain ⟨a, -, h⟩ := bind_eq_ok_iff.mp h
      obtain ⟨t, -, h⟩ := bind_eq_ok_iff.mp h
      obtain rfl := Except.ok.inj h
      exact .leaf hmode ((Bool.not_eq_true _).mp hopening)
  · next a hmode =>
    split at h
    · next hclosing =>
      obtain ⟨t, ht, h⟩ := bind_eq_ok_iff.mp h
      obtain rfl := Except.ok.inj h
      exact .closing hmode hclosing ht
    · next hclosing =>
      split at h
      · next hblank =>
        obtain rfl := Except.ok.inj h
        exact .blank hmode ((Bool.not_eq_true _).mp hclosing) hblank
      · next hblank =>
        obtain ⟨a', ha', h⟩ := bind_eq_ok_iff.mp h
        obtain rfl := Except.ok.inj h
        exact .rule hmode ((Bool.not_eq_true _).mp hclosing) ((Bool.not_eq_true _).mp hblank) ha'

/-- What the lines refer to stays the same. -/
theorem Step.frame (h : x.Step line x') :
    x'.options = x.options ∧ ∀ k, x'.context k = x.context k := by
  cases h <;> exact ⟨rfl, fun _ => rfl⟩

/-! ### The parts that were read -/

/-- The parts that were read: every block in braces tells of a tree, and the last block of
a state gave the state its tree. -/
structure Stored (x : Scan) (segments : List Segment) : Prop where
  size : x.trees.size = x.options.numStates
  placed : ∀ g ∈ segments, g.WellPlaced
  blocks : ∀ before header opening body closing after,
    segments = before ++ .braced header opening body closing :: after →
    ∃ state t, stateIndex 0 x.options.numStates header.toList = .ok state ∧
      (Segment.filled body ≠ [] → Tells (x.context state) (Segment.filled body) t) ∧
      ((∀ g ∈ after, g.state? x.options.numStates ≠ some state) →
        x.trees[state]? = some (some t))

theorem Stored.setMode (h : x.Stored segments) (mode : Mode) :
    Stored { x with mode } segments :=
  ⟨h.size, h.placed, h.blocks⟩

/-- One more part: it gives its state a tree, if it is a block, and leaves the other states
as they are. -/
theorem Stored.append (h : x.Stored segments) {g : Segment} (hg : g.WellPlaced)
    (hoptions : x'.options = x.options) (hcontext : ∀ k, x'.context k = x.context k)
    (hsize : x'.trees.size = x.trees.size)
    (hother : ∀ k, g.state? x.options.numStates ≠ some k → x'.trees[k]? = x.trees[k]?)
    (hblock : ∀ header opening body closing, g = .braced header opening body closing →
      ∃ state t, stateIndex 0 x.options.numStates header.toList = .ok state ∧
        (Segment.filled body ≠ [] → Tells (x.context state) (Segment.filled body) t) ∧
        x'.trees[state]? = some (some t)) :
    x'.Stored (segments ++ [g]) where
  size := by rw [hsize, hoptions, h.size]
  placed := by
    intro g' hg'
    rcases List.mem_append.mp hg' with hg' | hg'
    · exact h.placed g' hg'
    · rwa [List.mem_singleton.mp hg']
  blocks := by
    intro before header opening body closing after heq
    rw [hoptions]
    rcases List.eq_nil_or_concat after with rfl | ⟨after, last, rfl⟩
    · obtain ⟨-, hlast⟩ := List.append_inj' heq rfl
      obtain ⟨state, t, hstate, htells, htree⟩ := hblock _ _ _ _ (List.singleton_inj.mp hlast)
      exact ⟨state, t, hstate, fun hne => by rw [hcontext]; exact htells hne, fun _ => htree⟩
    · rw [List.concat_eq_append, ← List.cons_append, ← List.append_assoc] at heq
      obtain ⟨hbefore, hlast⟩ := List.append_inj' heq rfl
      obtain rfl := List.singleton_inj.mp hlast
      obtain ⟨state, t, hstate, htells, hstored⟩ := h.blocks _ _ _ _ _ _ hbefore
      refine ⟨state, t, hstate, fun hne => by rw [hcontext]; exact htells hne, fun hafter => ?_⟩
      rw [List.concat_eq_append] at hafter
      rw [hother state (hafter g (by simp))]
      exact hstored fun g' hg' => hafter g' (List.mem_append_left _ hg')

theorem Stored.skipped {text : String} (h : x.Stored segments)
    (htext : Segment.isHeader text = false) : x.Stored (segments ++ [.skipped text]) :=
  h.append htext rfl (fun _ => rfl) rfl (fun _ _ => rfl) (by simp)

theorem getElem?_store {state k : Nat} {t : Cart} (h : state < x.trees.size) :
    (x.store state t).trees[k]? = if state = k then some (some t) else x.trees[k]? := by
  rw [store, Array.getElem?_setIfInBounds]
  simp only [h, if_true]

/-- A block gives the state of its header a tree. -/
theorem Stored.store (h : x.Stored segments) {g : Segment} (hg : g.WellPlaced)
    {header : String} (hheader : g.header? = some header) {state : Nat}
    (hstate : stateIndex 0 x.options.numStates header.toList = .ok state) {t : Cart}
    (htells : ∀ header opening body closing, g = .braced header opening body closing →
      Segment.filled body ≠ [] → Tells (x.context state) (Segment.filled body) t) :
    (x.store state t).Stored (segments ++ [g]) := by
  have hlt : state < x.trees.size := h.size ▸ stateIndex_lt hstate
  refine h.append hg rfl (fun _ => rfl) (Array.size_setIfInBounds ..) (fun k hk => ?_)
    fun header' opening body closing heq => ?_
  · rw [getElem?_store hlt, if_neg]
    rintro rfl
    exact hk (by simp [Segment.state?, hheader, hstate, Except.toOption])
  · have hsame : header' = header := by
      rw [heq] at hheader
      exact Option.some_inj.mp hheader
    rw [hsame]
    exact ⟨state, t, hstate, htells _ _ _ _ heq, (getElem?_store hlt).trans (if_pos rfl)⟩

/-! ### All lines of a file -/

/-- The lines since the last part that is complete. -/
def Pending (x : Scan) (rest : List String) : Prop :=
  match x.mode with
  | .between => rest = []
  | .afterHeader _ state => ∃ header, rest = [header] ∧ Segment.isHeader header = true ∧
      stateIndex 0 x.options.numStates header.toList = .ok state
  | .within a => ∃ header opening body, ∃ numbered : List (String × Nat),
      rest = header :: opening :: body ∧
      Segment.isHeader header = true ∧
      stateIndex 0 x.options.numStates header.toList = .ok a.context.state ∧
      opening.toList.contains '\x7b' = true ∧
      (∀ line ∈ body, line.toList.contains '\x7d' = false) ∧
      numbered.map Prod.fst = Segment.filled body ∧
      numbered.foldlM StateAssembly.addNumbered (StateAssembly.start (x.context a.context.state)) =
        .ok a

/-- The file as far as it was read: parts that are complete, and the lines since. -/
def Covers (x : Scan) (lines : List String) : Prop :=
  ∃ segments rest, lines = segments.flatMap Segment.lines ++ rest ∧ x.Stored segments ∧
    x.Pending rest

/-- A part that is complete takes up the lines since the last one. -/
theorem Stored.covers {g : Segment} (h : x.Stored (segments ++ [g])) (hmode : x.mode = .between)
    (hlines : g.lines = lines) : x.Covers (segments.flatMap Segment.lines ++ lines) := by
  refine ⟨segments ++ [g], [], by simp [hlines], h, ?_⟩
  rw [Pending, hmode]

/-- A line within braces. -/
theorem Pending.within {a : StateAssembly} (hmode : x.mode = .within a) (h : x.Pending rest)
    (hclosing : line.1.toList.contains '\x7d' = false) {a' : StateAssembly}
    (hrun : if Text.allBlank line.1 then a' = a else a.addNumbered line = .ok a') :
    Pending { x with mode := .within a' } (rest ++ [line.1]) := by
  rw [Pending, hmode] at h
  obtain ⟨header, opening, body, numbered, rfl, hheader, hstate, hopening, hbody, hnumbered,
    hbefore⟩ := h
  have hbody' : ∀ l ∈ body ++ [line.1], l.toList.contains '\x7d' = false := by
    intro l hl
    rcases List.mem_append.mp hl with hl | hl
    · exact hbody l hl
    · rwa [List.mem_singleton.mp hl]
  by_cases hblank : Text.allBlank line.1 = true
  · rw [if_pos hblank] at hrun
    subst hrun
    refine ⟨header, opening, body ++ [line.1], numbered, rfl, hheader, hstate, hopening, hbody', ?_,
      hbefore⟩
    rw [hnumbered, Segment.filled_concat, if_pos hblank, List.append_nil]
  · rw [if_neg hblank] at hrun
    have hafter : (numbered ++ [line]).foldlM StateAssembly.addNumbered
        (StateAssembly.start (x.context a.context.state)) = .ok a' := by
      rw [List.foldlM_append]
      exact bind_eq_ok_iff.mpr ⟨a, hbefore, bind_eq_ok_iff.mpr ⟨a', hrun, rfl⟩⟩
    -- the lines of a block do not change its state
    have hsame : a'.context.state = a.context.state := by
      obtain ⟨-, -, -, -, -, hcontext⟩ :=
        (StateAssembly.follows_start _).addLines _ (.inl rfl) hafter
      rw [hcontext]
      rfl
    refine ⟨header, opening, body ++ [line.1], numbered ++ [line], rfl, hheader, ?_, hopening,
      hbody', ?_, ?_⟩
    · rwa [hsame]
    · rw [List.map_append, hnumbered, Segment.filled_concat, if_neg hblank]
      rfl
    · rwa [hsame]

/-- One more line of a file. -/
theorem Covers.step (h : x.Covers lines) (hstep : x.Step line x') :
    x'.Covers (lines ++ [line.1]) := by
  obtain ⟨segments, rest, rfl, hstored, hpending⟩ := h
  rw [List.append_assoc]
  have hpending' := hpending
  rw [Pending] at hpending'
  cases hstep with
  | skip hmode hheader =>
    rw [hmode] at hpending'
    subst hpending'
    exact (hstored.skipped hheader).covers hmode rfl
  | header hmode hheader hstate =>
    rw [hmode] at hpending'
    subst hpending'
    exact ⟨segments, _, rfl, hstored.setMode _, line.1, rfl, hheader, hstate⟩
  | @opening number state hmode hopening =>
    rw [hmode] at hpending'
    obtain ⟨header, rfl, hheader, hstate⟩ := hpending'
    exact ⟨segments, _, rfl, hstored.setMode _, header, line.1, [], [], rfl, hheader, hstate,
      hopening, by simp, rfl, rfl⟩
  | @leaf number state t hmode hopening =>
    rw [hmode] at hpending'
    obtain ⟨header, rfl, hheader, hstate⟩ := hpending'
    have hg : Segment.WellPlaced (.single header line.1) := ⟨hheader, hopening⟩
    exact (hstored.store hg rfl hstate (by simp)).covers rfl rfl
  | @closing a t hmode hclosing ht =>
    rw [hmode] at hpending'
    obtain ⟨header, opening, body, numbered, rfl, hheader, hstate, hopening, hbody, hnumbered,
      hrun⟩ := hpending'
    have hg : Segment.WellPlaced (.braced header opening body line.1) :=
      ⟨hheader, hopening, hbody, hclosing⟩
    refine (hstored.store hg rfl hstate fun _ _ body' _ heq hne => ?_).covers rfl rfl
    obtain ⟨-, -, rfl, -⟩ := Segment.braced.inj heq
    rw [← hnumbered] at hne ⊢
    exact StateAssembly.tells_of_finish (by simpa using hne) hrun ht
  | blank hmode hclosing hblank =>
    have hwithin := hpending.within hmode hclosing (if_pos hblank |>.mpr rfl)
    rw [← hmode] at hwithin
    exact ⟨segments, _, rfl, hstored, hwithin⟩
  | rule hmode hclosing hblank hrun =>
    exact ⟨segments, _, rfl, hstored.setMode _,
      hpending.within hmode hclosing (by rw [if_neg (by simp [hblank])]; exact hrun)⟩

theorem Covers.addLines (lines : List (String × Nat)) :
    ∀ {x : Scan} {before : List String}, x.Covers before → lines.foldlM Scan.addLine x = .ok x' →
      x'.Covers (before ++ lines.map Prod.fst) ∧ x'.options = x.options ∧
        ∀ k, x'.context k = x.context k := by
  induction lines with
  | nil =>
    intro x before h hrun
    obtain rfl : x = x' := Except.ok.inj hrun
    exact ⟨by simpa using h, rfl, fun _ => rfl⟩
  | cons line lines ih =>
    intro x before h hrun
    rw [List.foldlM_cons] at hrun
    obtain ⟨x₁, hline, hrun⟩ := bind_eq_ok_iff.mp hrun
    have hstep := step_of_addLine hline
    obtain ⟨hoptions₁, hcontext₁⟩ := hstep.frame
    obtain ⟨h', hoptions', hcontext'⟩ := ih (h.step hstep) hrun
    rw [List.map_cons, List.append_cons]
    exact ⟨h', hoptions'.trans hoptions₁, fun k => (hcontext' k).trans (hcontext₁ k)⟩

end Scan

/-- The trees of a file mean what its lines say.  After its questions an accepted file has
one cut into parts, of which those in braces are the blocks of states.  The lines of every
block that has any tell of the tree that is read from them, and the tree of a state is
that of its last block.  A line is referred to by its id in digits after a minus sign, and
a leaf by a name that ends in an underscore, its number and a quotation mark. -/
theorem tells_of_ofText {s : Schema} {o : Options} {tables : Option PdfTables}
    {bytes : List UInt8} {r : StateTrees} (h : ofText s o tables bytes = .ok r) :
    (∃ texts segments, (Text.byteLines bytes).mapM decodeLine = .ok texts ∧
      Segment.Cuts segments (texts.dropWhile isQuestion) ∧
      (∀ other, Segment.Cuts other (texts.dropWhile isQuestion) → other = segments) ∧
      ∀ before header opening body closing after,
        segments = before ++ .braced header opening body closing :: after →
        ∃ state t, stateIndex 0 o.numStates header.toList = .ok state ∧
          (Segment.filled body ≠ [] →
            Tells ⟨s, o.translator, state, tables⟩ (Segment.filled body) t) ∧
          ((∀ g ∈ after, g.state? o.numStates ≠ some state) → r.trees[state]? = some t)) ∧
    ∀ n < 0x100000000, Reference.ofName? ('-' :: (toString n).toList) = some (.line n) ∧
      ∀ front : List Char, front.head? ≠ some '-' →
        Reference.ofName? (front ++ '_' :: ((toString n).toList ++ ['"'])) = some (.leaf n) := by
  refine ⟨?_, fun n hn => ⟨Reference.ofName?_line hn, fun _ => Reference.ofName?_leaf hn⟩⟩
  rw [ofText] at h
  split at h
  · exact absurd h (by simp)
  · obtain ⟨texts, htexts, h⟩ := bind_eq_ok_iff.mp h
    obtain ⟨x, hx, h⟩ := bind_eq_ok_iff.mp h
    have hstart : Scan.Covers ⟨s, o, tables, Array.replicate o.numStates none, .between⟩ [] := by
      refine ⟨[], [], rfl, ⟨Array.size_replicate, by simp, ?_⟩, rfl⟩
      intro before header opening body closing after heq
      exact absurd heq (by simp)
    obtain ⟨⟨segments, rest, hlines, hstored, hpending⟩, hoptions, hcontext⟩ :=
      hstart.addLines _ hx
    rw [Scan.finish] at h
    rw [Scan.Pending] at hpending
    split at h
    · next hmode =>
      rw [hmode] at hpending
      subst hpending
      obtain rfl := Except.ok.inj h
      have hcut : Segment.Cuts segments (texts.dropWhile isQuestion) := by
        refine ⟨?_, hstored.placed⟩
        rw [List.nil_append, List.append_nil] at hlines
        rw [← List.zipIdx_map_fst 1 texts, List.dropWhile_map]
        exact hlines.symm
      refine ⟨texts, segments, htexts, hcut, fun _ => hcut.unique, ?_⟩
      intro before header opening body closing after heq
      obtain ⟨state, t, hstate, htells, htree⟩ := hstored.blocks _ _ _ _ _ _ heq
      rw [hoptions] at hstate htree
      rw [hcontext] at htells
      refine ⟨state, t, hstate, htells, fun hafter => ?_⟩
      rw [List.getElem?_map, Array.getElem?_toList, htree hafter]
      rfl
    · exact absurd h (by simp)
    · exact absurd h (by simp)

/-- The lines of a block with two questions. -/
def sampleBody : List String := ["0 phone=a -1 \"x_1\"", "-1 pos=n \"x_2\" \"x_1\""]

/-- The block between a line of the questions and a blank line. -/
def sampleLines : List String := "QS" :: "\x7b*\x7d[2]" :: "\x7b" :: (sampleBody ++ ["\x7d", ""])

/-- A leaf that two lines name is there twice. -/
theorem tells_of_ofText_sample :
    ∃ r t, ofText Sample.schema ⟨1, .standard⟩ none
        (Text.Utf8.encode (String.join (sampleLines.map (· ++ "\n")))) = .ok r ∧
      r.trees[0]? = some t ∧ Tells ⟨Sample.schema, .standard, 0, none⟩ sampleBody t ∧
      t.arena.nodes.countP Node.isDecision = 2 ∧ t.arena.nodes.countP Node.isLeaf = 3 := by
  set bytes := Text.Utf8.encode (String.join (sampleLines.map (· ++ "\n")))
  have haccepted : (ofText Sample.schema ⟨1, .standard⟩ none bytes).toOption.isSome = true := by
    decide +kernel
  cases hr : ofText Sample.schema ⟨1, .standard⟩ none bytes with
  | error e => simp [hr, Except.toOption] at haccepted
  | ok r =>
    obtain ⟨⟨texts, segments, htexts, -, hunique, hblocks⟩, -⟩ := tells_of_ofText hr
    have hlines : (Text.byteLines bytes).mapM decodeLine = .ok sampleLines := by
      decide +kernel
    obtain rfl := Except.ok.inj (htexts.symm.trans hlines)
    obtain rfl : [.braced "\x7b*\x7d[2]" "\x7b" sampleBody "\x7d", .skipped ""] = segments :=
      hunique _ (by decide +kernel)
    obtain ⟨state, t, hstate, htells, htree⟩ := hblocks [] _ _ _ _ _ rfl
    have hzero : stateIndex 0 1 "\x7b*\x7d[2]".toList = .ok 0 := by decide +kernel
    obtain rfl : 0 = state := Except.ok.inj (hzero.symm.trans hstate)
    have hfilled : Segment.filled sampleBody = sampleBody := by decide +kernel
    rw [hfilled] at htells
    obtain ⟨rules, hrules, -, hdecisions, hleaves⟩ := htells (by decide)
    have hcount : ((sampleBody.mapM (Context.rule? ⟨Sample.schema, .standard, 0, none⟩)).map
        fun rules => (rules.flatMap Rule.references).countP Reference.isLeaf) = some 3 := by
      decide +kernel
    rw [hrules] at hcount
    exact ⟨r, t, rfl, htree (by decide), htells (by decide), hdecisions,
      hleaves.trans (Option.some_inj.mp hcount)⟩

end FeatureTree.Hts
