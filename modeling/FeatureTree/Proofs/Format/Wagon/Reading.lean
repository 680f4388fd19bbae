/-
Reading the lines of a tree one after the other.

The decisions that are open form a path from the one that gets the next child up to
the root.  The lines of an outline add its nodes below the first decision of the path
and then close as many decisions as the last of them has brackets for.

* `Wagon.Assembly.OpenAt.close` — closing some of the open decisions;
* `Wagon.Assembly.Yields` — reading lines comes to a good end;
* `Wagon.Assembly.Added` — outlines that were added below a decision;
* `Wagon.Assembly.readsBack` — the lines of an outline add what is read back of it.
-/
import FeatureTree.Proofs.Format.Wagon.Assembly
import FeatureTree.Proofs.Format.Wagon.Writing
import FeatureTree.Proofs.Stream.Reads
import FeatureTree.Proofs.Tree.GrownOutline

namespace FeatureTree

open Text

namespace Wagon

namespace Assembly

variable {a a₁ a' : Assembly} {line n m k : Nat} {x : Option NodeContent} {p : NodeId}
  {path : List NodeId}

/-! ### Decisions that are closed -/

/-- Everything but the nodes and the open decisions is as before. -/
structure SameFrame (a a' : Assembly) : Prop where
  schema : a'.schema = a.schema
  kind : a'.kind = a.kind
  symbolFeature : a'.symbolFeature = a.symbolFeature
  hasRoot : a'.hasRoot = a.hasRoot

/-- What is open after closing this many decisions of a path. -/
def OpenAfter (a : Assembly) (path : List NodeId) (n : Nat) : Prop :=
  (n < path.length → a.OpenAt (path.drop n)) ∧ (n = path.length → a.openBrackets = 0)

/-- As many decisions of the path are closed as there are brackets. -/
theorem OpenAt.close (h : a.OpenAt path) (line : Nat) (hn : n ≤ path.length) :
    ∃ a', Assembly.close line a (List.replicate n ')') = .ok a' ∧ SameFrame a a' ∧
      a'.builder = a.builder ∧ a'.OpenAfter path n := by
  have hlength : (List.replicate n ')').length = n := List.length_replicate
  refine ⟨a.closed path n, ?_, ⟨rfl, rfl, rfl, rfl⟩, rfl, h.closed, ?_⟩
  · rw [h.close_eq_ok_iff, hlength]
    exact ⟨rfl, hn, rfl⟩
  · rintro rfl
    exact h.openBrackets_closed

/-! ### Runs that come to a good end -/

/-- Whatever the numbers of the lines are, reading them leads to a state of this kind. -/
def Yields : Assembly → List String → (Assembly → Prop) → Prop
  | a, [], Q => Q a
  | a, l :: ls, Q => ∀ line, ∃ a₁, a.addLine line l = .ok a₁ ∧ Yields a₁ ls Q

theorem Yields.append {ls ls' : List String} {Q R : Assembly → Prop} (h : a.Yields ls Q)
    (h' : ∀ a₁, Q a₁ → a₁.Yields ls' R) : a.Yields (ls ++ ls') R := by
  induction ls generalizing a with
  | nil => exact h' a h
  | cons l ls ih =>
    intro line
    obtain ⟨a₁, hline, hrest⟩ := h line
    exact ⟨a₁, hline, ih hrest⟩

theorem Yields.imp {ls : List String} {Q R : Assembly → Prop} (h : a.Yields ls Q)
    (himp : ∀ a₁, Q a₁ → R a₁) : a.Yields ls R := by
  have hall : a.Yields (ls ++ []) R := h.append himp
  rwa [List.append_nil] at hall

/-! ### Nodes below an open decision -/

/-- The state among the lines of a tree: what was read is part of a tree over the
schema. -/
structure Growing (s : Schema) (kind : WagonKind) (symbol : Option Nat) (a : Assembly) : Prop where
  schema : a.schema = s
  builderSchema : a.builder.schema = s
  isKind : a.kind = kind
  symbolFeature : a.symbolFeature = symbol
  treelike : a.builder.Treelike
  suited : a.builder.Suited kind.leafKind

/-- The first decision of the path has got its first children, and gets the next one. -/
structure Ready (a : Assembly) (path : List NodeId) (p : NodeId) (d : Decision)
    (done : List (Option NodeId)) (k : Nat) : Prop where
  openAt : a.OpenAt path
  first : path.head? = some p
  content : a.builder.content? p = some (.decision d)
  children : d.children.toList = done ++ List.replicate k none
  filled : a.builder.filledSlots p = done.length

/-- The children of a decision, of which the first ones are known. -/
def withChildren (d : Decision) (slots : List (Option NodeId)) (k : Nat) : Decision :=
  { d with children := (slots ++ List.replicate k none).toArray }

/-- Outlines were added to the children of a decision, and then so many decisions were
closed; `k` slots are left. -/
structure Added (a a' : Assembly) (path : List NodeId) (p : NodeId) (d : Decision)
    (done : List (Option NodeId)) (xs : List Outline) (k n : Nat) : Prop where
  grows : a.builder.Extends a'.builder p
  openAfter : a'.OpenAfter path n
  children : ∃ slots, List.Forall₂ (a'.builder.Shows a.builder.size) slots xs ∧
    a'.builder.content? p = some (.decision (withChildren d (done ++ slots) k)) ∧
    a'.builder.filledSlots p = (done ++ slots).length

variable {s : Schema} {kind : WagonKind} {symbol : Option Nat} {d : Decision}
  {done : List (Option NodeId)}

/-- A node, or nothing, was put into the next slot. -/
structure Grown (a a' : Assembly) (p : NodeId) (d : Decision) (done : List (Option NodeId))
    (x : Option NodeContent) (k : Nat) : Prop where
  builder : a'.builder = a.builder.extend p d x
  grows : a.builder.Extends a'.builder p
  content : a'.builder.content? p =
    some (.decision (withChildren d (done ++ [a.builder.newId? x]) k))
  filled : a'.builder.filledSlots p = done.length + 1

theorem setIfInBounds_of_children {slot : Option NodeId}
    (h : d.children.toList = done ++ List.replicate (k + 1) none) :
    d.children.setIfInBounds done.length slot =
      (done ++ [slot] ++ List.replicate k none).toArray := by
  refine Array.toList_inj.mp ?_
  rw [Array.toList_setIfInBounds, h, List.set_append_right _ _ (Nat.le_refl _), Nat.sub_self,
    List.replicate_succ, List.set_cons_zero, List.append_assoc]
  rfl

/-- The next node in its place. -/
theorem Ready.put (hg : a.Growing s kind symbol) (hr : a.Ready path p d done (k + 1))
    (hx : Builder.Childless x) (hdecision : ∀ e, x = some (.decision e) → e.Suits s)
    (hleaf : ∀ payload, x = some (.leaf payload) → payload.kind = kind.leafKind) (line : Nat) :
    ∃ a', { a with lastLine := line }.put line x = .ok a' ∧ a'.Growing s kind symbol ∧
      a'.OpenAt path ∧ a.Grown a' p d done x k := by
  have hp := Arena.lt_size_of_content? hr.content
  -- the slots still empty are those after the filled ones
  have hfree : a.builder.filledSlots p < d.children.size := by
    rw [hr.filled, ← Array.length_toList, hr.children, List.length_append, List.length_replicate]
    omega
  have hcursor : { a with lastLine := line }.cursor = some p := hr.openAt.cursor.trans hr.first
  have hgrows := Builder.extends_extend (d := d) (x := x) hg.treelike.inOrder hp
  refine ⟨{ a with lastLine := line, builder := a.builder.extend p d x }, ?_, ?_,
    ⟨hr.openAt.cursor, hgrows.isPath hr.openAt.isPath, hr.openAt.brackets⟩, ?_⟩
  · refine (put_below_eq_ok_iff hcursor).mpr ⟨d, ?_, hfree, rfl⟩
    exact (Builder.content?_grown hp).trans hr.content
  · exact
      { schema := hg.schema
        builderSchema := Builder.schema_extend.trans hg.builderSchema
        isKind := hg.isKind
        symbolFeature := hg.symbolFeature
        treelike := hg.treelike.extend hr.content hfree hx
        suited := hg.suited.extend hr.content
          (fun e he => hg.builderSchema ▸ hdecision e he) hleaf }
  · refine ⟨rfl, hgrows, ?_, ?_⟩
    · show (a.builder.extend p d x).content? p = _
      rw [Builder.content?_extend hp, if_pos rfl, hr.filled, setIfInBounds_of_children hr.children]
      rfl
    · show (a.builder.extend p d x).filledSlots p = _
      rw [Builder.filledSlots_extend hg.treelike.inOrder hp, if_pos rfl, hr.filled]

/-- What a line without a decision adds, and the outline below its slot. -/
inductive Records (kind : WagonKind) : Option NodeContent → Outline → Prop
  | empty : Records kind none .empty
  | leaf {payload : Payload} : payload.kind = kind.leafKind →
      Records kind (some (.leaf payload)) (.leaf payload)

theorem Records.childless {y : Outline} (h : Records kind x y) : Builder.Childless x := by
  cases h with
  | empty => exact Builder.childless_none
  | leaf _ => exact Builder.childless_leaf _

theorem Records.shows {y : Outline} {b : Builder} (h : Records kind x y) (hp : p < b.size) :
    (b.extend p d x).Shows b.size (b.newId? x) y := by
  cases h with
  | empty => exact .empty _ _
  | leaf _ =>
    refine .leaf (Nat.le_refl _) ?_
    rw [Builder.content?_extend hp, if_neg (Nat.ne_of_gt hp), if_pos rfl]

/-- A line that adds a leaf or nothing, and closes decisions after it. -/
theorem yields_record {l : String} {y : Outline} (hg : a.Growing s kind symbol)
    (hr : a.Ready path p d done (k + 1)) (hn : n ≤ path.length) (hx : Records kind x y)
    (hline : ∀ line, a.addLine line l = (do
      let a₁ ← { a with lastLine := line }.put line x
      Assembly.close line a₁ (List.replicate n ')'))) :
    a.Yields [l] fun a' => a'.Growing s kind symbol ∧ a.Added a' path p d done [y] k n := by
  intro line
  have hp := Arena.lt_size_of_content? hr.content
  obtain ⟨a₁, hput, hg₁, hopen₁, hgrown⟩ := hr.put hg hx.childless (by
      rintro e rfl
      cases hx)
    (by
      rintro payload rfl
      cases hx with
      | leaf hkind => exact hkind) line
  obtain ⟨a', hclose, hframe, hbuilder, hopen⟩ := hopen₁.close line hn
  have hbuilder' : a'.builder = a.builder.extend p d x := hbuilder.trans hgrown.builder
  refine ⟨a', ?_, ?_, ?_⟩
  · rw [hline, hput]
    exact hclose
  · exact
      { schema := hframe.schema.trans hg₁.schema
        builderSchema := hbuilder ▸ hg₁.builderSchema
        isKind := hframe.kind.trans hg₁.isKind
        symbolFeature := hframe.symbolFeature.trans hg₁.symbolFeature
        treelike := hbuilder ▸ hg₁.treelike
        suited := hbuilder ▸ hg₁.suited }
  · refine ⟨hbuilder ▸ hgrown.grows, hopen, [a.builder.newId? x], ?_, ?_, ?_⟩
    · exact .cons (hbuilder' ▸ hx.shows hp) .nil
    · rw [hbuilder]
      exact hgrown.content
    · rw [hbuilder, hgrown.filled, List.length_append]
      rfl

/-- A line that adds a decision below the first one of the path, and opens it. -/
theorem Ready.decision {l : String} {e : Decision} (hg : a.Growing s kind symbol)
    (hr : a.Ready path p d done (k + 1)) (hsuits : e.Suits s)
    (hnone : e.children.toList = List.replicate m none)
    (hline : ∀ line, a.addLine line l = (do
      let a₁ ← { a with lastLine := line }.put line (some (.decision e))
      return { a₁ with cursor := some a.builder.size, openBrackets := a₁.openBrackets + 1 }))
    (line : Nat) :
    ∃ a', a.addLine line l = .ok a' ∧ a'.Growing s kind symbol ∧
      a'.Ready (a.builder.size :: path) a.builder.size e [] m ∧
      a.Grown a' p d done (some (.decision e)) k := by
  have hp := Arena.lt_size_of_content? hr.content
  obtain ⟨a₁, hput, hg₁, hopen, hgrown⟩ := hr.put hg (Builder.childless_of_replicate hnone)
    (by
      intro e' he'
      obtain rfl : e = e' := by simpa using he'
      exact hsuits) (by simp) line
  refine ⟨{ a₁ with cursor := some a.builder.size, openBrackets := a₁.openBrackets + 1 },
    ?_, ?_, ?_,
    ?_⟩
  · rw [hline, hput]
    rfl
  · exact ⟨hg₁.schema, hg₁.builderSchema, hg₁.isKind, hg₁.symbolFeature, hg₁.treelike, hg₁.suited⟩
  · have hcontent : a₁.builder.content? a.builder.size = some (.decision e) := by
      rw [hgrown.builder, Builder.content?_extend hp, if_neg (Nat.ne_of_gt hp), if_pos rfl]
    have hlink : a₁.builder.parentLink? a.builder.size = some (some p, false) := by
      rw [hgrown.builder, Builder.parentLink?_extend_new]
    have hfilled : a₁.builder.filledSlots a.builder.size = 0 := by
      rw [hgrown.builder, Builder.filledSlots_extend hg.treelike.inOrder hp,
        if_neg (Nat.ne_of_gt hp), Builder.filledSlots_eq_zero hg.treelike.inOrder (Nat.le_refl _)]
    have hpath : a₁.builder.Path (a.builder.size :: path) := by
      obtain ⟨rest, rfl⟩ := List.head?_eq_some_iff.mp hr.first
      exact .child hlink hopen.isPath
    refine ⟨⟨rfl, hpath, ?_⟩, rfl, hcontent, hnone, hfilled⟩
    show a₁.openBrackets + 1 = (a.builder.size :: path).length
    rw [hopen.brackets, List.length_cons]
  · exact ⟨hgrown.builder, hgrown.grows, hgrown.content, hgrown.filled⟩

/-- The children that a decision got are part of what was added with it. -/
theorem Grown.added {e : Decision} {ys : List Outline} (hp : p < a.builder.size)
    (h : a.Grown a₁ p d done (some (.decision e)) k)
    (h' : a₁.Added a' (a.builder.size :: path) a.builder.size e [] ys 0 (n + 1)) :
    a.Added a' path p d done [.branch e.feature e.test ys] k n := by
  obtain ⟨hgrows, hopen, slots, hshows, hcontent, -⟩ := h'
  have hp₁ : p < a₁.builder.size := Nat.lt_of_lt_of_le hp h.grows.size_le
  have hne : p ≠ a.builder.size := Nat.ne_of_lt hp
  have hchildren : (withChildren e ([] ++ slots) 0).children.toList = slots := by
    simp [withChildren]
  refine ⟨h.grows.below hgrows (Nat.le_refl _), ⟨?_, ?_⟩, [some a.builder.size], ?_, ?_, ?_⟩
  · intro hlt
    exact hopen.1 (Nat.succ_lt_succ hlt)
  · intro heq
    exact hopen.2 (congrArg (· + 1) heq)
  · have hlist : List.Forall₂ (a'.builder.Shows a.builder.size)
        (withChildren e ([] ++ slots) 0).children.toList ys := by
      rw [hchildren]
      exact hshows.imp fun _ _ hs => hs.mono h.grows.size_le (Nat.le_refl _) fun _ _ _ => rfl
    have hbranch := Builder.Shows.branch (Nat.le_refl _) hcontent hlist
    exact .cons hbranch .nil
  · rw [hgrows.content p hp₁ hne, h.content]
    rfl
  · rw [hgrows.filled p hp₁ hne, h.filled, List.length_append]
    rfl

/-- With no decision closed the next children can be added, and count as added with
those before. -/
theorem Added.ready {xs : List Outline} (hp : p < a.builder.size) (hfirst : path.head? = some p)
    (h : a.Added a₁ path p d done xs m 0) :
    ∃ d' done', a₁.Ready path p d' done' m ∧ ∀ (a' : Assembly) (ys : List Outline) (k n : Nat),
      a₁.Added a' path p d' done' ys k n → a.Added a' path p d done (xs ++ ys) k n := by
  obtain ⟨hgrows, hopen, slots, hshows, hcontent, hfilled⟩ := h
  have hpos : 0 < path.length := by
    obtain ⟨rest, rfl⟩ := List.head?_eq_some_iff.mp hfirst
    exact Nat.succ_pos _
  refine ⟨withChildren d (done ++ slots) m, done ++ slots,
    ⟨hopen.1 hpos, hfirst, hcontent, rfl, hfilled⟩, ?_⟩
  rintro a' ys k n ⟨hgrows', hopen', slots', hshows', hcontent', hfilled'⟩
  refine ⟨hgrows.trans hgrows', hopen', slots ++ slots', ?_, ?_, ?_⟩
  · refine List.rel_append ?_ ?_
    · refine hshows.imp fun _ _ hs => hs.mono (Nat.le_refl _) hgrows'.size_le fun u hu hlt => ?_
      exact hgrows'.content u hlt (Nat.ne_of_gt (Nat.lt_of_lt_of_le hp hu))
    · exact hshows'.imp fun _ _ hs => hs.mono hgrows.size_le (Nat.le_refl _) fun _ _ _ => rfl
  · rw [hcontent', ← List.append_assoc]
    rfl
  · rw [hfilled', List.append_assoc]

/-! ### Lines of an outline -/

theorem trimBy_bracketed {cs body : List Char} (hopening : cs = '(' :: '(' :: body)
    (hclosing : cs.getLast? = some ')') : trimBy isBlank cs = cs := by
  refine trimBy_eq_self (fun c hc => ?_) (fun c hc => ?_)
  · rw [hopening] at hc
    obtain rfl : '(' = c := Option.some_inj.mp hc
    decide
  · rw [hclosing] at hc
    obtain rfl : ')' = c := Option.some_inj.mp hc
    decide

/-- A line is read as it stands if it begins and ends with the brackets of a node. -/
theorem addLine_bracketed {l : String} {body : List Char} (hbody : l.toList = '(' :: '(' :: body)
    (hclosing : l.toList.getLast? = some ')') (line : Nat) :
    a.addLine line l =
      if isDecision body then { a with lastLine := line }.addDecisionLine line body
      else { a with lastLine := line }.addLeafLine line l.toList := by
  have hstart : startsWith? ['(', '('] ('(' :: '(' :: body) = some body := startsWith?_append _ _
  rw [addLine, trimBy_bracketed hbody hclosing, hbody]
  simp only [hstart]

theorem addLine_nodeLine {l : String} {body : List Char} (h : IsNodeLine l)
    (hbody : l.toList = '(' :: '(' :: body) (line : Nat) :
    a.addLine line l =
      if isDecision body then { a with lastLine := line }.addDecisionLine line body
      else { a with lastLine := line }.addLeafLine line l.toList :=
  addLine_bracketed hbody h.closing line

/-- The line of a decision adds that decision and opens it. -/
theorem addLine_decisionLine (ha : a.schema = s) (hd : d.Suits s) (hl : d.Legible s)
    (line : Nat) :
    a.addLine line (decisionLine s d) = (do
      let a₁ ← { a with lastLine := line }.put line (some (.decision
        (Decision.ofSlots d.feature d.test.canonical d.children.size)))
      return { a₁ with cursor := some a.builder.size, openBrackets := a₁.openBrackets + 1 }) := by
  have htext : (decisionLine s d).toList = '(' :: '(' :: ((testText s d).toList ++ [')']) := by
    rw [decisionLine, String.toList_append, String.toList_append]
    rfl
  have hsolid : ∀ m, s.get? d.feature = some m → ∀ c ∈ m.name.toList, isBlank c = false :=
    fun m hm => (hl.name m hm).solid
  rw [addLine_nodeLine (isNodeLine_decisionLine hd hl) htext, if_pos (isDecision_testText hd hl),
    addDecisionLine_eq]
  simp only [ha, parseDecision_testText hd line hsolid hl.value]
  rfl

theorem addLine_ofSlots {feature slots : Nat} {test : DecisionTest} (ha : a.schema = s)
    (hd : (Decision.ofSlots feature test slots).Suits s)
    (hl : (Decision.ofSlots feature test slots).Legible s) (line : Nat) :
    a.addLine line (decisionLine s (Decision.ofSlots feature test slots)) = (do
      let a₁ ← { a with lastLine := line }.put line (some (.decision
        (Decision.ofSlots feature test.canonical slots)))
      return { a₁ with cursor := some a.builder.size, openBrackets := a₁.openBrackets + 1 }) := by
  have hsize : (Decision.ofSlots feature test slots).children.size = slots := Array.size_replicate
  rw [addLine_decisionLine ha hd hl, hsize]
  rfl

/-- The line of a leaf adds what is read back of it, and closes decisions. -/
theorem addLine_record {payload : Payload} {written : String} (hkind : payload.kind = kind.leafKind)
    (hl : payload.Legible) (htext : leafText payload = .ok written) (ha : a.kind = kind)
    (hsymbol : a.symbolFeature = symbol) (line : Nat) :
    a.addLine line (written ++ closing n) = (do
      let a₁ ← { a with lastLine := line }.put line (some (.leaf (payload.reread symbol)))
      Assembly.close line a₁ (List.replicate n ')')) := by
  have hrecord := toList_leafText htext n
  obtain ⟨body, hbody, hdecision, hregression⟩ := exists_body hkind hl n
  have hcontent : { a with lastLine := line }.leafContent? line (written ++ closing n).toList =
      .ok (some (.leaf (payload.reread symbol))) := by
    have hnot : ¬ (a.kind = .regression ∧
        startsWith emptyLeaf.toList (written ++ closing n).toList = true) := by
      rintro ⟨hk, hstart⟩
      obtain ⟨rest, hrest⟩ := startsWith_iff.mp hstart
      rw [hrecord, hbody] at hrest
      refine hregression (ha ▸ hk) ?_
      rw [show body = '(' :: _ from (List.cons.inj (List.cons.inj hrest).2).2]
      rfl
    rw [leafContent?, if_neg hnot, hrecord]
    simp only [ha, hsymbol, parseLeaf_record hkind hl]
    rfl
  rw [addLine_nodeLine (isNodeLine_record hkind hl htext n) (hrecord.trans hbody),
    if_neg (by simp [hdecision]), addLeafLine_eq, hcontent]
  simp only [hrecord, closeAfterLeaf_record _ hkind hl, bind, Except.bind]

/-- In a regression tree the record without entries stands for an empty slot. -/
theorem addLine_emptyLeaf (ha : a.kind = .regression) (line : Nat) :
    a.addLine line (emptyLeaf ++ closing n) = (do
      let a₁ ← { a with lastLine := line }.put line none
      Assembly.close line a₁ (List.replicate n ')')) := by
  have hkind : (Payload.indices []).kind = WagonKind.classification.leafKind := rfl
  have hl := legible_empty .indices
  have hwritten : leafText (.indices []) = .ok emptyLeaf := rfl
  have hrecord := toList_leafText hwritten n
  obtain ⟨body, hbody, hdecision, -⟩ := exists_body hkind hl n
  have hcontent : { a with lastLine := line }.leafContent? line (emptyLeaf ++ closing n).toList =
      .ok none := by
    refine if_pos ⟨ha, ?_⟩
    rw [String.toList_append]
    exact startsWith_iff.mpr ⟨_, rfl⟩
  rw [addLine_nodeLine (isNodeLine_emptyLeaf n) (hrecord.trans hbody),
    if_neg (by simp [hdecision]), addLeafLine_eq, hcontent]
  simp only [hrecord, closeAfterLeaf_record _ hkind hl, bind, Except.bind]

/-- The lines of an outline, read below an open decision, add what is read back of it
there and close decisions. -/
def ReadsBack (s : Schema) (kind : WagonKind) (symbol : Option Nat) (x : Outline) : Prop :=
  ∀ ⦃a : Assembly⦄ ⦃path : List NodeId⦄ ⦃p : NodeId⦄ ⦃d : Decision⦄ ⦃done : List (Option NodeId)⦄
    ⦃k n : Nat⦄ ⦃ls : List String⦄, x.lines s n = .ok ls → a.Growing s kind symbol →
      a.Ready path p d done (k + 1) → n ≤ path.length →
        a.Yields ls fun a' => a'.Growing s kind symbol ∧
          a.Added a' path p d done [x.reread kind symbol] k n

/-- The children of a decision are read back one after the other, and the last one
closes the decision. -/
theorem yields_linesOfAll {xs : List Outline} {ls : List String}
    (h : ∀ x ∈ xs, ReadsBack s kind symbol x) (hne : xs ≠ [])
    (hls : Outline.linesOfAll s xs n = .ok ls) (hg : a.Growing s kind symbol)
    (hr : a.Ready path p d done xs.length) (hn : n + 1 ≤ path.length) :
    a.Yields ls fun a' => a'.Growing s kind symbol ∧
      a.Added a' path p d done (xs.map fun x => x.reread kind symbol) 0 (n + 1) := by
  induction xs generalizing a d done ls with
  | nil => exact absurd rfl hne
  | cons x xs ih =>
    have hx := h x List.mem_cons_self
    cases xs with
    | nil => exact hx hls hg hr hn
    | cons y xs =>
      rw [Outline.linesOfAll] at hls
      obtain ⟨first, hfirst, hls⟩ := bind_eq_ok_iff.mp hls
      obtain ⟨rest, hrest, hls⟩ := bind_eq_ok_iff.mp hls
      obtain rfl : first ++ rest = ls := Except.ok.inj hls
      have hp := Arena.lt_size_of_content? hr.content
      -- only the last child closes anything
      refine (hx hfirst hg hr (Nat.zero_le _)).append fun a₁ hread => ?_
      obtain ⟨hg₁, hadded⟩ := hread
      obtain ⟨d', done', hr₁, hjoin⟩ := hadded.ready hp hr.first
      refine (ih (fun z hz => h z (List.mem_cons_of_mem _ hz)) (by simp) hrest hg₁ hr₁).imp ?_
      rintro a' ⟨hg', hadded'⟩
      exact ⟨hg', hjoin a' _ 0 (n + 1) hadded'⟩

theorem kind_empty (k : LeafKind) : (Payload.empty k).kind = k := by
  cases k <;> rfl

theorem readsBack_empty : ReadsBack s kind symbol .empty := by
  intro a path p d done k n ls hls hg hr hn
  obtain rfl := Except.ok.inj hls
  rw [Outline.reread]
  by_cases hkind : kind = .regression
  · rw [if_pos hkind]
    exact yields_record hg hr hn .empty fun line => addLine_emptyLeaf (hg.isKind.trans hkind) line
  · rw [if_neg hkind]
    have hempty := kind_empty kind.leafKind
    refine yields_record hg hr hn (.leaf ((Payload.kind_reread symbol _).trans hempty))
      fun line => ?_
    exact addLine_record hempty (legible_empty _) (leafText_empty hkind) hg.isKind
      hg.symbolFeature line

theorem readsBack_leaf {payload : Payload} (hkind : payload.kind = kind.leafKind)
    (hl : payload.Legible) : ReadsBack s kind symbol (.leaf payload) := by
  intro a path p d done k n ls hls hg hr hn
  obtain ⟨written, htext, hls⟩ := bind_eq_ok_iff.mp hls
  obtain rfl := Except.ok.inj hls
  rw [Outline.reread]
  refine yields_record hg hr hn (.leaf ((Payload.kind_reread symbol _).trans hkind)) fun line => ?_
  exact addLine_record hkind hl htext hg.isKind hg.symbolFeature line

/-- The lines of a legible outline are read back. -/
theorem readsBack {x : Outline} (hx : x.Legible s kind) : ReadsBack s kind symbol x := by
  induction hx with
  | empty => exact readsBack_empty
  | leaf hkind hl => exact readsBack_leaf hkind hl
  | @branch feature test children hsuits hl _ ih =>
    intro a path p d done k n ls hls hg hr hn
    rw [Outline.lines] at hls
    obtain ⟨rest, hrest, hls⟩ := bind_eq_ok_iff.mp hls
    obtain rfl := Except.ok.inj hls
    have hp := Arena.lt_size_of_content? hr.content
    have hne : children ≠ [] := by
      rintro rfl
      exact Nat.lt_irrefl 0 hl.slots
    have hnone : (Decision.ofSlots feature test.canonical children.length).children.toList =
        List.replicate children.length none := Array.toList_replicate
    intro line
    obtain ⟨a₁, hline, hg₁, hr₁, hgrown⟩ := hr.decision hg hsuits.canonical hnone
      (addLine_ofSlots hg.schema hsuits hl) line
    refine ⟨a₁, hline, (yields_linesOfAll ih hne hrest hg₁ hr₁ (Nat.succ_le_succ hn)).imp ?_⟩
    rintro a' ⟨hg', hadded⟩
    rw [Outline.reread]
    exact ⟨hg', hgrown.added hp hadded⟩

end Assembly

end Wagon

end FeatureTree
