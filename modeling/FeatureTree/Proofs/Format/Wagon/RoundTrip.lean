/-
Trees survive the round trip through a text of bracketed lines.

The first line makes the root and the others add what lies below it, so after the last
one nothing is open and the tree is complete.  What comes back differs from what was
written where a record keeps less than a leaf, and it is written with the same text.

* `Wagon.Assembly.Completed` — a tree of which all lines were read;
* `Wagon.Assembly.yields_outline` — the lines of an outline complete a tree;
* `Wagon.Assembly.exists_foldlM` — and so do the encoded lines;
* `Wagon.exists_ofText` — the tree of the text of an outline;
* `Wagon.exists_ofText_toText` — the round trip.
-/
import FeatureTree.Proofs.Format.Wagon.Reading
import FeatureTree.Proofs.Text.Lines
import FeatureTree.Sample

namespace FeatureTree

open Text

namespace Wagon

namespace Assembly

variable {s : Schema} {kind : WagonKind} {symbol : Option Nat} {x : Outline} {ls : List String}

/-! ### The first line -/

/-- The state before the first line. -/
def fresh (s : Schema) (kind : WagonKind) (symbol : Option Nat) : Assembly :=
  { schema := s, kind := kind, symbolFeature := symbol, builder := Builder.empty s }

/-- The state after the first node. -/
def planted (s : Schema) (kind : WagonKind) (symbol : Option Nat) (y : NodeContent) (line : Nat) :
    Assembly :=
  { fresh s kind symbol with
    builder := Builder.planted s y
    hasRoot := true
    lastLine := line }

theorem put_fresh (y : NodeContent) (line : Nat) :
    { fresh s kind symbol with lastLine := line }.put line (some y) =
      .ok (planted s kind symbol y line) :=
  (put_first_eq_ok_iff rfl).mpr ⟨rfl, rfl⟩

/-- All lines of a tree were read: nothing is open, and the tree is found at the root. -/
structure Completed (a : Assembly) (x : Outline) : Prop where
  brackets : a.openBrackets = 0
  root : a.builder.root = some 0
  shows : a.builder.Shows 0 (some 0) x

/-- The only line of a tree that is a leaf. -/
theorem yields_leaf {payload : Payload} (hkind : payload.kind = kind.leafKind)
    (hl : payload.Legible) (hls : (Outline.leaf payload).lines s 0 = .ok ls) :
    (fresh s kind symbol).Yields ls fun a => a.Growing s kind symbol ∧
      a.Completed (.leaf (payload.reread symbol)) := by
  obtain ⟨written, htext, hls⟩ := bind_eq_ok_iff.mp hls
  obtain rfl := Except.ok.inj hls
  have hkind' : (payload.reread symbol).kind = kind.leafKind :=
    (Payload.kind_reread symbol _).trans hkind
  intro line
  refine ⟨planted s kind symbol (.leaf (payload.reread symbol)) line, ?_, ?_, ?_⟩
  · rw [addLine_record hkind hl htext rfl rfl line, put_fresh]
    rfl
  · exact
      { schema := rfl
        builderSchema := rfl
        isKind := rfl
        symbolFeature := rfl
        treelike := .planted (Records.leaf hkind').childless
        suited := Builder.suited_planted (by simp) (by simpa using hkind') }
  · refine ⟨rfl, rfl, .leaf (Nat.le_refl 0) ?_⟩
    show (Builder.planted s _).content? 0 = _
    rw [Builder.content?_planted, if_pos rfl]

/-- The state after the first line, when that is the line of a decision. -/
def opened (s : Schema) (kind : WagonKind) (symbol : Option Nat) (e : Decision) (line : Nat) :
    Assembly :=
  { planted s kind symbol (.decision e) line with cursor := some 0, openBrackets := 1 }

section Opened

variable {e : Decision} {n : Nat} (hnone : e.children.toList = List.replicate n none)
include hnone

theorem growing_opened (hsuits : e.Suits s) (line : Nat) :
    (opened s kind symbol e line).Growing s kind symbol where
  schema := rfl
  builderSchema := rfl
  isKind := rfl
  symbolFeature := rfl
  treelike := .planted (Builder.childless_of_replicate hnone)
  suited := Builder.suited_planted (by simpa using hsuits) (by simp)

theorem ready_opened (line : Nat) : (opened s kind symbol e line).Ready [0] 0 e [] n where
  openAt := ⟨rfl, .root Builder.parentLink?_planted, rfl⟩
  first := rfl
  content := by
    show (Builder.planted s (.decision e)).content? 0 = _
    rw [Builder.content?_planted, if_pos rfl]
  children := hnone
  filled := Builder.filledSlots_planted

end Opened

/-- The lines of a tree whose root is a decision: the first one opens it, and the last
one closes it. -/
theorem yields_branch {feature : Nat} {test : DecisionTest} {children : List Outline}
    (hx : (Outline.branch feature test children).Legible s kind)
    (hls : (Outline.branch feature test children).lines s 0 = .ok ls) :
    (fresh s kind symbol).Yields ls fun a => a.Growing s kind symbol ∧
      a.Completed ((Outline.branch feature test children).reread kind symbol) := by
  obtain ⟨hsuits, hl, hchildren⟩ : (Decision.ofSlots feature test children.length).Suits s ∧
      (Decision.ofSlots feature test children.length).Legible s ∧
        ∀ x ∈ children, x.Legible s kind := by
    cases hx with
    | branch h1 h2 h3 => exact ⟨h1, h2, h3⟩
  rw [Outline.lines] at hls
  obtain ⟨rest, hrest, hls⟩ := bind_eq_ok_iff.mp hls
  obtain rfl := Except.ok.inj hls
  have hne : children ≠ [] := by
    rintro rfl
    exact Nat.lt_irrefl 0 hl.slots
  let e := Decision.ofSlots feature test.canonical children.length
  have hnone : e.children.toList = List.replicate children.length none := Array.toList_replicate
  intro line
  refine ⟨opened s kind symbol e line, ?_, ?_⟩
  · refine (addLine_ofSlots (a := fresh s kind symbol) rfl hsuits hl line).trans ?_
    rw [put_fresh]
    rfl
  · have hall : ∀ x ∈ children, ReadsBack s kind symbol x := fun x hx => readsBack (hchildren x hx)
    have hread := yields_linesOfAll hall hne hrest (growing_opened hnone hsuits.canonical line)
      (ready_opened hnone line) (Nat.le_refl 1)
    refine hread.imp ?_
    rintro a' ⟨hg', hgrows, hopen, slots, hshows, hcontent', -⟩
    refine ⟨hg', hopen.2 rfl, hgrows.root, ?_⟩
    have hslots : (withChildren e ([] ++ slots) 0).children.toList = slots := by
      simp [withChildren]
    rw [Outline.reread]
    refine .branch (Nat.le_refl 0) hcontent' ?_
    rw [hslots]
    exact hshows.imp fun _ _ h => h.mono (Nat.zero_le _) (Nat.le_refl _) fun _ _ _ => rfl

/-- The lines of an outline that is not empty complete a tree. -/
theorem yields_outline (hx : x.Legible s kind) (hne : x ≠ .empty) (hls : x.lines s 0 = .ok ls) :
    (fresh s kind symbol).Yields ls fun a => a.Growing s kind symbol ∧
      a.Completed (x.reread kind symbol) := by
  cases hx with
  | empty => exact absurd rfl hne
  | leaf hkind hl =>
    rw [Outline.reread]
    exact yields_leaf hkind hl hls
  | branch hsuits hl hchildren => exact yields_branch (.branch hsuits hl hchildren) hls

/-! ### The encoded lines -/

variable {a : Assembly}

/-- A line that begins with a bracket is not passed over. -/
theorem isSkipped_bracketed {l : String} {rest : List Char} (h : l.toList = '(' :: rest) :
    isSkipped l = false := by
  have hblank : allBlank l = false := by
    rw [allBlank, h, List.all_cons, show isBlank '(' = false by decide]
    rfl
  have hcomment : startsWith [';', ';'] l.toList = false := by
    rw [h]
    exact startsWith_eq_false fun rest hrest => absurd (List.cons.inj hrest).1 (by decide)
  rw [isSkipped, hblank, hcomment]
  rfl

theorem addEncodedLine_encode {l : String} (h : isSkipped l = false) (line : Nat) :
    addEncodedLine a (Utf8.encode l, line) = a.addLine line l := by
  rw [addEncodedLine, decodeLine, Utf8.decode?_encode]
  simp only [bind, Except.bind, h, Bool.false_eq_true, if_false]

/-- What lines lead to, their encodings lead to. -/
theorem exists_foldlM {Q : Assembly → Prop} (hls : ∀ l ∈ ls, IsNodeLine l) (h : a.Yields ls Q)
    (k : Nat) : ∃ a', ((ls.map Utf8.encode).zipIdx k).foldlM addEncodedLine a = .ok a' ∧ Q a' := by
  induction ls generalizing a k with
  | nil => exact ⟨a, rfl, h⟩
  | cons l ls ih =>
    obtain ⟨a₁, hline, hrest⟩ := h k
    obtain ⟨body, hopening⟩ := (hls l List.mem_cons_self).opening
    obtain ⟨a', hfold, hQ⟩ := ih (fun l' hl' => hls l' (List.mem_cons_of_mem _ hl')) hrest (k + 1)
    refine ⟨a', ?_, hQ⟩
    rw [List.map_cons, List.zipIdx_cons, List.foldlM_cons,
      addEncodedLine_encode (isSkipped_bracketed hopening), hline]
    exact hfold

/-! ### The complete tree -/

/-- With all its lines read the tree is finished, and has the outline that was read. -/
theorem Completed.exists_finish (h : a.Completed x) (hg : a.Growing s kind symbol) :
    ∃ t, a.finish = .ok t ∧ t.arena.schema = s ∧ t.arena.root = some 0 ∧ t.arena.outline = x ∧
      ∀ u payload, t.arena.content? u = some (.leaf payload) → payload.kind = kind.leafKind := by
  have w : a.builder.toArena.WellFormed 0 := hg.treelike.wellFormed h.root hg.suited.decisions
  obtain ⟨t, ht⟩ := Cart.exists_ofBuilder? h.root w hg.treelike.noGraph
  obtain ⟨count, harena⟩ := Cart.arena_of_ofBuilder? ht
  have hroot : t.arena.root = some 0 := by rw [harena]; exact h.root
  have hcontent : ∀ u, t.arena.content? u = a.builder.content? u := by
    intro u
    rw [harena, Arena.content?_recount]
  refine ⟨t, finish_eq_ok_iff.mpr ⟨h.brackets, ht⟩, ?_, hroot, ?_, ?_⟩
  · rw [harena]
    exact hg.builderSchema
  · obtain ⟨bound, hbound⟩ := h.shows
    have hshown := hbound t.arena (fun u _ _ => hcontent u) (max bound (t.arena.size + 1))
      (Nat.le_max_left _ _)
    rw [Arena.outline, hroot, ← hshown]
    -- both bounds reach below all nodes
    refine Arena.unfold_eq_unfold (t.wellFormed hroot).acyclic (fun u _ => ?_) (fun u _ => ?_)
    · have := t.arena.rank_le_size u
      omega
    · have := t.arena.rank_le_size u
      omega
  · intro u payload hu
    exact hg.suited.leaves u payload ((hcontent u).symm.trans hu)

end Assembly

variable {s : Schema} {kind : WagonKind} {symbolFeature : Option String}

theorem start_eq_fresh
    (hsymbol : ∀ name, symbolFeature = some name → ∃ i, s.featureIndex? name = some i) :
    Assembly.start s { kind, symbolFeature } =
      .ok (Assembly.fresh s kind (symbolFeature.bind s.featureIndex?)) := by
  refine Assembly.start_eq_ok_iff.mpr ⟨_, ?_, rfl⟩
  rw [Schema.mapM_featureIndex hsymbol]
  rfl

/-- The tree of the text of an outline. -/
theorem exists_ofText {x : Outline} {ls : List String} (hx : x.Legible s kind) (hne : x ≠ .empty)
    (hls : x.lines s 0 = .ok ls)
    (hsymbol : ∀ name, symbolFeature = some name → ∃ i, s.featureIndex? name = some i) :
    ∃ t, ofText s { kind, symbolFeature } (Utf8.encode (String.join (ls.map (· ++ "\n")))) = .ok t ∧
      t.arena.schema = s ∧ t.arena.root = some 0 ∧
      t.arena.outline = x.reread kind (symbolFeature.bind s.featureIndex?) ∧
      ∀ u payload, t.arena.content? u = some (.leaf payload) → payload.kind = kind.leafKind := by
  have hnode : ∀ l ∈ ls, IsNodeLine l := by
    obtain ⟨ls', hls', hnode⟩ := exists_lines hx 0
    obtain rfl : ls' = ls := Except.ok.inj (hls'.symm.trans hls)
    exact hnode
  obtain ⟨a, hfold, hg, hcomplete⟩ :=
    Assembly.exists_foldlM hnode (Assembly.yields_outline hx hne hls) 1
  obtain ⟨t, hfinish, hschema, hroot, houtline, hleaves⟩ := hcomplete.exists_finish hg
  refine ⟨t, ofText_eq_ok_iff.mpr ⟨a, ?_, hfinish⟩, hschema, hroot, houtline, hleaves⟩
  rw [assembled, start_eq_fresh hsymbol, Utf8.byteLines_encode (c := ')') (by decide)
    (fun l hl => (hnode l hl).inline) fun l hl => (hnode l hl).closing]
  exact hfold

/-- The text without lines is a tree without nodes. -/
theorem exists_ofText_empty
    (hsymbol : ∀ name, symbolFeature = some name → ∃ i, s.featureIndex? name = some i) :
    ∃ t, ofText s { kind, symbolFeature } (Utf8.encode "") = .ok t ∧ t.arena.schema = s ∧
      t.arena.root = none := by
  obtain ⟨t, ht⟩ := Cart.exists_ofBuilder?_of_empty (b := Builder.empty s) rfl rfl
  obtain ⟨count, harena⟩ := Cart.arena_of_ofBuilder? ht
  refine ⟨t, ?_, by rw [harena]; rfl, by rw [harena]; rfl⟩
  refine ofText_eq_ok_iff.mpr ⟨Assembly.fresh s kind (symbolFeature.bind s.featureIndex?), ?_,
    Assembly.finish_eq_ok_iff.mpr ⟨rfl, ht⟩⟩
  rw [assembled, start_eq_fresh hsymbol]
  rfl

/-- The outline of a tree whose leaves and decisions can be read back. -/
theorem legible_outline {t : Cart} {root : NodeId} (hroot : t.arena.root = some root)
    (hleaves : ∀ u p, t.arena.content? u = some (.leaf p) → p.kind = kind.leafKind ∧ p.Legible)
    (hdecisions : ∀ u d, t.arena.content? u = some (.decision d) → d.Legible t.arena.schema) :
    t.arena.outline.Legible t.arena.schema kind := by
  refine legible_unfold t.content?_ne_graph hleaves (fun u d hd => ⟨?_, hdecisions u d hd⟩) _ _
  obtain ⟨n, hn, hnd⟩ := Arena.content?_eq_some_iff.mp hd
  exact (t.wellFormed hroot).decisions u n d hn hnd

/-- A tree whose leaves are those of a kind of tree, whose weights and deviations have
texts of their own and whose tests have names that can be found again, is written as a
text, and the text is read as a tree with the same decisions in the same places and
with the same data in the leaves as far as a record keeps it.  Empty slots come back as
leaves without data unless the tree is one of regression, and a tree without nodes
comes back as such.  What comes back is written with the same text. -/
theorem exists_ofText_toText (t : Cart) (kind : WagonKind) (symbolFeature : Option String)
    (o : Option WagonKind) (ho : o = none ∨ o = some kind)
    (hleaves : ∀ u p, t.arena.content? u = some (.leaf p) → p.kind = kind.leafKind ∧ p.Legible)
    (hdecisions : ∀ u d, t.arena.content? u = some (.decision d) → d.Legible t.arena.schema)
    (hsymbol : ∀ name, symbolFeature = some name →
      ∃ i, t.arena.schema.featureIndex? name = some i) :
    ∃ text t', toText t o = .ok text ∧
      ofText t.arena.schema { kind, symbolFeature } (Utf8.encode text) = .ok t' ∧
      t'.arena.schema = t.arena.schema ∧
      t'.arena.outline = (if t.isEmpty then .empty else
        t.arena.outline.reread kind (symbolFeature.bind t.arena.schema.featureIndex?)) ∧
      toText t' o = .ok text := by
  cases hroot : t.arena.root with
  | none =>
    have hempty : t.isEmpty = true := by rw [Cart.isEmpty, hroot]; rfl
    obtain ⟨t', hread, hschema, hroot'⟩ := exists_ofText_empty hsymbol
    refine ⟨"", t', toText_eq_of_root_eq_none t ho hroot, hread, hschema, ?_,
      toText_eq_of_root_eq_none t' ho hroot'⟩
    rw [if_pos hempty, Arena.outline, hroot', Arena.unfold_none]
  | some root =>
    have hne : t.isEmpty = false := by rw [Cart.isEmpty, hroot]; rfl
    have hlegible := legible_outline hroot hleaves hdecisions
    have houtline : t.arena.outline ≠ .empty := by
      intro h
      rw [t.isEmpty_iff.mpr h] at hne
      simp at hne
    obtain ⟨ls, hls, -⟩ := exists_lines hlegible 0
    have htext := toText_eq t ho (fun u p hp => (hleaves u p hp).1) hroot
    obtain ⟨t', hread, hschema, hroot', houtline', hleaves'⟩ :=
      exists_ofText hlegible houtline hls hsymbol
    refine ⟨String.join (ls.map (· ++ "\n")), t', ?_, hread, hschema, ?_, ?_⟩
    · rw [htext, hls]
      rfl
    · rw [hne, houtline']
      rfl
    · -- what a record leaves out is not written
      rw [toText_eq t' ho hleaves' hroot', houtline', hschema, lines_reread hlegible, hls]
      rfl

/-! ### The sample tree -/

theorem opensDecision_sample : ∀ m ∈ Sample.features, OpensDecision m.name := by
  intro m hm
  simp only [Sample.features, List.mem_cons, List.not_mem_nil, or_false] at hm
  rcases hm with rfl | rfl | rfl
  · exact ⟨⟨'p', "hone".toList, by decide, by decide⟩, solid_of_all (by decide), by decide⟩
  · exact ⟨⟨'p', "os".toList, by decide, by decide⟩, solid_of_all (by decide), by decide⟩
  · exact ⟨⟨'d', "ur".toList, by decide, by decide⟩, solid_of_all (by decide), by decide⟩

theorem legible_sample {s : Schema} (hget : ∀ i, s.get? i = Sample.features[i]?) {d : Decision}
    (hslots : 0 < d.children.size)
    (htest : (d.feature = 0 ∧ d.test = .byteEquals 1) ∨ d.test.ordinal? = none) :
    d.Legible s := by
  refine ⟨hslots, fun m hm => ?_, fun m i hm hi => ?_, fun i value hi hvalue => ?_⟩
  · exact opensDecision_sample m (List.mem_of_getElem? (hget _ ▸ hm))
  · rcases htest with ⟨hfeature, htest⟩ | hnone
    · rw [hfeature, hget] at hm
      obtain rfl : _ = m := Option.some_inj.mp hm
      obtain rfl : (1 : Int) = i := by simpa [htest, DecisionTest.ordinal?] using hi
      exact ⟨1, "a", rfl, rfl, by decide, by decide⟩
    · rw [hnone] at hi
      simp at hi
  · rcases htest with ⟨hfeature, htest⟩ | hnone
    · obtain rfl : (1 : Int) = i := by simpa [htest, DecisionTest.ordinal?] using hi
      have hphone : s.get? d.feature = some (.byte "phone" #["0", "a", "e", "i"]) := by
        rw [hfeature, hget]
        rfl
      have hname : s.valueName d.feature (1 : Nat) = .ok "a" :=
        Schema.valueName_eq hphone rfl rfl
      obtain rfl : "a" = value := Except.ok.inj (hname.symm.trans hvalue)
      decide
    · rw [hnone] at hi
      simp at hi

/-- The sample tree has decisions of three forms, an empty slot and a leaf without
data. -/
theorem exists_ofText_toText_sample :
    ∃ t text t', Sample.tree = .ok t ∧ toText t none = .ok text ∧
      ofText t.arena.schema { symbolFeature := some "phone" } (Utf8.encode text) = .ok t' ∧
      t'.arena.outline = t.arena.outline.reread .classification (some 0) ∧
      toText t' none = .ok text := by
  have hsample : (Sample.tree.toOption.any fun t =>
      !t.isEmpty && t.arena.schema.featureIndex? "phone" == some 0 &&
        t.arena.schema.features.toList == Sample.features &&
        t.arena.nodes.all fun n => (n.payload?.all fun p => p.kind == .indices) &&
          n.decision?.all fun d => decide (0 < d.children.size) &&
            ((d.feature == 0 && d.test == .byteEquals 1) || d.test.ordinal?.isNone)) = true := by
    decide +kernel
  cases ht : Sample.tree with
  | error e => simp [ht, Except.toOption] at hsample
  | ok t =>
    simp only [ht, Except.toOption, Option.any_some, Bool.and_eq_true, beq_iff_eq,
      Array.all_eq_true] at hsample
    obtain ⟨⟨⟨hne, hphone⟩, hfeatures⟩, hnodes⟩ := hsample
    have hget : ∀ i, t.arena.schema.get? i = Sample.features[i]? := by
      intro i
      rw [Schema.get?, ← Array.getElem?_toList, hfeatures]
    have hcontent : ∀ u x, t.arena.content? u = some x → ∃ i, ∃ hi : i < t.arena.nodes.size,
        t.arena.nodes[i].content = x := by
      intro u x hx
      obtain ⟨n, hn, hnx⟩ := Arena.content?_eq_some_iff.mp hx
      obtain ⟨hu, rfl⟩ := Arena.node?_eq_some_iff.mp hn
      exact ⟨u, hu, hnx⟩
    obtain ⟨text, t', htext, hread, -, houtline, htext'⟩ :=
      exists_ofText_toText t .classification (some "phone") none (.inl rfl)
        (fun u p hp => by
          obtain ⟨i, hi, hx⟩ := hcontent u _ hp
          have hkind : p.kind = .indices := by
            simpa [Node.payload?, Node.decision?, hx] using hnodes i hi
          refine ⟨hkind, fun w hw => ?_, fun g hg => ?_⟩
          · cases p <;> simp [Payload.kind, Payload.weighted?] at hkind hw
          · rw [hg] at hkind
            simp [Payload.kind] at hkind)
        (fun u d hd => by
          obtain ⟨i, hi, hx⟩ := hcontent u _ hd
          have hd' := hnodes i hi
          simp only [Node.payload?, Node.decision?, hx, Option.all_none, Option.all_some,
            true_and, Bool.and_eq_true, Bool.or_eq_true, decide_eq_true_eq, beq_iff_eq,
            Option.isNone_iff_eq_none] at hd'
          exact legible_sample hget hd'.1 hd'.2)
        (fun name hname => ⟨0, Option.some_inj.mp hname ▸ hphone⟩)
    rw [Option.bind_some, hphone] at houtline
    refine ⟨t, text, t', rfl, htext, hread, ?_, htext'⟩
    rw [houtline, if_neg]
    simpa using hne

end Wagon

end FeatureTree
