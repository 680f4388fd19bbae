/-
Whatever lines are read, they build a tree.

A line puts its node into the next slot of the decision that waits for a child, or makes it
the root.  The wait moves down to a new decision, up along the links when brackets close, and
stays on the root when that is closed; it never leaves the nodes.  So however the brackets
nest, no node is shared or cut off, and a tree that is refused at the end is so for a many-way
decision.

* `Decision.Admitted` — what is made sure of a decision when its line is read;
* `Wagon.admitted_of_parseDecision` — it is, for every line;
* `Wagon.Assembly.Hangs` — the nodes read so far hang together like a tree, and the next one
  goes below one of them;
* `Wagon.Assembly.Hangs.put`, `Wagon.Assembly.Hangs.close`, `Wagon.Assembly.Hangs.addLine`,
  `Wagon.Assembly.Hangs.reads` — lines keep it so;
* `Wagon.Assembly.Reads.builds_tree` — the shape after any lines, and what the end can refuse.
-/
import FeatureTree.Proofs.Format.Wagon.Balance
import FeatureTree.Proofs.Schema.Consistency
import FeatureTree.Proofs.Tree.GrownLinks
import FeatureTree.Proofs.Tree.Refusals

namespace FeatureTree

open Text Arena

/-- The feature of a decision is one of the schema, and a two-way test suits it. -/
def Decision.Admitted (s : Schema) (d : Decision) : Prop :=
  ∃ m, s.get? d.feature = some m ∧ (d.test.isBinary = true → d.Suits s)

/-- The children have no part in it, as long as their number stays. -/
theorem Decision.Admitted.setIfInBounds {s : Schema} {d : Decision} (h : d.Admitted s) (i : Nat)
    (child : Option NodeId) :
    ({ d with children := d.children.setIfInBounds i child } : Decision).Admitted s := by
  obtain ⟨m, hm, hbinary⟩ := h
  refine ⟨m, hm, fun htest => ?_⟩
  obtain ⟨m', hm', hkind, hsize⟩ := hbinary htest
  exact ⟨m', hm', hkind, Array.size_setIfInBounds.trans hsize⟩

/-- The many-way tests are for one kind of feature each. -/
theorem DecisionTest.exists_kind_of_manyWay {test : DecisionTest} (h : test.isBinary = false) :
    ∃ kind, test.neededKind? = some kind := by
  cases test with
  | byteOf => exact ⟨.byte, rfl⟩
  | shortOf => exact ⟨.short, rfl⟩
  | byteEquals _ => cases h
  | shortEquals _ => cases h
  | below _ => cases h

namespace Wagon

variable {s : Schema} {line feature : Nat} {d : Decision}

/-! ### Decisions as they are read -/

theorem admitted_of_decisionFor {operator value : String} {m : FeatureMeta}
    (hm : s.get? feature = some m) (h : decisionFor s line feature operator value = .ok d) :
    (∃ test slots, d = .ofSlots feature test slots) ∧ d.Admitted s := by
  unfold decisionFor at h
  split at h
  · -- equality with a value of the feature
    obtain ⟨m', hm', h⟩ := bind_eq_ok_iff.mp (mapError_eq_ok_iff.mp h)
    split at h
    · obtain ⟨v, hv, h⟩ := bind_eq_ok_iff.mp h
      obtain rfl := Except.ok.inj h
      exact ⟨⟨_, _, rfl⟩, m, hm, fun _ => Schema.suits_of_byteValue hv⟩
    · obtain ⟨v, hv, h⟩ := bind_eq_ok_iff.mp h
      obtain rfl := Except.ok.inj h
      exact ⟨⟨_, _, rfl⟩, m, hm, fun _ => Schema.suits_of_shortValue hv⟩
  · -- a threshold may be put to features of any kind
    split at h
    · obtain rfl := Except.ok.inj h
      exact ⟨⟨_, _, rfl⟩, m, hm, fun _ => ⟨m, hm, (fun _ hkind => nomatch hkind), rfl⟩⟩
    · cases h
  · obtain ⟨slots, -, h⟩ := bind_eq_ok_iff.mp h
    obtain rfl := Except.ok.inj h
    exact ⟨⟨_, _, rfl⟩, m, hm, fun htest => nomatch htest⟩
  · obtain ⟨slots, -, h⟩ := bind_eq_ok_iff.mp h
    obtain rfl := Except.ok.inj h
    exact ⟨⟨_, _, rfl⟩, m, hm, fun htest => nomatch htest⟩
  · cases h

/-- The decision of a line has no children yet, and only a many-way test may not suit its
feature. -/
theorem admitted_of_parseDecision {body : List Char} (h : parseDecision s line body = .ok d) :
    Builder.Childless (some (.decision d)) ∧ d.Admitted s := by
  unfold parseDecision at h
  split at h
  · split at h
    · split at h
      · obtain ⟨feature, hfeature, h⟩ := bind_eq_ok_iff.mp h
        obtain ⟨m, hm, -⟩ :=
          Schema.featureIndex_eq_ok_iff_name.mp (mapError_eq_ok_iff.mp hfeature)
        obtain ⟨⟨test, slots, rfl⟩, hadmitted⟩ := admitted_of_decisionFor hm h
        exact ⟨Builder.childless_of_replicate Array.toList_replicate, hadmitted⟩
      · cases h
    · cases h
  · cases h

namespace Assembly

variable {a a₁ a' : Assembly} {x : Option NodeContent} {u : NodeId} {cs : List Char}
  {ls : List (List Char)}

/-! ### The invariant -/

/-- The nodes read so far hang together like a tree, each linked to its slot; the next child
goes to one of them, and before the first one there is nothing.  Of the decisions only
many-way ones may not suit the schema. -/
structure Hangs (s : Schema) (a : Assembly) : Prop where
  schema : a.schema = s
  builderSchema : a.builder.schema = s
  treelike : a.builder.Treelike
  slotLinked : a.builder.SlotLinked
  cursor_lt : ∀ p, a.cursor = some p → p < a.builder.size
  first : a.hasRoot = false → a.builder = Builder.empty s ∧ a.cursor = none
  admitted : ∀ u d, a.builder.content? u = some (.decision d) → d.Admitted s

theorem Hangs.start {o : Options} (h : start s o = .ok a) : a.Hangs s := by
  obtain ⟨symbolFeature, -, rfl⟩ := start_eq_ok_iff.mp h
  exact
    { schema := rfl
      builderSchema := rfl
      treelike := .empty s
      slotLinked := .empty s
      cursor_lt := fun p hp => absurd hp (by simp)
      first := fun _ => ⟨rfl, rfl⟩
      admitted := fun u d hd => absurd hd (by simp) }

/-- A node below a node that waits for a child, or nothing in its slot. -/
theorem Hangs.extend {p : NodeId} (h : a.Hangs s) (hcursor : a.cursor = some p)
    (hd : a.builder.content? p = some (.decision d))
    (hfree : a.builder.filledSlots p < d.children.size) (hx : Builder.Childless x)
    (hadmitted : ∀ e, x = some (.decision e) → e.Admitted s) :
    Hangs s { a with builder := a.builder.extend p d x } where
  schema := h.schema
  builderSchema := Builder.schema_extend.trans h.builderSchema
  treelike := h.treelike.extend hd hfree hx
  slotLinked := h.slotLinked.extend h.treelike hd hx
  cursor_lt := by
    intro q hq
    show q < (a.builder.extend p d x).size
    rw [Builder.size_extend]
    exact (h.cursor_lt q hq).trans_le Builder.size_le_size_grown
  first := by
    intro hroot
    obtain ⟨-, hnone⟩ := h.first hroot
    exact absurd (hcursor.symm.trans hnone) (by simp)
  admitted := by
    intro u e he
    change (a.builder.extend p d x).content? u = _ at he
    rw [Builder.content?_extend (lt_size_of_content? hd)] at he
    split at he
    · obtain rfl := NodeContent.decision.inj (Option.some_inj.mp he)
      exact (h.admitted p d hd).setIfInBounds ..
    · split at he
      · exact hadmitted e he
      · exact h.admitted u e he

/-- A node at the root, or nothing in its place. -/
theorem Hangs.plant (h : a.Hangs s) (hroot : a.hasRoot = false) (hx : Builder.Childless x)
    (hadmitted : ∀ e, x = some (.decision e) → e.Admitted s) :
    Hangs s { a with
      hasRoot := true
      builder := (a.builder.newId? x).elim a.builder (a.builder.grown x).setRoot } := by
  obtain ⟨hbuilder, hcursor⟩ := h.first hroot
  cases x with
  | none =>
    exact
      { schema := h.schema
        builderSchema := h.builderSchema
        treelike := h.treelike
        slotLinked := h.slotLinked
        cursor_lt := h.cursor_lt
        first := fun htrue => absurd htrue (by simp)
        admitted := h.admitted }
  | some y =>
    have hplanted : (a.builder.grown (some y)).setRoot a.builder.size = .planted s y := by
      rw [hbuilder, Builder.planted]
    refine
      { schema := h.schema, builderSchema := ?_, treelike := ?_, slotLinked := ?_,
        cursor_lt := ?_, first := fun htrue => absurd htrue (by simp), admitted := ?_ }
    · exact (Builder.schema_grown (x := some y)).trans h.builderSchema
    · show ((a.builder.grown (some y)).setRoot a.builder.size).Treelike
      rw [hplanted]
      exact .planted hx
    · show ((a.builder.grown (some y)).setRoot a.builder.size).SlotLinked
      rw [hplanted]
      exact .planted hx
    · intro q hq
      exact absurd (hcursor.symm.trans hq) (by simp)
    · intro u e he
      change ((a.builder.grown (some y)).setRoot a.builder.size).content? u = _ at he
      rw [hplanted, Builder.content?_planted] at he
      split at he
      · exact hadmitted e he
      · cases he

/-- A node, or nothing, in its place. -/
theorem Hangs.put (h : a.Hangs s) (hx : Builder.Childless x)
    (hadmitted : ∀ e, x = some (.decision e) → e.Admitted s) (hput : a.put line x = .ok a') :
    a'.Hangs s ∧ a'.hasRoot = true ∧ (x.isSome → a.builder.size < a'.builder.size) := by
  have hgrown : x.isSome → a.builder.size < (a.builder.grown x).size := by
    intro hsome
    obtain ⟨y, rfl⟩ := Option.isSome_iff_exists.mp hsome
    rw [Builder.grown, Builder.size_add]
    exact Nat.lt_succ_self _
  cases hcursor : a.cursor with
  | none =>
    obtain ⟨hroot, rfl⟩ := (put_first_eq_ok_iff hcursor).mp hput
    refine ⟨h.plant hroot hx hadmitted, rfl, fun hsome => ?_⟩
    obtain ⟨y, rfl⟩ := Option.isSome_iff_exists.mp hsome
    exact (hgrown rfl).trans_eq (Builder.size_setRoot _).symm
  | some p =>
    obtain ⟨d, hd, hfree, rfl⟩ := (put_below_eq_ok_iff hcursor).mp hput
    rw [Builder.content?_grown (h.cursor_lt p hcursor)] at hd
    refine ⟨h.extend hcursor hd hfree hx hadmitted, ?_, fun hsome => ?_⟩
    · show a.hasRoot = true
      by_contra hroot
      obtain ⟨-, hnone⟩ := h.first (by simpa using hroot)
      exact absurd (hcursor.symm.trans hnone) (by simp)
    · exact (hgrown hsome).trans_eq Builder.size_extend.symm

/-- The parent of a node other than the root is a node. -/
theorem Hangs.mother_lt {p : NodeId} (h : a.Hangs s) (hu : u < a.builder.size)
    (hroot : ¬ a.atRoot u = true) (hp : (a.builder.nodes[u]?).bind (·.mother) = some p) :
    p < a.builder.size := by
  obtain ⟨n, hn, hmother⟩ := Option.bind_eq_some_iff.mp hp
  have hne : a.builder.root ≠ some u := fun hr =>
    hroot (atRoot_eq_true_iff.mpr ⟨_, (h.treelike.root_lt u hr).2⟩)
  obtain ⟨q, slot, n', hheld, -, hn', hmother', -⟩ := h.treelike.exists_slot h.slotLinked hu hne
  obtain rfl : n' = n := Option.some_inj.mp (hn'.symm.trans hn)
  obtain rfl : q = p := Option.some_inj.mp (hmother'.symm.trans hmother)
  exact lt_of_holds hheld.holds

/-- Closing goes up along the links, or stays. -/
theorem Hangs.close (h : a.Hangs s) (hclose : close line a cs = .ok a') : a'.Hangs s := by
  induction cs generalizing a with
  | nil =>
    obtain rfl := Except.ok.inj hclose
    exact h
  | cons c rest ih =>
    rw [Assembly.close] at hclose
    split at hclose
    · cases hclose
    · cases hcursor : a.cursor with
      | none =>
        rw [hcursor] at hclose
        cases hclose
      | some u =>
        have hstarted : a.hasRoot ≠ false := fun hfalse =>
          absurd (hcursor.symm.trans (h.first hfalse).2) (by simp)
        simp only [hcursor] at hclose
        split at hclose
        · split at hclose
          · obtain rfl := Except.ok.inj hclose
            exact
              { h with
                cursor_lt := fun p hp => h.cursor_lt p (hcursor.trans hp)
                first := fun hfalse => absurd hfalse hstarted }
          · cases hclose
        · next hroot =>
          have hup : Hangs s { a with
              openBrackets := a.openBrackets - 1
              cursor := (a.builder.nodes[u]?).bind (·.mother) } :=
            { h with
              cursor_lt := fun p hp => h.mother_lt (h.cursor_lt u hcursor) hroot hp
              first := fun hfalse => absurd hfalse hstarted }
          exact ih hup hclose

theorem Hangs.addLine {text : String} (h : a.Hangs s) (hline : a.addLine line text = .ok a') :
    a'.Hangs s := by
  have h₀ : Hangs s { a with lastLine := line } := { h with }
  obtain ⟨body, -, ⟨-, d, a₁, hd, hput, rfl⟩ | ⟨-, x, a₁, hx, hput, hclose⟩⟩ :=
    addLine_cases rfl hline
  · rw [h.schema] at hd
    obtain ⟨hchildless, hadmitted⟩ := admitted_of_parseDecision hd
    obtain ⟨hput, hroot, hsize⟩ := h₀.put hchildless
      (fun e he => NodeContent.decision.inj (Option.some_inj.mp he) ▸ hadmitted) hput
    -- the new decision is the one that waits
    exact
      { hput with
        cursor_lt := fun p hp => Option.some_inj.mp hp ▸ hsize rfl
        first := fun hfalse => absurd (hroot.symm.trans hfalse) (by simp) }
  · have hleaf : Builder.Childless x ∧ ∀ e, x ≠ some (.decision e) := by
      rcases leafContent?_cases hx with rfl | ⟨p, -, rfl⟩
      · exact ⟨Builder.childless_none, by simp⟩
      · exact ⟨Builder.childless_leaf p, by simp⟩
    obtain ⟨hput, -, -⟩ := h₀.put hleaf.1 (fun e he => absurd he (hleaf.2 e)) hput
    rw [closeAfterLeaf] at hclose
    split at hclose
    · exact hput.close hclose
    · cases hclose

theorem Hangs.reads (hreads : a.Reads ls a') (h : a.Hangs s) : a'.Hangs s := by
  induction hreads with
  | nil a => exact h
  | cons hline _ ih => exact ih (h.addLine hline)

/-! ### The end -/

/-- Of a decision that was admitted but does not suit, a many-way test is at fault. -/
theorem manyWay_of_misfits {e : GraphError} (hadmitted : d.Admitted s) (h : d.Misfits s u e) :
    ∃ m kind, d.test.isBinary = false ∧ s.get? d.feature = some m ∧
      d.test.neededKind? = some kind ∧
      (m.kind ≠ kind ∧ e = .featureKindMismatch u m.name kind ∨
        m.kind = kind ∧ d.children.size ≠ m.values.size ∧
          e = .childCountMismatch u m.name m.values.size d.children.size) := by
  obtain ⟨m, hm, hbinary⟩ := hadmitted
  have hmany : d.test.isBinary = false :=
    Bool.eq_false_iff.mpr fun htwo => h.not_suits (hbinary htwo)
  obtain ⟨kind, hkind⟩ := DecisionTest.exists_kind_of_manyWay hmany
  refine ⟨m, kind, hmany, hm, hkind, ?_⟩
  cases h with
  | unknownFeature hnone => exact absurd (hm.symm.trans hnone) (by simp)
  | kind hm' hkind' hne =>
    obtain rfl := Option.some_inj.mp (hm.symm.trans hm')
    obtain rfl := Option.some_inj.mp (hkind.symm.trans hkind')
    exact .inl ⟨hne, rfl⟩
  | slots hm' hkinds hsize =>
    obtain rfl := Option.some_inj.mp (hm.symm.trans hm')
    rw [if_neg (by simp [hmany])] at hsize ⊢
    exact .inr ⟨hkinds kind hkind, hsize, rfl⟩

/-- With nothing open, what the end refuses is a decision. -/
theorem Hangs.misfits_of_finish {e : FormatError} (h : a.Hangs s) (hopen : a.openBrackets = 0)
    (he : a.finish = .error e) :
    ∃ u d e', a.builder.content? u = some (.decision d) ∧ d.Misfits s u e' ∧
      e = .graph e' := by
  rw [finish, if_neg (not_not.mpr hopen)] at he
  cases hcart : Cart.ofBuilder? a.builder with
  | ok t =>
    rw [hcart] at he
    cases he
  | error e' =>
    rw [hcart] at he
    obtain ⟨u, d, hd, hmisfits⟩ :=
      h.treelike.misfits_of_finish (h.treelike.finish_of_ofBuilder? hcart)
    exact ⟨u, d, e', hd, h.builderSchema ▸ hmisfits, (Except.error.inj he).symm⟩

/-- After any lines that are read one after the other the nodes make a tree: each is reached
from the root, which no slot holds and which has no parent, and every other node is held by
one slot, to which it is linked.  So when no bracket is open, the end refuses a many-way
decision at most, whose feature is of another kind than the test or has more or fewer values
than there are slots. -/
theorem Reads.builds_tree {s : Schema} {o : Options} {a₀ a : Assembly} {ls : List (List Char)}
    (hstart : Assembly.start s o = .ok a₀) (hreads : a₀.Reads ls a) :
    (∀ u < a.builder.size, ∃ root, a.builder.root = some root ∧ a.builder.Reaches root u ∧
      (u ≠ root → ∃ p slot n, a.builder.HeldAt p slot u ∧
        (∀ q i, a.builder.HeldAt q i u → q = p ∧ i = slot) ∧
        a.builder.node? u = some n ∧ n.mother = some p ∧ n.index = slot)) ∧
    (∀ root, a.builder.root = some root → root < a.builder.size ∧
      (∀ q i, ¬ a.builder.HeldAt q i root) ∧
      ∀ n, a.builder.node? root = some n → n.mother = none) ∧
    (a.openBrackets = 0 → ∀ e, a.finish = .error e →
      ∃ u d m kind, a.builder.content? u = some (.decision d) ∧ d.test.isBinary = false ∧
        s.get? d.feature = some m ∧ d.test.neededKind? = some kind ∧
        (m.kind ≠ kind ∧ e = .graph (.featureKindMismatch u m.name kind) ∨
          m.kind = kind ∧ d.children.size ≠ m.values.size ∧
            e = .graph (.childCountMismatch u m.name m.values.size d.children.size))) := by
  have h : a.Hangs s := (Hangs.start hstart).reads hreads
  refine ⟨fun u hu => ?_, fun root hroot => ?_, fun hopen e he => ?_⟩
  · obtain ⟨root, hroot⟩ := h.treelike.exists_root (Nat.zero_lt_of_lt hu)
    refine ⟨root, hroot, (h.treelike.shaped hroot).reached u hu, fun hne => ?_⟩
    refine h.treelike.exists_slot h.slotLinked hu fun hu => hne ?_
    exact Option.some_inj.mp (hu.symm.trans hroot)
  · obtain ⟨hheld, hmother⟩ := h.treelike.root_free hroot
    exact ⟨(h.treelike.root_lt root hroot).1, hheld, hmother⟩
  · obtain ⟨u, d, e', hd, hmisfits, rfl⟩ := h.misfits_of_finish hopen he
    obtain ⟨m, kind, hmany, hm, hkind, hcause⟩ :=
      manyWay_of_misfits (h.admitted u d hd) hmisfits
    refine ⟨u, d, m, kind, hd, hmany, hm, hkind, hcause.imp ?_ ?_⟩
    · rintro ⟨hne, rfl⟩
      exact ⟨hne, rfl⟩
    · rintro ⟨heq, hsize, rfl⟩
      exact ⟨heq, hsize, rfl⟩

/-- A many-way decision with two slots, for a feature with four values. -/
def narrowText : List UInt8 := Utf8.encode "((phone isByteOf 2)\n((((1 0)) 0))\n((((2 0)) 0)))\n"

theorem builds_tree_narrowText :
    ∃ a₀ a p slot d, Assembly.start Sample.schema {} = .ok a₀ ∧
      a₀.Reads (nodeLines narrowText) a ∧ a.openBrackets = 0 ∧ a.builder.size = 3 ∧
      a.builder.HeldAt p slot 2 ∧ (∀ q i, a.builder.HeldAt q i 2 → q = p ∧ i = slot) ∧
      a.finish = .error (.graph (.childCountMismatch 0 "phone" 4 2)) ∧
      a.builder.content? 0 = some (.decision d) ∧ d.test.isBinary = false ∧
      d.children.size = 2 := by
  have hsample : ((assembled Sample.schema {} narrowText).toOption.any fun a =>
      a.openBrackets == 0 && a.builder.size == 3 && a.builder.root == some 0 &&
        match a.finish with
        | .error e => e == .graph (.childCountMismatch 0 "phone" 4 2)
        | .ok _ => false) = true := by
    decide +kernel
  obtain ⟨a, ha, hsample⟩ := exists_of_any_toOption hsample
  simp only [Bool.and_eq_true, beq_iff_eq] at hsample
  obtain ⟨⟨⟨hopen, hsize⟩, hroot⟩, hfinish⟩ := hsample
  cases hend : a.finish with
  | ok t => simp [hend] at hfinish
  | error e =>
    rw [hend] at hfinish
    obtain rfl := beq_iff_eq.mp hfinish
    obtain ⟨a₀, hstart, hreads⟩ := reads_of_assembled ha
    obtain ⟨hnodes, -, hrefused⟩ := hreads.builds_tree hstart
    obtain ⟨root, hroot', -, hslot⟩ := hnodes 2 (by omega)
    obtain rfl : 0 = root := Option.some_inj.mp (hroot.symm.trans hroot')
    obtain ⟨p, slot, n, hheld, hone, -⟩ := hslot (by decide)
    obtain ⟨u, d, m, kind, hd, hmany, -, -, hcause⟩ := hrefused hopen _ hend
    rcases hcause with ⟨-, hcause⟩ | ⟨-, -, hcause⟩
    · cases hcause
    · obtain ⟨rfl, -, -, hwidth⟩ := GraphError.childCountMismatch.inj (FormatError.graph.inj hcause)
      exact ⟨a₀, a, p, slot, d, hstart, hreads, hopen, hsize, hheld, hone, hend, hd, hmany,
        hwidth.symm⟩

end Assembly

end Wagon

end FeatureTree
