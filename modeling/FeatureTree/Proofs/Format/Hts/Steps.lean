/-
What reading a line changes.

A line is read in steps: the root is declared if the line is the first one, the node of its
id gets the question, each reference gets a new node, and these become the children of the
first one.  All that is known of the steps later is drawn from what is said here.

* `Hts.StateAssembly.planted` — the tree with a root;
* `Hts.StateAssembly.child_eq_ok_iff` — when a reference gets a node, and which;
* `Hts.StateAssembly.Takes` — what a line makes of the tree;
* `Hts.StateAssembly.addLine_eq_ok_iff` — when a line is read.
-/
import FeatureTree.Proofs.Format.Hts.Walk
import FeatureTree.Proofs.Tree.Building

namespace FeatureTree.Hts

open Arena

/-- The declaration that a reference adds with a new node. -/
def Reference.declared (u : NodeId) : Reference → List Declaration
  | line id => [⟨id, u, false⟩]
  | leaf _ => []

namespace StateAssembly

variable {a a' : StateAssembly} {id i : Nat} {d : Declaration} {u : NodeId} {r : Rule}
  {ref : Reference} {q : Decision} {x y : NodeContent}

/-! ### Declarations -/

theorem find?_declare (a : StateAssembly) (id i : Nat) :
    (a.declare id).1.find? i = if id = i then some ⟨id, a.builder.size, false⟩ else a.find? i := by
  show (Declaration.mk id a.builder.nodes.size false :: a.declarations).find? (·.id == i) = _
  rw [List.find?_cons]
  by_cases h : id = i
  · rw [if_pos h]
    simp only [beq_iff_eq.mpr h]
    rfl
  · rw [if_neg h]
    simp only [beq_eq_false_iff_ne.mpr h]
    rfl

theorem find?_define (a : StateAssembly) (id i : Nat) :
    (a.define id).find? i =
      (a.find? i).map fun d => if d.id = id then { d with isDefined := true } else d := by
  rw [find?, define, List.find?_map]
  have hid : ((fun d : Declaration => d.id == i) ∘ fun d : Declaration =>
      if d.id = id then { d with isDefined := true } else d) = fun d => d.id == i := by
    funext d
    simp only [Function.comp]
    split <;> rfl
  rw [hid]
  rfl

theorem id_of_find? (h : a.find? i = some d) : d.id = i := by
  simpa using List.find?_some h

theorem mem_of_find? (h : a.find? i = some d) : d ∈ a.declarations :=
  List.mem_of_find?_eq_some h

theorem find?_of_mem (hids : (a.declarations.map Declaration.id).Nodup)
    (h : d ∈ a.declarations) : a.find? d.id = some d := by
  rw [find?]
  obtain ⟨e, he⟩ := Option.isSome_iff_exists.mp
    (List.find?_isSome.mpr ⟨d, h, by simp⟩ : (a.declarations.find? (·.id == d.id)).isSome)
  have hid : e.id = d.id := by simpa using List.find?_some he
  rw [he, List.inj_on_of_nodup_map hids (List.mem_of_find?_eq_some he) h hid]

theorem not_mem_of_find?_eq_none (h : a.find? i = none) :
    i ∉ a.declarations.map Declaration.id := by
  intro hi
  obtain ⟨d, hd, rfl⟩ := List.mem_map.mp hi
  exact absurd (List.find?_eq_none.mp h d hd) (by simp)

/-! ### The root -/

/-- The tree with a root, whose id is 0. -/
def planted (a : StateAssembly) : StateAssembly :=
  { (a.declare 0).1 with builder := (a.declare 0).1.builder.setRoot (a.declare 0).2 }

theorem declareRoot_of_nil (h : a.declarations = []) : a.declareRoot 0 = a.planted := by
  rw [declareRoot, if_pos ⟨rfl, List.isEmpty_iff.mpr h⟩]
  rfl

theorem declareRoot_of_ne {id : Nat} (h : ¬ (id = 0 ∧ a.declarations = [])) :
    a.declareRoot id = a := by
  rw [declareRoot, if_neg fun hfirst => h ⟨hfirst.1, List.isEmpty_iff.mp hfirst.2⟩]

theorem find?_planted (a : StateAssembly) (i : Nat) :
    a.planted.find? i = if 0 = i then some ⟨0, a.builder.size, false⟩ else a.find? i :=
  find?_declare a 0 i

theorem content?_planted (a : StateAssembly) (u : NodeId) :
    a.planted.builder.content? u =
      if u = a.builder.size then some (.decision (.byteEquals 0 0)) else a.builder.content? u :=
  (Builder.content?_setRoot _).trans a.builder.content?_add

theorem size_planted (a : StateAssembly) : a.planted.builder.size = a.builder.size + 1 :=
  (Builder.size_setRoot _).trans a.builder.size_add

@[simp] theorem context_declareRoot (a : StateAssembly) (id : Nat) :
    (a.declareRoot id).context = a.context := by
  rw [declareRoot]
  split <;> rfl

/-! ### A reference -/

/-- The tree with a new node for a reference, which holds `x`. -/
def sprout (a : StateAssembly) (ref : Reference) (x : NodeContent) : StateAssembly :=
  { a with builder := (a.builder.add x).1,
           declarations := ref.declared a.builder.size ++ a.declarations }

@[simp] theorem size_sprout (a : StateAssembly) (ref : Reference) (x : NodeContent) :
    (a.sprout ref x).builder.size = a.builder.size + 1 :=
  Builder.size_add _

theorem find?_sprout (a : StateAssembly) (ref : Reference) (x : NodeContent) (i : Nat) :
    (a.sprout ref x).find? i =
      if ref.target? = some i then some ⟨i, a.builder.size, false⟩ else a.find? i := by
  cases ref with
  | leaf number => rfl
  | line id =>
    show (a.declare id).1.find? i = if some id = some i then _ else _
    rw [find?_declare]
    by_cases hi : id = i
    · rw [if_pos hi, if_pos (congrArg some hi), hi]
    · rw [if_neg hi, if_neg fun h => hi (Option.some_inj.mp h)]

theorem find?_sprout_eq_none_iff {x : NodeContent} :
    (a.sprout ref x).find? i = none ↔ ref.target? ≠ some i ∧ a.find? i = none := by
  rw [find?_sprout]
  split
  · next h => simp [h]
  · next h => simp [h]

/-- A reference gets a new node, unless it is to an id that occurred. -/
theorem child_eq_ok_iff {line : Nat} {name : List Char} :
    a.child line name = .ok (a', u) ↔ ∃ ref x, Reference.ofName? name = some ref ∧
      a.context.seed? ref = some x ∧ (∀ i, ref.target? = some i → a.find? i = none) ∧
      a' = a.sprout ref x ∧ u = a.builder.size := by
  rw [child.eq_def]
  constructor
  · intro h
    split at h
    · next digits =>
      split at h
      · exact absurd h (by simp)
      · next id hid =>
        split at h
        · exact absurd h (by simp)
        · next hnew =>
          obtain ⟨rfl, rfl⟩ := Prod.mk.inj (Except.ok.inj h)
          refine ⟨.line id, _, by rw [Reference.ofName?, hid]; rfl, rfl, ?_, rfl, rfl⟩
          rintro _ ⟨⟩
          exact hnew
    · next hname =>
      obtain ⟨p, hp, h⟩ := bind_eq_ok_iff.mp h
      obtain ⟨rfl, rfl⟩ := Prod.mk.inj (Except.ok.inj h)
      obtain ⟨number, hnumber, hpayload⟩ := Context.leaf_eq_ok_iff.mp hp
      refine ⟨.leaf number, .leaf p, ?_, by rw [Context.seed?, hpayload]; rfl,
        by simp [Reference.target?], rfl, rfl⟩
      rw [Reference.ofName?.eq_def]
      split
      · next digits => exact absurd rfl (hname digits)
      · rw [hnumber]
        rfl
  · rintro ⟨ref, x, href, hx, hnew, rfl, rfl⟩
    rw [Reference.ofName?.eq_def] at href
    split
    · next digits =>
      obtain ⟨id, hid, rfl⟩ := Option.map_eq_some_iff.mp href
      obtain rfl := Option.some_inj.mp hx
      simp only [hid, hnew id rfl]
      rfl
    · next hname =>
      split at href
      · next digits => exact absurd rfl (hname digits)
      · obtain ⟨number, hnumber, rfl⟩ := Option.map_eq_some_iff.mp href
        obtain ⟨p, hp, rfl⟩ := Option.map_eq_some_iff.mp hx
        exact bind_eq_ok_iff.mpr ⟨p, Context.leaf_eq_ok_iff.mpr ⟨number, hnumber, hp⟩, rfl⟩

/-! ### The children of a decision -/

/-- The two children of a decision, put into its slots one after the other. -/
theorem setChildren_cases {b b₁ b₂ : Builder} {p yes no : NodeId} {feature : Nat}
    {test : DecisionTest} (hp : b.content? p = some (.decision (.ofSlots feature test 2)))
    (hyes : b.setChild p 0 (some yes) = .ok b₁) (hno : b₁.setChild p 1 (some no) = .ok b₂) :
    (∀ u, b₂.content? u = if u = p then
        some (.decision ⟨feature, test, #[some yes, some no]⟩) else b.content? u) ∧
      b₂.root = b.root ∧ b₂.schema = b.schema := by
  obtain ⟨d₁, hd₁, -, -, rfl⟩ := b.setChild_eq_ok_iff.mp hyes
  obtain rfl : Decision.ofSlots feature test 2 = d₁ :=
    NodeContent.decision.inj (Option.some_inj.mp (hp.symm.trans hd₁))
  obtain ⟨d₂, hd₂, -, -, rfl⟩ := (Builder.setChild_eq_ok_iff _).mp hno
  have hlt := lt_size_of_content? hp
  rw [Builder.content?_place _ hlt, if_pos rfl] at hd₂
  obtain rfl := NodeContent.decision.inj (Option.some_inj.mp hd₂)
  refine ⟨fun u => ?_, by simp, by simp⟩
  rw [Builder.content?_place _ (by rwa [Builder.size_place]), Builder.content?_place _ hlt]
  by_cases hu : u = p
  · rw [if_pos hu, if_pos hu]
    rfl
  · rw [if_neg hu, if_neg hu, if_neg hu]

/-- Two nodes can become the children of a decision that has none. -/
theorem exists_setChildren {b : Builder} {p yes no : NodeId} {feature : Nat} {test : DecisionTest}
    (hp : b.content? p = some (.decision (.ofSlots feature test 2))) (hyes : yes < b.size)
    (hno : no < b.size) :
    ∃ b₁ b₂, b.setChild p 0 (some yes) = .ok b₁ ∧ b₁.setChild p 1 (some no) = .ok b₂ := by
  have hslots : (Decision.ofSlots feature test 2).children.size = 2 := Array.size_replicate
  have hp₁ : (b.place p (.ofSlots feature test 2) 0 (some yes)).content? p =
      some (.decision { Decision.ofSlots feature test 2 with
        children := (Decision.ofSlots feature test 2).children.setIfInBounds 0 (some yes) }) :=
    (b.content?_place (lt_size_of_content? hp)).trans (if_pos rfl)
  refine ⟨_, _, b.setChild_eq_ok_iff.mpr ⟨_, hp, ?_, by omega, rfl⟩,
    (Builder.setChild_eq_ok_iff _).mpr ⟨_, hp₁, ?_, ?_, rfl⟩⟩
  · rintro _ ⟨⟩
    exact hyes
  · rintro _ ⟨⟩
    rwa [Builder.size_place]
  · rw [Array.size_setIfInBounds, hslots]
    decide

/-! ### A line -/

/-- The tree in which the line of an id was begun: its node got the question. -/
def posed (a : StateAssembly) (id : Nat) (d : Declaration) (q : Decision) : StateAssembly :=
  { a.define id with builder := a.builder.setContent d.node (.decision q) }

@[simp] theorem size_posed (a : StateAssembly) (id : Nat) (d : Declaration) (q : Decision) :
    (a.posed id d q).builder.size = a.builder.size :=
  Builder.size_setContent _

theorem find?_posed_eq_none_iff {q : Decision} :
    (a.posed id d q).find? i = none ↔ a.find? i = none := by
  show (a.define id).find? i = none ↔ _
  rw [find?_define, Option.map_eq_none_iff]

theorem mem_targets_iff : i ∈ r.targets ↔ r.no.target? = some i ∨ r.yes.target? = some i := by
  rw [Rule.targets, Rule.references, List.mem_filterMap]
  simp

/-- The ids that a line refers to are new, each when its node is made. -/
theorem new_targets_iff {x : NodeContent} (ha : ∀ i, a'.find? i = none ↔ a.find? i = none) :
    ((∀ i, r.yes.target? = some i → a'.find? i = none) ∧
      ∀ i, r.no.target? = some i → (a'.sprout r.yes x).find? i = none) ↔
      r.targets.Nodup ∧ ∀ i ∈ r.targets, a.find? i = none := by
  simp only [find?_sprout_eq_none_iff, ha, Rule.targets, Rule.references, List.filterMap_cons,
    List.filterMap_nil]
  cases r.yes <;> cases r.no <;> simp [Reference.target?]
  grind

/-- The tree when the node of a line has got its question, and there are nodes for what the
line refers to, which hold `x` and `y`. -/
def budded (a : StateAssembly) (r : Rule) (d : Declaration) (q : Decision) (x y : NodeContent) :
    StateAssembly :=
  ((a.posed r.id d q).sprout r.yes x).sprout r.no y

theorem content?_budded (hlt : d.node < a.builder.size) (u : NodeId) :
    (a.budded r d q x y).builder.content? u =
      if u = a.builder.size + 1 then some y else if u = a.builder.size then some x
      else if u = d.node then some (.decision q) else a.builder.content? u := by
  show (((a.posed r.id d q).builder.add x).1.add y).1.content? u = _
  rw [Builder.content?_add, Builder.content?_add, Builder.size_add, size_posed]
  have hposed : (a.posed r.id d q).builder.content? u =
      if u = d.node then some (.decision q) else a.builder.content? u :=
    Builder.content?_setContent _ hlt
  rw [hposed]

theorem content?_budded_own (hlt : d.node < a.builder.size) :
    (a.budded r d q x y).builder.content? d.node = some (.decision q) := by
  rw [content?_budded hlt, if_neg (Nat.ne_of_lt (Nat.lt_succ_of_lt hlt)),
    if_neg (Nat.ne_of_lt hlt), if_pos rfl]

theorem find?_budded (i : Nat) :
    (a.budded r d q x y).find? i =
      if r.no.target? = some i then some ⟨i, a.builder.size + 1, false⟩
      else if r.yes.target? = some i then some ⟨i, a.builder.size, false⟩
      else (a.define r.id).find? i := by
  rw [budded, find?_sprout, find?_sprout, size_sprout, size_posed]
  rfl

theorem find?_budded_eq_none_iff :
    (a.budded r d q x y).find? i = none ↔ i ∉ r.targets ∧ a.find? i = none := by
  rw [budded, find?_sprout_eq_none_iff, find?_sprout_eq_none_iff, find?_posed_eq_none_iff,
    mem_targets_iff, not_or, and_assoc]

/-- What the line of a rule makes of a tree: the node of its id, whose line was not read
before, gets the question and two new nodes as children. -/
inductive Takes (a : StateAssembly) (r : Rule) (q : Decision) : StateAssembly → Prop
  | intro {d : Declaration} {x y : NodeContent} {b b' : Builder} :
      a.find? r.id = some d → d.isDefined = false →
      a.context.seed? r.yes = some x → a.context.seed? r.no = some y →
      r.targets.Nodup → (∀ i ∈ r.targets, a.find? i = none) →
      (a.budded r d q x y).builder.setChild d.node 0 (some a.builder.size) = .ok b →
      b.setChild d.node 1 (some (a.builder.size + 1)) = .ok b' →
      Takes a r q { a.budded r d q x y with builder := b' }

/-- The ids that occurred before a line and those that the line refers to have occurred
after it. -/
theorem Takes.find?_eq_none_iff (h : a.Takes r q a') :
    a'.find? i = none ↔ i ∉ r.targets ∧ a.find? i = none := by
  cases h with
  | @intro d x y => exact find?_budded_eq_none_iff (d := d) (q := q) (x := x) (y := y)

/-- The references of a line get new nodes one after the other. -/
theorem children_eq_ok_iff (line : Nat) {yes no : List Char} {a₂ : StateAssembly} {v : NodeId}
    {q : Decision} (hyes : Reference.ofName? yes = some r.yes)
    (hno : Reference.ofName? no = some r.no) :
    ((a.posed r.id d q).child line yes = .ok (a', u) ∧ a'.child line no = .ok (a₂, v)) ↔
      ∃ x y, a.context.seed? r.yes = some x ∧ a.context.seed? r.no = some y ∧
        (r.targets.Nodup ∧ ∀ i ∈ r.targets, a.find? i = none) ∧
        a' = (a.posed r.id d q).sprout r.yes x ∧ u = a.builder.size ∧
        a₂ = a.budded r d q x y ∧ v = a.builder.size + 1 := by
  have hposed : ∀ i, (a.posed r.id d q).find? i = none ↔ a.find? i = none :=
    fun i => find?_posed_eq_none_iff
  have hnew := fun x => new_targets_iff (r := r) (x := x) hposed
  have hsize : ∀ x, ((a.posed r.id d q).sprout r.yes x).builder.size = a.builder.size + 1 :=
    fun x => by rw [size_sprout, size_posed]
  rw [child_eq_ok_iff, child_eq_ok_iff]
  constructor
  · rintro ⟨⟨yesRef, x, hyesRef, hx, hyesNew, rfl, rfl⟩, noRef, y, hnoRef, hy, hnoNew, rfl, rfl⟩
    obtain rfl := Option.some_inj.mp (hyes.symm.trans hyesRef)
    obtain rfl := Option.some_inj.mp (hno.symm.trans hnoRef)
    exact ⟨x, y, hx, hy, (hnew x).mp ⟨hyesNew, hnoNew⟩, rfl, size_posed a r.id d q, rfl, hsize x⟩
  · rintro ⟨x, y, hx, hy, htargets, rfl, rfl, rfl, rfl⟩
    obtain ⟨hyesNew, hnoNew⟩ := (hnew x).mpr htargets
    exact ⟨⟨r.yes, x, hyes, hx, hyesNew, rfl, (size_posed a r.id d q).symm⟩, r.no, y, hno, hy,
      hnoNew, rfl, (hsize x).symm⟩

/-- Reading a line is taking it up, after the root was declared if it is the first one. -/
theorem addLine_eq_ok_iff {line : Nat} {text : String} :
    a.addLine line text = .ok a' ↔
      ∃ r q, a.context.Says line text r q ∧ (a.declareRoot r.id).Takes r q a' := by
  rw [StateAssembly.addLine]
  constructor
  · intro h
    split at h
    · next name question no yes hwords =>
      split at h
      · exact absurd h (by simp)
      · next id hid =>
        dsimp only at h
        split at h
        · exact absurd h (by simp)
        · next d hd =>
          obtain ⟨hd, hopen⟩ := Option.filter_eq_some_iff.mp hd
          obtain ⟨q, hquestion, h⟩ := bind_eq_ok_iff.mp h
          obtain ⟨⟨a₁, yesNode⟩, hyes, h⟩ := bind_eq_ok_iff.mp h
          obtain ⟨⟨a₂, noNode⟩, hno, h⟩ := bind_eq_ok_iff.mp h
          obtain ⟨b, hb, h⟩ := bind_eq_ok_iff.mp h
          obtain ⟨b', hb', h⟩ := bind_eq_ok_iff.mp h
          obtain rfl := Except.ok.inj h
          -- the parts of the text make up the rule
          rw [context_declareRoot] at hquestion
          obtain ⟨feature, ordinal, -, hasked, -⟩ := Context.question_cases hquestion
          obtain ⟨yesRef, -, hyesRef, -⟩ := child_eq_ok_iff.mp hyes
          obtain ⟨noRef, -, hnoRef, -⟩ := child_eq_ok_iff.mp hno
          obtain ⟨x, y, hx, hy, ⟨hnodup, hnew⟩, rfl, rfl, rfl, rfl⟩ :=
            (children_eq_ok_iff _ (r := ⟨id, feature, ordinal, noRef, yesRef⟩) hyesRef hnoRef).mp
              ⟨hyes, hno⟩
          exact ⟨⟨id, feature, ordinal, noRef, yesRef⟩, q,
            ⟨name, question, no, yes, hwords, hid, hquestion, hasked, hnoRef, hyesRef⟩,
            .intro hd (by simpa using hopen) hx hy hnodup hnew (mapError_eq_ok_iff.mp hb)
              (mapError_eq_ok_iff.mp hb')⟩
    · exact absurd h (by simp)
  · rintro ⟨r, q, ⟨name, question, no, yes, hwords, hid, hquestion, -, hno, hyes⟩, htakes⟩
    cases htakes with
    | @intro d x y b b' hd hopen hx hy hnodup hnew hb hb' =>
      obtain ⟨hyesChild, hnoChild⟩ := (children_eq_ok_iff line (q := q) hyes hno).mpr
        ⟨x, y, hx, hy, ⟨hnodup, hnew⟩, rfl, rfl, rfl, rfl⟩
      have hfound : ((a.declareRoot r.id).find? r.id).filter (!·.isDefined) = some d :=
        Option.filter_eq_some_iff.mpr ⟨hd, by simp [hopen]⟩
      rw [hwords]
      dsimp only
      rw [hid]
      dsimp only
      rw [hfound]
      exact bind_eq_ok_iff.mpr ⟨q, by rw [context_declareRoot]; exact hquestion,
        bind_eq_ok_iff.mpr ⟨_, hyesChild, bind_eq_ok_iff.mpr ⟨_, hnoChild,
          bind_eq_ok_iff.mpr ⟨b, mapError_eq_ok_iff.mpr hb,
            bind_eq_ok_iff.mpr ⟨b', mapError_eq_ok_iff.mpr hb', rfl⟩⟩⟩⟩⟩

end StateAssembly

end FeatureTree.Hts
