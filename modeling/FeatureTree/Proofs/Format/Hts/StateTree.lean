/-
The tree of a state does what its lines say.

While the lines are read, every id that occurred has a node of its own, and the node of
an id whose line was read has the question of the line and two children that stand for
its references.  At the end every id has had its line.

* `Hts.StateAssembly.Follows` — the tree, as far as it was read, follows the lines;
* `Hts.StateAssembly.Follows.takes`, `Hts.StateAssembly.Follows.addLine` — one more line.
-/
import FeatureTree.Proofs.Format.Hts.Steps
import FeatureTree.Proofs.Tree.Routing

namespace FeatureTree

open Arena

/-! ### Nodes of a kind -/

/-- Arenas whose nodes are of the same kinds have equally many nodes of each. -/
theorem Arena.countP_eq_of_content {a b : Arena} {q : Node → Bool}
    (hq : ∀ n, q n = q { content := n.content })
    (h : ∀ u, (b.content? u).map (fun x => q { content := x }) =
      (a.content? u).map fun x => q { content := x }) :
    b.nodes.countP q = a.nodes.countP q := by
  have hmap : b.nodes.map q = a.nodes.map q := by
    refine Array.ext_getElem? fun u => ?_
    have hu := h u
    rw [content?, content?, Option.map_map, Option.map_map] at hu
    rw [Array.getElem?_map, Array.getElem?_map, funext hq]
    exact hu
  have hcount := congrArg (Array.countP id) hmap
  rwa [Array.countP_map, Array.countP_map] at hcount

namespace Hts.StateAssembly

variable {a a' : StateAssembly} {rules : List Rule} {opened : List Nat} {leaves : Nat}
  {id i : Nat} {d : Declaration} {u : NodeId} {r : Rule} {ref : Reference}

/-! ### What the nodes stand for -/

/-- A node stands for a reference: it is that of the line, or a leaf with the payload of
the number. -/
def Stands (a : StateAssembly) : Reference → NodeId → Prop
  | .line id, u => ∃ d, a.find? id = some d ∧ d.node = u
  | .leaf number, u => ∃ p, a.context.payload? number = some p ∧
      a.builder.content? u = some (.leaf p)

/-- The node of a line asks its question, and its children stand for its references. -/
def Obeys (a : StateAssembly) (r : Rule) : Prop :=
  ∃ d test yes no, a.find? r.id = some d ∧
    a.builder.content? d.node = some (.decision ⟨r.feature, test, #[some yes, some no]⟩) ∧
    a.context.schema.Asks r.feature r.ordinal test ∧ a.Stands r.yes yes ∧ a.Stands r.no no

/-- The ids keep their nodes, and the leaves what they hold. -/
structure Keeps (a a' : StateAssembly) : Prop where
  context : a'.context = a.context
  node : ∀ i d, a.find? i = some d → ∃ d', a'.find? i = some d' ∧ d'.node = d.node
  leaf : ∀ u p, a.builder.content? u = some (.leaf p) → a'.builder.content? u = some (.leaf p)

theorem Keeps.trans {b : StateAssembly} (h : Keeps a b) (h' : Keeps b a') : Keeps a a' where
  context := h'.context.trans h.context
  node := by
    intro i d hd
    obtain ⟨e, he, hnode⟩ := h.node i d hd
    obtain ⟨e', he', hnode'⟩ := h'.node i e he
    exact ⟨e', he', hnode'.trans hnode⟩
  leaf := fun u p hp => h'.leaf u p (h.leaf u p hp)

theorem Stands.mono (h : a.Stands ref u) (hk : Keeps a a') : a'.Stands ref u := by
  cases ref with
  | line id =>
    obtain ⟨d, hd, hu⟩ := h
    obtain ⟨d', hd', hnode⟩ := hk.node id d hd
    exact ⟨d', hd', hnode.trans hu⟩
  | leaf number =>
    obtain ⟨p, hp, hu⟩ := h
    exact ⟨p, by rw [hk.context]; exact hp, hk.leaf u p hu⟩

theorem Obeys.mono (h : a.Obeys r) (hk : Keeps a a')
    (hcontent : ∀ d, a.find? r.id = some d → ∀ x, a.builder.content? d.node = some x →
      a'.builder.content? d.node = some x) : a'.Obeys r := by
  obtain ⟨d, test, yes, no, hd, hx, hasks, hyes, hno⟩ := h
  obtain ⟨d', hd', hnode⟩ := hk.node _ d hd
  refine ⟨d', test, yes, no, hd', ?_, ?_, hyes.mono hk, hno.mono hk⟩
  · rw [hnode]
    exact hcontent d hd _ hx
  · rw [hk.context]
    exact hasks

/-- The tree follows the lines that were read; `opened` are the ids whose lines are being
read, and `leaves` counts the leaves so far. -/
structure Follows (a : StateAssembly) (rules : List Rule) (opened : List Nat) (leaves : Nat) :
    Prop where
  schema : a.builder.schema = a.context.schema
  ids : (a.declarations.map Declaration.id).Nodup
  node_inj : ∀ i j d e, a.find? i = some d → a.find? j = some e → d.node = e.node → i = j
  decision : ∀ i d, a.find? i = some d → ∃ x, a.builder.content? d.node = some (.decision x)
  known : ∀ i ∈ opened ++ rules.map Rule.id, ∃ d, a.find? i = some d
  defined : ∀ i d, a.find? i = some d →
    (d.isDefined = true ↔ i ∈ opened ++ rules.map Rule.id)
  distinct : (opened ++ rules.map Rule.id).Nodup
  obeys : ∀ r ∈ rules, a.Obeys r
  decisions : a.builder.nodes.countP Node.isDecision = a.declarations.length
  leaf_count : a.builder.nodes.countP Node.isLeaf = leaves

/-- The root is the node of line 0. -/
def Rooted (a : StateAssembly) : Prop :=
  ∃ d, a.find? 0 = some d ∧ a.builder.root = some d.node

theorem Rooted.mono (h : a.Rooted) (hk : Keeps a a')
    (hroot : a'.builder.root = a.builder.root) : a'.Rooted := by
  obtain ⟨d, hd, hnode⟩ := h
  obtain ⟨d', hd', hsame⟩ := hk.node 0 d hd
  exact ⟨d', hd', by rw [hroot, hnode, hsame]⟩

theorem follows_start (c : Context) : (start c).Follows [] [] 0 where
  schema := rfl
  ids := List.nodup_nil
  node_inj := fun _ _ _ _ hd => absurd hd (by simp [start, find?])
  decision := fun _ _ hd => absurd hd (by simp [start, find?])
  known := fun _ hi => absurd hi (by simp)
  defined := fun _ _ hd => absurd hd (by simp [start, find?])
  distinct := List.nodup_nil
  obeys := fun _ hr => absurd hr (by simp)
  decisions := rfl
  leaf_count := rfl

/-! ### The steps in the reading of a line -/

theorem keeps_declare (hnew : a.find? id = none) : Keeps a (a.declare id).1 where
  context := rfl
  node := by
    intro i d hd
    refine ⟨d, ?_, rfl⟩
    rw [find?_declare, if_neg, hd]
    rintro rfl
    simp [hnew] at hd
  leaf := fun _ _ hp => a.builder.content?_add_of_eq_some hp

theorem Follows.declare (h : a.Follows rules opened leaves) (hnew : a.find? id = none) :
    (a.declare id).1.Follows rules opened leaves := by
  have hkeeps := keeps_declare hnew
  have hlt : ∀ {i d}, a.find? i = some d → d.node < a.builder.size := by
    intro i d hd
    obtain ⟨x, hx⟩ := h.decision i d hd
    exact lt_size_of_content? hx
  have hcontent : ∀ u, (a.declare id).1.builder.content? u =
      if u = a.builder.size then some (.decision (.byteEquals 0 0)) else a.builder.content? u :=
    fun u => a.builder.content?_add
  refine
    { schema := h.schema, ids := ?_, node_inj := ?_, decision := ?_, known := ?_,
      defined := ?_, distinct := h.distinct, obeys := ?_, decisions := ?_, leaf_count := ?_ }
  · exact List.nodup_cons.mpr ⟨not_mem_of_find?_eq_none hnew, h.ids⟩
  · intro i j d e hd he hnode
    rw [find?_declare] at hd he
    split at hd <;> split at he
    · next hi hj => exact hi.symm.trans hj
    · obtain rfl := Option.some_inj.mp hd
      exact absurd (hlt he) (hnode ▸ Nat.lt_irrefl _)
    · obtain rfl := Option.some_inj.mp he
      exact absurd (hlt hd) (hnode ▸ Nat.lt_irrefl _)
    · exact h.node_inj i j d e hd he hnode
  · intro i d hd
    rw [find?_declare] at hd
    rw [hcontent]
    split at hd
    · obtain rfl := Option.some_inj.mp hd
      exact ⟨_, if_pos rfl⟩
    · rw [if_neg (Nat.ne_of_lt (hlt hd))]
      exact h.decision i d hd
  · intro i hi
    obtain ⟨d, hd⟩ := h.known i hi
    obtain ⟨d', hd', -⟩ := hkeeps.node i d hd
    exact ⟨d', hd'⟩
  · intro i d hd
    rw [find?_declare] at hd
    split at hd
    · next hi =>
      obtain rfl := Option.some_inj.mp hd
      refine ⟨fun hd => absurd hd (by simp), fun hmem => ?_⟩
      obtain ⟨e, he⟩ := h.known i hmem
      rw [← hi, hnew] at he
      exact absurd he (by simp)
    · exact h.defined i d hd
  · intro r hr
    refine (h.obeys r hr).mono hkeeps fun d hd x hx => ?_
    rw [hcontent, if_neg (Nat.ne_of_lt (hlt hd)), hx]
  · exact Array.countP_push.trans (congrArg (· + 1) h.decisions)
  · exact Array.countP_push.trans h.leaf_count

theorem keeps_addLeaf (p : Payload) :
    Keeps a { a with builder := (a.builder.addLeaf p).1 } where
  context := rfl
  node := fun _ d hd => ⟨d, hd, rfl⟩
  leaf := fun _ _ hq => a.builder.content?_add_of_eq_some hq

theorem Follows.addLeaf (h : a.Follows rules opened leaves) (p : Payload) :
    ({ a with builder := (a.builder.addLeaf p).1 } : StateAssembly).Follows rules opened
      (leaves + 1) := by
  refine
    { schema := h.schema, ids := h.ids, node_inj := h.node_inj, decision := ?_, known := h.known,
      defined := h.defined, distinct := h.distinct, obeys := ?_, decisions := ?_,
      leaf_count := ?_ }
  · intro i d hd
    obtain ⟨x, hx⟩ := h.decision i d hd
    exact ⟨x, a.builder.content?_add_of_eq_some hx⟩
  · exact fun r hr => (h.obeys r hr).mono (keeps_addLeaf p) fun _ _ _ hx =>
      a.builder.content?_add_of_eq_some hx
  · exact Array.countP_push.trans h.decisions
  · exact Array.countP_push.trans (congrArg (· + 1) h.leaf_count)

/-- The builder changed at most in the decision of an id whose line is not done. -/
structure Alters (rules : List Rule) (a a' : StateAssembly) : Prop where
  declarations : a'.declarations = a.declarations
  context : a'.context = a.context
  schema : a'.builder.schema = a.builder.schema
  content : ∀ u, a'.builder.content? u = a.builder.content? u ∨
    ∃ i d x, a.find? i = some d ∧ i ∉ rules.map Rule.id ∧ d.node = u ∧
      a'.builder.content? u = some (.decision x)

theorem Alters.find?_eq (hc : Alters rules a a') (i : Nat) : a'.find? i = a.find? i := by
  rw [find?, find?, hc.declarations]

theorem Follows.keeps_of_alters (h : a.Follows rules opened leaves) (hc : Alters rules a a') :
    Keeps a a' where
  context := hc.context
  node := fun i d hd => ⟨d, (hc.find?_eq i).trans hd, rfl⟩
  leaf := by
    intro u p hp
    rcases hc.content u with hu | ⟨i, d, x, hd, -, rfl, -⟩
    · exact hu.trans hp
    · obtain ⟨y, hy⟩ := h.decision i d hd
      exact absurd (hy.symm.trans hp) (by simp)

theorem Follows.alter (h : a.Follows rules opened leaves) (hc : Alters rules a a') :
    a'.Follows rules opened leaves := by
  have hkeeps := h.keeps_of_alters hc
  -- a changed node was a decision and is one again
  have hkind : ∀ p : NodeContent → Bool, (∀ x y, p (.decision x) = p (.decision y)) →
      ∀ u, (a'.builder.content? u).map p = (a.builder.content? u).map p := by
    intro p hp u
    rcases hc.content u with hu | ⟨i, d, x, hd, -, rfl, hx⟩
    · rw [hu]
    · obtain ⟨y, hy⟩ := h.decision i d hd
      rw [hx, hy, Option.map_some, Option.map_some, hp x y]
  refine
    { schema := hc.schema.trans (h.schema.trans (congrArg Context.schema hc.context.symm)),
      ids := by rw [hc.declarations]; exact h.ids, node_inj := ?_, decision := ?_, known := ?_,
      defined := ?_, distinct := h.distinct, obeys := ?_, decisions := ?_, leaf_count := ?_ }
  · intro i j d e hd he
    rw [hc.find?_eq] at hd he
    exact h.node_inj i j d e hd he
  · intro i d hd
    rw [hc.find?_eq] at hd
    rcases hc.content d.node with hu | ⟨-, -, x, -, -, -, hx⟩
    · rw [hu]
      exact h.decision i d hd
    · exact ⟨x, hx⟩
  · intro i hi
    rw [hc.find?_eq]
    exact h.known i hi
  · intro i d hd
    rw [hc.find?_eq] at hd
    exact h.defined i d hd
  · intro r hr
    refine (h.obeys r hr).mono hkeeps fun d hd x hx => ?_
    rcases hc.content d.node with hu | ⟨i, e, y, he, hi, hnode, -⟩
    · exact hu.trans hx
    · -- the altered node belongs to another id
      rw [h.node_inj i r.id e d he hd hnode] at hi
      exact absurd (List.mem_map_of_mem hr) hi
  · rw [hc.declarations, ← h.decisions]
    exact countP_eq_of_content (fun _ => rfl) (hkind _ fun _ _ => rfl)
  · rw [← h.leaf_count]
    exact countP_eq_of_content (fun _ => rfl) (hkind _ fun _ _ => rfl)

theorem keeps_define (a : StateAssembly) (id : Nat) : Keeps a (a.define id) where
  context := rfl
  node := by
    intro i d hd
    rw [find?_define, hd]
    refine ⟨_, rfl, ?_⟩
    dsimp only
    split <;> rfl
  leaf := fun _ _ hp => hp

/-- The line of an id begins: from now on the id counts as defined. -/
theorem Follows.define (h : a.Follows rules [] leaves) (hd : a.find? id = some d)
    (hopen : d.isDefined = false) : (a.define id).Follows rules [id] leaves := by
  have hnot : id ∉ rules.map Rule.id := fun hmem => by
    rw [(h.defined id d hd).mpr hmem] at hopen
    exact absurd hopen (by simp)
  have hcases : ∀ {i e}, (a.define id).find? i = some e → ∃ e₀, a.find? i = some e₀ ∧
      e.node = e₀.node ∧ (e.isDefined = true ↔ i = id ∨ e₀.isDefined = true) := by
    intro i e he
    rw [find?_define] at he
    obtain ⟨e₀, he₀, rfl⟩ := Option.map_eq_some_iff.mp he
    have hid := id_of_find? he₀
    refine ⟨e₀, he₀, ?_⟩
    split
    · next hi => exact ⟨rfl, by simp [← hid, hi]⟩
    · next hi => exact ⟨rfl, by simp [← hid, hi]⟩
  refine
    { schema := h.schema, ids := ?_, node_inj := ?_, decision := ?_, known := ?_,
      defined := ?_, distinct := List.nodup_cons.mpr ⟨hnot, h.distinct⟩, obeys := ?_,
      decisions := ?_, leaf_count := h.leaf_count }
  · have hids : (a.define id).declarations.map Declaration.id =
        a.declarations.map Declaration.id := by
      rw [StateAssembly.define, List.map_map]
      refine List.map_congr_left fun e _ => ?_
      simp only [Function.comp]
      split <;> rfl
    rw [hids]
    exact h.ids
  · intro i j e f he hf hnode
    obtain ⟨e₀, he₀, hen, -⟩ := hcases he
    obtain ⟨f₀, hf₀, hfn, -⟩ := hcases hf
    exact h.node_inj i j e₀ f₀ he₀ hf₀ (by rw [← hen, ← hfn, hnode])
  · intro i e he
    obtain ⟨e₀, he₀, hen, -⟩ := hcases he
    rw [hen]
    exact h.decision i e₀ he₀
  · intro i hi
    have hfound : ∃ e, a.find? i = some e := by
      rcases List.mem_cons.mp hi with rfl | hi
      · exact ⟨d, hd⟩
      · exact h.known i hi
    obtain ⟨e, he⟩ := hfound
    obtain ⟨e', he', -⟩ := (keeps_define a id).node i e he
    exact ⟨e', he'⟩
  · intro i e he
    obtain ⟨e₀, he₀, -, hdef⟩ := hcases he
    rw [hdef, h.defined i e₀ he₀]
    exact List.mem_cons.symm
  · exact fun r hr => (h.obeys r hr).mono (keeps_define a id) fun _ _ _ hx => hx
  · rw [StateAssembly.define, List.length_map]
    exact h.decisions

/-- The line of an id is done. -/
theorem Follows.close (h : a.Follows rules [r.id] leaves) (hr : a.Obeys r) :
    a.Follows (rules ++ [r]) [] leaves := by
  have hmem : ∀ i, i ∈ [] ++ (rules ++ [r]).map Rule.id ↔ i ∈ [r.id] ++ rules.map Rule.id := by
    intro i
    rw [List.map_append, List.nil_append, List.mem_append, List.mem_append]
    exact Or.comm
  refine
    { schema := h.schema, ids := h.ids, node_inj := h.node_inj, decision := h.decision,
      known := fun i hi => h.known i ((hmem i).mp hi),
      defined := fun i d hd => (h.defined i d hd).trans (hmem i).symm, distinct := ?_,
      obeys := ?_, decisions := h.decisions, leaf_count := h.leaf_count }
  · rw [List.map_append, List.nil_append]
    exact (List.perm_append_comm.nodup_iff).mp h.distinct
  · intro q hq
    rcases List.mem_append.mp hq with hq | hq
    · exact h.obeys q hq
    · rw [List.mem_singleton.mp hq]
      exact hr

/-! ### One line -/

/-- A new node stands for its reference, and nothing else changes. -/
theorem Follows.sprout (h : a.Follows rules opened leaves) {x : NodeContent}
    (hx : a.context.seed? ref = some x) (hnew : ∀ i, ref.target? = some i → a.find? i = none) :
    (a.sprout ref x).Follows rules opened (leaves + if ref.isLeaf then 1 else 0) ∧
      (a.sprout ref x).Stands ref a.builder.size ∧ Keeps a (a.sprout ref x) := by
  cases ref with
  | line id =>
    obtain rfl := Option.some_inj.mp hx
    have hfind := hnew id rfl
    exact ⟨h.declare hfind, ⟨_, (find?_declare a id id).trans (if_pos rfl), rfl⟩,
      keeps_declare hfind⟩
  | leaf number =>
    obtain ⟨p, hp, rfl⟩ := Option.map_eq_some_iff.mp hx
    exact ⟨h.addLeaf p, ⟨p, hp, (a.builder.content?_add).trans (if_pos rfl)⟩, keeps_addLeaf p⟩

theorem Follows.declareRoot (h : a.Follows rules [] leaves) (id : Nat) :
    (a.declareRoot id).Follows rules [] leaves := by
  rw [StateAssembly.declareRoot]
  split
  · next hfirst =>
    have hnew : a.find? 0 = none := by
      rw [find?, List.isEmpty_iff.mp hfirst.2]
      rfl
    exact (h.declare hnew).alter ⟨rfl, rfl, rfl, fun u => .inl (Builder.content?_setRoot _)⟩
  · exact h

theorem rooted_declareRoot (hroot : a.declarations = [] ∨ a.Rooted) (id : Nat) :
    (a.declareRoot id).declarations = [] ∨ (a.declareRoot id).Rooted := by
  rw [StateAssembly.declareRoot]
  split
  · exact .inr ⟨_, (find?_declare a 0 0).trans (if_pos rfl), rfl⟩
  · exact hroot

theorem Follows.pose (h : a.Follows rules [] leaves) (hd : a.find? id = some d)
    (hopen : d.isDefined = false) (q : Decision) :
    (a.posed id d q).Follows rules [id] leaves ∧ Keeps a (a.posed id d q) ∧
      (a.posed id d q).builder.content? d.node = some (.decision q) := by
  have hdefined := h.define hd hopen
  obtain ⟨y, hy⟩ := h.decision id d hd
  have hcontent : ∀ u, (a.posed id d q).builder.content? u =
      if u = d.node then some (.decision q) else (a.define id).builder.content? u :=
    fun u => Builder.content?_setContent _ (lt_size_of_content? hy)
  obtain ⟨d', hd', hnode⟩ := (keeps_define a id).node id d hd
  have halters : Alters rules (a.define id) (a.posed id d q) := by
    refine ⟨rfl, rfl, rfl, fun u => ?_⟩
    by_cases hu : u = d.node
    · refine .inr ⟨id, d', q, hd', ?_, hnode.trans hu.symm, (hcontent u).trans (if_pos hu)⟩
      exact (List.nodup_cons.mp hdefined.distinct).1
    · exact .inl ((hcontent u).trans (if_neg hu))
  exact ⟨hdefined.alter halters, (keeps_define a id).trans (hdefined.keeps_of_alters halters),
    (hcontent _).trans (if_pos rfl)⟩

/-- The node of a line that is being read gets its children, which ends the line. -/
theorem Follows.answer (h : a.Follows rules [r.id] leaves) {test : DecisionTest}
    {yes no : NodeId} {b₁ b₂ : Builder} (hd : a.find? r.id = some d)
    (hcontent : a.builder.content? d.node = some (.decision (.ofSlots r.feature test 2)))
    (hasks : a.context.schema.Asks r.feature r.ordinal test) (hyes : a.Stands r.yes yes)
    (hno : a.Stands r.no no) (hb₁ : a.builder.setChild d.node 0 (some yes) = .ok b₁)
    (hb₂ : b₁.setChild d.node 1 (some no) = .ok b₂) :
    ({ a with builder := b₂ } : StateAssembly).Follows (rules ++ [r]) [] leaves ∧
      Keeps a { a with builder := b₂ } ∧ b₂.root = a.builder.root := by
  obtain ⟨hchildren, hroot, hschema⟩ := setChildren_cases hcontent hb₁ hb₂
  have halters : Alters rules a { a with builder := b₂ } := by
    refine ⟨rfl, rfl, hschema, fun u => ?_⟩
    by_cases hu : u = d.node
    · exact .inr ⟨r.id, d, _, hd, (List.nodup_cons.mp h.distinct).1, hu.symm,
        (hchildren u).trans (if_pos hu)⟩
    · exact .inl ((hchildren u).trans (if_neg hu))
  have hkeeps := h.keeps_of_alters halters
  refine ⟨(h.alter halters).close ?_, hkeeps, hroot⟩
  exact ⟨d, test, yes, no, hd, (hchildren _).trans (if_pos rfl), hasks, hyes.mono hkeeps,
    hno.mono hkeeps⟩

/-- Taking up a line keeps the tree in line with the lines that were read, this one
included. -/
theorem Follows.takes (h : a.Follows rules [] leaves) {line : Nat} {text : String} {q : Decision}
    (hread : a.context.Says line text r q) (htakes : a.Takes r q a') :
    a'.Follows (rules ++ [r]) [] (leaves + r.references.countP Reference.isLeaf) ∧ Keeps a a' ∧
      a'.builder.root = a.builder.root := by
  obtain ⟨test, rfl, hasks, -⟩ := hread.cases
  cases htakes with
  | @intro d x y b b' hd hopen hx hy hnodup hnew hb hb' =>
    have hposed : ∀ i, (a.posed r.id d (.ofSlots r.feature test 2)).find? i = none ↔
        a.find? i = none := fun i => find?_posed_eq_none_iff
    obtain ⟨hyesNew, hnoNew⟩ := (new_targets_iff (x := x) hposed).mpr ⟨hnodup, hnew⟩
    -- the question, the node for yes, the node for no, and the slots
    obtain ⟨h₁, hkeeps₁, hask⟩ := h.pose hd hopen (.ofSlots r.feature test 2)
    obtain ⟨h₂, hyesStands, hkeeps₂⟩ := h₁.sprout hx hyesNew
    obtain ⟨h₃, hnoStands, hkeeps₃⟩ := h₂.sprout hy hnoNew
    rw [size_posed] at hyesStands
    rw [size_sprout, size_posed] at hnoStands
    have hask₃ := Builder.content?_add_of_eq_some _ (x := y)
      (Builder.content?_add_of_eq_some _ (x := x) hask)
    have hkeeps := (hkeeps₁.trans hkeeps₂).trans hkeeps₃
    obtain ⟨d₃, hd₃, hnode₃⟩ := hkeeps.node r.id d hd
    rw [← hnode₃] at hask₃ hb hb'
    obtain ⟨h₄, hkeeps₄, hroot₄⟩ := h₃.answer hd₃ hask₃
      (by rw [hkeeps.context]; exact hasks) (hyesStands.mono hkeeps₃) hnoStands hb hb'
    have hcount : leaves + r.references.countP Reference.isLeaf =
        leaves + (if r.yes.isLeaf then 1 else 0) + (if r.no.isLeaf then 1 else 0) := by
      simp only [Rule.references, List.countP_cons, List.countP_nil]
      omega
    rw [hcount]
    exact ⟨h₄, hkeeps.trans hkeeps₄, hroot₄⟩

/-- Reading a line keeps the tree in line with the lines that were read, this one
included. -/
theorem Follows.addLine (h : a.Follows rules [] leaves)
    (hroot : a.declarations = [] ∨ a.Rooted) {line : Nat} {text : String}
    (hline : a.addLine line text = .ok a') :
    ∃ r, a.context.rule? text = some r ∧
      a'.Follows (rules ++ [r]) [] (leaves + r.references.countP Reference.isLeaf) ∧
      a'.Rooted ∧ a'.context = a.context := by
  obtain ⟨r, q, hread, htakes⟩ := addLine_eq_ok_iff.mp hline
  have hrooted : (a.declareRoot r.id).Rooted := by
    refine (rooted_declareRoot hroot r.id).resolve_left fun hempty => ?_
    cases htakes with
    | intro hd =>
      rw [find?, hempty] at hd
      exact absurd hd (by simp)
  obtain ⟨h', hkeeps, hroot'⟩ :=
    (h.declareRoot r.id).takes (by rwa [context_declareRoot]) htakes
  exact ⟨r, hread.rule?, h', hrooted.mono hkeeps hroot',
    hkeeps.context.trans (context_declareRoot a r.id)⟩

end Hts.StateAssembly

end FeatureTree
