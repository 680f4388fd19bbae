/-
The tree of a state while its lines are read.

The nodes form a tree at any time.  An id that was referred to and whose line has not
been read has a node that holds a placeholder; its line gives the node a question and two
new children.  So a line can be taken up exactly if its id has such a node and what it
refers to has not occurred, and once all ids have had their lines there is a tree.

* `Hts.StateAssembly.Open` — an id whose line has not been read;
* `Hts.StateAssembly.Grows` — the shape of the nodes, and its step `Grows.takes`;
* `Hts.StateAssembly.exists_takes` — when a line can be taken up;
* `Hts.StateAssembly.Grows.exists_cart` — the tree at the end.
-/
import FeatureTree.Proofs.Format.Hts.StateTree
import FeatureTree.Proofs.Tree.Forking

namespace FeatureTree.Hts

open Arena

theorem Context.childless_of_seed? {c : Context} {ref : Reference} {x : NodeContent}
    (h : c.seed? ref = some x) : Builder.Childless (some x) := by
  cases ref with
  | line id =>
    obtain rfl := Option.some_inj.mp h
    exact Builder.childless_of_replicate rfl
  | leaf number =>
    obtain ⟨p, -, rfl⟩ := Option.map_eq_some_iff.mp h
    exact Builder.childless_leaf p

/-- Only the node for a line holds a decision at first, and it is a placeholder. -/
theorem Context.seed?_eq_decision {c : Context} {ref : Reference} {z : Decision}
    (h : c.seed? ref = some (.decision z)) : ∃ i, ref.target? = some i := by
  cases ref with
  | line id => exact ⟨id, rfl⟩
  | leaf number =>
    obtain ⟨p, -, hp⟩ := Option.map_eq_some_iff.mp h
    exact absurd hp (by simp)

theorem Context.seed?_of_target? {c : Context} {ref : Reference} {i : Nat}
    (h : ref.target? = some i) : c.seed? ref = some (.decision (.byteEquals 0 0)) := by
  cases ref with
  | line id => rfl
  | leaf number => exact absurd h (by simp [Reference.target?])

namespace StateAssembly

variable {a a' : StateAssembly} {rules : List Rule} {leaves i : Nat} {u : NodeId} {r : Rule}
  {d : Declaration} {q : Decision} {x y : NodeContent}

/-- An id occurred, its line has not been read, and its node is `u`. -/
def Open (a : StateAssembly) (i : Nat) (u : NodeId) : Prop :=
  ∃ d, a.find? i = some d ∧ d.isDefined = false ∧ d.node = u

/-- The nodes form a tree as far as it was read.  The nodes of ids without lines hold a
placeholder, and the other decisions suit the schema.  Node 0 is the root once there are
ids. -/
structure Grows (a : StateAssembly) : Prop where
  increasing : a.builder.Increasing
  placeholder : ∀ i u, a.Open i u → a.builder.content? u = some (.decision (.byteEquals 0 0))
  suits : ∀ u z, a.builder.content? u = some (.decision z) →
    z.Suits a.context.schema ∨ ∃ i, a.Open i u
  bare : a.declarations = [] → a.builder.size = 0 ∧ a.builder.root = none
  rooted : a.declarations ≠ [] → a.builder.root = some 0 ∧ 0 < a.builder.size

theorem grows_start (c : Context) : (start c).Grows where
  increasing := by
    refine .of_childless (Nat.zero_le 1) fun u => ?_
    show Builder.Childless ((Builder.empty c.schema).content? u)
    rw [Builder.content?_empty]
    exact Builder.childless_none
  placeholder := by
    rintro i u ⟨d, hd, -⟩
    exact absurd hd (by simp [start, find?])
  suits := fun u z hz => absurd hz (by simp [start])
  bare := fun _ => ⟨rfl, rfl⟩
  rooted := fun hne => absurd rfl hne

/-! ### The root -/

/-- The root is made before there are nodes. -/
theorem Grows.planted (h : a.Grows) (hempty : a.declarations = []) : a.planted.Grows := by
  obtain ⟨hsize, -⟩ := h.bare hempty
  have hcontent : ∀ u, a.planted.builder.content? u =
      if u = 0 then some (.decision (.byteEquals 0 0)) else none := by
    intro u
    rw [content?_planted, hsize]
    split
    · rfl
    · exact content?_eq_none_iff.mpr (hsize ▸ Nat.zero_le u)
  have hopen : a.planted.Open 0 0 := ⟨_, (find?_planted a 0).trans (if_pos rfl), rfl, hsize⟩
  refine ⟨.of_childless ?_ fun u => ?_, fun i u hi => ?_, fun u z hz => ?_, fun hnil => ?_,
    fun _ => ⟨congrArg some hsize, ?_⟩⟩
  · rw [size_planted, hsize]
  · rw [hcontent]
    split
    · exact Builder.childless_of_replicate rfl
    · exact fun y hy => absurd hy (by simp)
  · obtain ⟨d, hd, -, rfl⟩ := hi
    rw [find?_planted, find?, hempty] at hd
    split at hd
    · obtain rfl := Option.some_inj.mp hd
      rw [hcontent, if_pos hsize]
    · exact absurd hd (by simp)
  · rw [hcontent] at hz
    split at hz
    · next hu => exact .inr ⟨0, hu ▸ hopen⟩
    · exact absurd hz (by simp)
  · exact absurd hnil (List.cons_ne_nil _ _)
  · rw [size_planted]
    exact Nat.succ_pos _

theorem Grows.declareRoot (h : a.Grows) (id : Nat) : (a.declareRoot id).Grows := by
  by_cases hfirst : id = 0 ∧ a.declarations = []
  · obtain ⟨rfl, hempty⟩ := hfirst
    rw [declareRoot_of_nil hempty]
    exact h.planted hempty
  · rw [declareRoot_of_ne hfirst]
    exact h

/-! ### A line -/

/-- After a line the open ids are those that it refers to, and those that were open before
but for its own. -/
theorem open_budded_iff (hnodup : r.targets.Nodup) (hnew : ∀ i ∈ r.targets, a.find? i = none) :
    (a.budded r d q x y).Open i u ↔
      (r.no.target? = some i ∧ u = a.builder.size + 1) ∨
      (r.yes.target? = some i ∧ u = a.builder.size) ∨ (i ≠ r.id ∧ a.Open i u) := by
  -- an id that the line refers to had no node before
  have hclosed : i ∈ r.targets → ¬ a.Open i u := by
    rintro hi ⟨e, he, -⟩
    rw [hnew i hi] at he
    exact absurd he (by simp)
  rw [Open, find?_budded]
  by_cases hno : r.no.target? = some i
  · have hyes : r.yes.target? ≠ some i := fun hyes => by
      rw [Rule.targets, Rule.references] at hnodup
      simp [hno, hyes] at hnodup
    rw [if_pos hno]
    constructor
    · rintro ⟨_, ⟨⟩, -, rfl⟩
      exact .inl ⟨hno, rfl⟩
    · rintro (⟨-, rfl⟩ | ⟨hi, -⟩ | ⟨-, hi⟩)
      · exact ⟨_, rfl, rfl, rfl⟩
      · exact absurd hi hyes
      · exact absurd hi (hclosed (mem_targets_iff.mpr (.inl hno)))
  · by_cases hyes : r.yes.target? = some i
    · rw [if_neg hno, if_pos hyes]
      constructor
      · rintro ⟨_, ⟨⟩, -, rfl⟩
        exact .inr (.inl ⟨hyes, rfl⟩)
      · rintro (⟨hi, -⟩ | ⟨-, rfl⟩ | ⟨-, hi⟩)
        · exact absurd hi hno
        · exact ⟨_, rfl, rfl, rfl⟩
        · exact absurd hi (hclosed (mem_targets_iff.mpr (.inr hyes)))
    · rw [if_neg hno, if_neg hyes, find?_define]
      simp only [hno, hyes, false_and, false_or]
      constructor
      · rintro ⟨e, he, hundefined, rfl⟩
        obtain ⟨e₀, he₀, rfl⟩ := Option.map_eq_some_iff.mp he
        split at hundefined
        · exact absurd hundefined (by simp)
        · next hid =>
          rw [if_neg hid]
          exact ⟨id_of_find? he₀ ▸ hid, e₀, he₀, hundefined, rfl⟩
      · rintro ⟨hid, e, he, hundefined, rfl⟩
        refine ⟨e, ?_, hundefined, rfl⟩
        rw [he, Option.map_some, if_neg (id_of_find? he ▸ hid)]

/-- A line that is taken up gives the node of its id two new children. -/
theorem forked_of_setChild {test : DecisionTest} {b b' : Builder} (hg : a.Grows)
    (hd : a.Open r.id d.node) (hx : a.context.seed? r.yes = some x)
    (hy : a.context.seed? r.no = some y)
    (hb : (a.budded r d (.ofSlots r.feature test 2) x y).builder.setChild d.node 0
      (some a.builder.size) = .ok b)
    (hb' : b.setChild d.node 1 (some (a.builder.size + 1)) = .ok b') :
    a.builder.Forked d.node r.feature test x y b'.toArena ∧ b'.root = a.builder.root := by
  have hplaceholder := hg.placeholder _ _ hd
  have hlt : d.node < a.builder.size := lt_size_of_content? hplaceholder
  obtain ⟨hchildren, hroot, -⟩ := setChildren_cases (content?_budded_own hlt) hb hb'
  refine ⟨⟨hlt, ?_, fun u => ?_, Context.childless_of_seed? hx, Context.childless_of_seed? hy⟩,
    hroot⟩
  · rw [childIds_eq, hplaceholder]
    rfl
  · rw [hchildren u, content?_budded hlt u]
    by_cases hu : u = a.builder.size
    · subst hu
      simp
    · split_ifs <;> rfl

/-- A line that is taken up keeps the shape. -/
theorem Grows.takes (hg : a.Grows) (h : a.Follows rules [] leaves) {line : Nat} {text : String}
    (hread : a.context.Says line text r q) (htakes : a.Takes r q a') : a'.Grows := by
  obtain ⟨test, rfl, -, hsuits⟩ := hread.cases
  cases htakes with
  | @intro d x y b b' hd hundefined hx hy hnodup hnew hb hb' =>
    have hown : a.Open r.id d.node := ⟨d, hd, hundefined, rfl⟩
    obtain ⟨hforked, hroot⟩ := forked_of_setChild hg hown hx hy hb hb'
    have hopen : ∀ i u,
        Open { a.budded r d (.ofSlots r.feature test 2) x y with builder := b' } i u ↔
        _ := fun i u => open_budded_iff (y := y) hnodup hnew
    have hne : a.declarations ≠ [] := List.ne_nil_of_mem (mem_of_find? hd)
    refine ⟨hg.increasing.fork hforked, fun i u hi => ?_, fun u z hz => ?_, fun hnil => ?_,
      fun _ => ⟨hroot.trans (hg.rooted hne).1, ?_⟩⟩
    · rcases (hopen i u).mp hi with ⟨hno, rfl⟩ | ⟨hyes, rfl⟩ | ⟨hid, hi⟩
      · exact hforked.content_right.trans (hy.symm.trans (Context.seed?_of_target? hno))
      · exact hforked.content_left.trans (hx.symm.trans (Context.seed?_of_target? hyes))
      · -- another open id has another node
        have hcontent := hg.placeholder i u hi
        refine (hforked.content_old (lt_size_of_content? hcontent) ?_).trans hcontent
        rintro rfl
        obtain ⟨e, he, -, hnode⟩ := hi
        exact hid (h.node_inj i r.id e d he hd hnode)
    · -- a new decision belongs to an id that the line opens, an old one to the line's own
      -- id only if it is the parent
      rcases hforked.content_cases hz with ⟨-, hz⟩ | ⟨hleft, rfl⟩ | ⟨hright, rfl⟩ | ⟨hother, hz⟩
      · obtain rfl := NodeContent.decision.inj hz
        exact .inl hsuits
      · obtain ⟨i, hi⟩ := Context.seed?_eq_decision hx
        exact .inr ⟨i, (hopen i u).mpr (.inr (.inl ⟨hi, hleft⟩))⟩
      · obtain ⟨i, hi⟩ := Context.seed?_eq_decision hy
        exact .inr ⟨i, (hopen i u).mpr (.inl ⟨hi, hright⟩)⟩
      · refine (hg.suits u z hz).imp_right fun ⟨i, hi⟩ =>
          ⟨i, (hopen i u).mpr (.inr (.inr ⟨?_, hi⟩))⟩
        rintro rfl
        obtain ⟨e, he, -, rfl⟩ := hi
        exact hother (congrArg Declaration.node (Option.some_inj.mp (he.symm.trans hd)))
    · have hnone : (a.budded r d (.ofSlots r.feature test 2) x y).find? r.id = none := by
        rw [find?, hnil]
        rfl
      rw [find?_budded_eq_none_iff, hd] at hnone
      exact absurd hnone.2 (by simp)
    · rw [hforked.size_eq]
      exact Nat.succ_pos _

/-! ### When a line can be taken up -/

/-- A line can be taken up if its id is open and it refers to ids that have not occurred
and to leaves that there are. -/
theorem exists_takes (hg : a.Grows) {line : Nat} {text : String}
    (hread : a.context.Says line text r q) (hown : a.Open r.id u)
    (hyes : (a.context.seed? r.yes).isSome) (hno : (a.context.seed? r.no).isSome)
    (hnodup : r.targets.Nodup) (hnew : ∀ i ∈ r.targets, a.find? i = none) :
    ∃ a', a.Takes r q a' := by
  obtain ⟨test, rfl, -, -⟩ := hread.cases
  obtain ⟨x, hx⟩ := Option.isSome_iff_exists.mp hyes
  obtain ⟨y, hy⟩ := Option.isSome_iff_exists.mp hno
  have hlt : u < a.builder.size := lt_size_of_content? (hg.placeholder _ _ hown)
  obtain ⟨d, hd, hundefined, rfl⟩ := hown
  have hsize : (a.budded r d (.ofSlots r.feature test 2) x y).builder.size =
      a.builder.size + 2 := by
    rw [budded, size_sprout, size_sprout, size_posed]
  have hleft : a.builder.size < (a.budded r d (.ofSlots r.feature test 2) x y).builder.size := by
    omega
  have hright : a.builder.size + 1 <
      (a.budded r d (.ofSlots r.feature test 2) x y).builder.size := by
    omega
  obtain ⟨b, b', hb, hb'⟩ := exists_setChildren (content?_budded_own hlt) hleft hright
  exact ⟨_, .intro hd hundefined hx hy hnodup hnew hb hb'⟩

/-! ### The tree at the end -/

/-- Once every id has had its line, there is a tree. -/
theorem Grows.exists_cart (hg : a.Grows) (hschema : a.builder.schema = a.context.schema)
    (hall : ∀ d ∈ a.declarations, d.isDefined = true) :
    ∃ t, Cart.ofBuilder? a.builder = .ok t := by
  have hclosed : ∀ i u, ¬ a.Open i u := by
    rintro i u ⟨d, hd, hundefined, -⟩
    rw [hall d (mem_of_find? hd)] at hundefined
    exact absurd hundefined (by simp)
  by_cases hne : a.declarations = []
  · obtain ⟨hsize, hroot⟩ := hg.bare hne
    exact Cart.exists_ofBuilder?_of_empty hsize hroot
  · obtain ⟨hroot, hpos⟩ := hg.rooted hne
    refine Cart.exists_ofBuilder? hroot (hg.increasing.wellFormed hpos fun u z hz => ?_)
      hg.increasing.noGraph
    rw [hschema]
    exact (hg.suits u z hz).resolve_right fun ⟨i, hi⟩ => hclosed i u hi

end StateAssembly

end FeatureTree.Hts
