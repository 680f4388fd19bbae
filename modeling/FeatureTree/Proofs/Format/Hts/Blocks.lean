/-
The tree of a block means what the lines say.

The lines of a block state rules, and the tree that is read from them leads every vector
to the leaf to which the rules lead it.

* `Hts.Tells` — what the lines of a block tell of its tree;
* `Hts.StateAssembly.Follows.addLines` — all lines of a block;
* `Hts.StateAssembly.Follows.exists_descend` — the descent for a vector is its walk;
* `Hts.StateAssembly.tells_of_finish` — the tree that is read from a block.
-/
import FeatureTree.Proofs.Format.Hts.StateTree

namespace FeatureTree.Hts

open Arena

/-- What the lines of a block tell of its tree: they state rules, every vector gets the
payload of the leaf where its walk from line 0 ends, which it does in one leaf only, and
there are as many decisions as lines and as many leaves as references to leaves. -/
def Tells (c : Context) (lines : List String) (t : Cart) : Prop :=
  ∃ rules, lines.mapM c.rule? = some rules ∧
    (∀ v, c.schema.Fits v → ∃ number payload, Walks rules v 0 number ∧
      (∀ other, Walks rules v 0 other → other = number) ∧
      c.payload? number = some payload ∧ t.arena.interpret v = .ok (some payload)) ∧
    t.arena.nodes.countP Node.isDecision = lines.length ∧
    t.arena.nodes.countP Node.isLeaf = (rules.flatMap Rule.references).countP Reference.isLeaf

namespace StateAssembly

variable {a a' : StateAssembly} {rules : List Rule} {leaves : Nat}

/-! ### All lines of a block -/

/-- Reads a line with its number. -/
def addNumbered (a : StateAssembly) (line : String × Nat) : Except FormatError StateAssembly :=
  a.addLine line.2 line.1

theorem Follows.addLines (lines : List (String × Nat)) :
    ∀ {a : StateAssembly} {rules : List Rule} {leaves : Nat}, a.Follows rules [] leaves →
      (a.declarations = [] ∨ a.Rooted) → lines.foldlM addNumbered a = .ok a' →
      ∃ more, (lines.map Prod.fst).mapM a.context.rule? = some more ∧
        more.length = lines.length ∧ a'.Follows (rules ++ more) []
          (leaves + (more.flatMap Rule.references).countP Reference.isLeaf) ∧
        (lines ≠ [] → a'.Rooted) ∧ a'.context = a.context := by
  induction lines with
  | nil =>
    intro a rules leaves h _ hrun
    obtain rfl : a = a' := Except.ok.inj hrun
    exact ⟨[], rfl, rfl, by simpa using h, fun hne => absurd rfl hne, rfl⟩
  | cons line lines ih =>
    intro a rules leaves h hroot hrun
    rw [List.foldlM_cons] at hrun
    obtain ⟨a₁, hline, hrun⟩ := bind_eq_ok_iff.mp hrun
    obtain ⟨r, hr, h₁, hroot₁, hcontext₁⟩ := h.addLine hroot hline
    obtain ⟨more, hmore, hlength, h', hroot', hcontext'⟩ := ih h₁ (.inr hroot₁) hrun
    rw [hcontext₁] at hmore
    refine ⟨r :: more, ?_, by rw [List.length_cons, List.length_cons, hlength], ?_, fun _ => ?_,
      hcontext'.trans hcontext₁⟩
    · rw [List.map_cons, List.mapM_cons, hr, hmore]
      rfl
    · rw [List.append_cons, List.flatMap_cons, List.countP_append, ← Nat.add_assoc]
      exact h'
    · by_cases hne : lines = []
      · subst hne
        obtain rfl : a₁ = a' := Except.ok.inj hrun
        exact hroot₁
      · exact hroot' hne

/-- The tree of a block is finished once every id that occurred was defined. -/
theorem finish_eq_ok_iff {line : Nat} {t : Cart} :
    a.finish line = .ok t ↔
      (∀ d ∈ a.declarations, d.isDefined = true) ∧ Cart.ofBuilder? a.builder = .ok t := by
  have hnone : ((a.declarations.filter (!·.isDefined)).map (·.id)).min? = none ↔
      ∀ d ∈ a.declarations, d.isDefined = true := by
    rw [List.min?_eq_none_iff, List.map_eq_nil_iff, List.filter_eq_nil_iff]
    simp
  rw [← hnone, finish]
  split
  · next hsome => simp [hsome]
  · next hnone => simp only [hnone, true_and, FormatError.ofGraph, mapError_eq_ok_iff]

/-! ### The descent and the walk -/

/-- What a line refers to for a vector is what the child stands for that its decision
selects. -/
theorem Obeys.exists_next {r : Rule} (h : a.Obeys r) {v : FeatureVector}
    (hv : a.context.schema.Fits v) :
    ∃ d x child, a.find? r.id = some d ∧ a.builder.content? d.node = some (.decision x) ∧
      x.next? v = .ok (some child) ∧ a.Stands (r.chosen v) child := by
  obtain ⟨d, test, yes, no, hd, hx, hasks, hyes, hno⟩ := h
  rw [Rule.chosen]
  by_cases hcond : v.ordinal? r.feature = some (r.ordinal : Int)
  · refine ⟨d, _, yes, hd, hx, ?_, by rwa [if_pos hcond]⟩
    rw [Decision.next?, hasks _ v hv, if_pos hcond]
    rfl
  · refine ⟨d, _, no, hd, hx, ?_, by rwa [if_neg hcond]⟩
    rw [Decision.next?, hasks _ v hv, if_neg hcond]
    rfl

/-- Where every line was read, the descent from the node of an id ends where the walk
from its line does. -/
theorem Follows.exists_descend (h : a.Follows rules [] leaves)
    (hall : ∀ d ∈ a.declarations, d.isDefined = true) {o : Arena} {root : NodeId}
    (hcontent : ∀ u, o.content? u = a.builder.content? u) (w : o.WellFormed root)
    {v : FeatureVector} (hv : a.context.schema.Fits v) :
    ∀ {fuel i : Nat} {d : Declaration}, a.find? i = some d → o.rank d.node ≤ fuel →
      ∃ number payload, Walks rules v i number ∧ a.context.payload? number = some payload ∧
        o.descend v fuel d.node = .ok (some payload) := by
  intro fuel
  induction fuel with
  | zero =>
    intro i d hd hrank
    obtain ⟨x, hx⟩ := h.decision i d hd
    have := rank_pos (lt_size_of_content? ((hcontent _).trans hx))
    omega
  | succ fuel ih =>
    intro i d hd hrank
    have hmem := (h.defined i d hd).mp (hall d (mem_of_find? hd))
    rw [List.nil_append] at hmem
    obtain ⟨r, hr, rfl⟩ := List.mem_map.mp hmem
    obtain ⟨d', x, child, hd', hx, hnext, hstands⟩ := (h.obeys r hr).exists_next hv
    obtain rfl : d = d' := Option.some_inj.mp (hd.symm.trans hd')
    have hx' := (hcontent _).trans hx
    have hdown := rank_lt_of_holds w.acyclic (holds_of_next? hx' hnext)
    have hstep : o.descend v (fuel + 1) d.node = o.descend v fuel child := by
      rw [descend_of_decision hx', hnext]
      rfl
    rw [hstep]
    cases hchosen : r.chosen v with
    | line id =>
      rw [hchosen] at hstands
      obtain ⟨e, he, rfl⟩ := hstands
      obtain ⟨number, payload, hwalk, hpayload, hdescend⟩ := ih he (by omega)
      exact ⟨number, payload, .line hr hchosen hwalk, hpayload, hdescend⟩
    | leaf number =>
      rw [hchosen] at hstands
      obtain ⟨payload, hpayload, hleaf⟩ := hstands
      have hleaf' := (hcontent _).trans hleaf
      have hpos := rank_pos (lt_size_of_content? hleaf')
      obtain ⟨fuel, rfl⟩ : ∃ k, fuel = k + 1 := Nat.exists_eq_add_one.mpr (by omega)
      exact ⟨number, payload, .leaf hr hchosen, hpayload, descend_of_leaf hleaf' v fuel⟩

/-- Where every line was read, there is one declaration for each. -/
theorem Follows.length_declarations (h : a.Follows rules [] leaves)
    (hall : ∀ d ∈ a.declarations, d.isDefined = true) :
    a.declarations.length = rules.length := by
  have hmem : ∀ i, i ∈ a.declarations.map Declaration.id ↔ i ∈ rules.map Rule.id := by
    intro i
    constructor
    · intro hi
      obtain ⟨d, hd, rfl⟩ := List.mem_map.mp hi
      exact (h.defined d.id d (find?_of_mem h.ids hd)).mp (hall d hd)
    · intro hi
      obtain ⟨d, hd⟩ := h.known i hi
      exact id_of_find? hd ▸ List.mem_map_of_mem (mem_of_find? hd)
  have hperm := (List.perm_ext_iff_of_nodup h.ids h.distinct).mpr hmem
  simpa using hperm.length_eq

/-- The tree that is read from the lines of a block. -/
theorem tells_of_finish {c : Context} {lines : List (String × Nat)} {line : Nat} {t : Cart}
    (hne : lines ≠ []) (hrun : lines.foldlM addNumbered (start c) = .ok a)
    (hfinish : a.finish line = .ok t) : Tells c (lines.map Prod.fst) t := by
  obtain ⟨rules, hrules, hlength, h, hroot, hcontext⟩ :=
    (follows_start c).addLines lines (.inl rfl) hrun
  rw [List.nil_append] at h
  obtain ⟨hall, hcart⟩ := finish_eq_ok_iff.mp hfinish
  obtain ⟨count, harena⟩ := Cart.arena_of_ofBuilder? hcart
  have hcontent : ∀ u, t.arena.content? u = a.builder.content? u := by
    rw [harena]
    exact content?_recount _ count
  obtain ⟨d, hd, hd'⟩ := hroot hne
  have hroot' : t.arena.root = some d.node := by
    rw [harena]
    exact hd'
  have w := t.wellFormed hroot'
  refine ⟨rules, hrules, fun v hv => ?_, ?_, ?_⟩
  · obtain ⟨number, payload, hwalk, hpayload, hdescend⟩ :=
      h.exists_descend hall hcontent w (by rw [hcontext]; exact hv) hd
        (t.arena.rank_le_succ d.node)
    rw [hcontext] at hpayload
    refine ⟨number, payload, hwalk, fun other hother => hother.unique h.distinct hwalk,
      hpayload, ?_⟩
    rw [interpret, hroot']
    exact hdescend
  · rw [List.length_map, ← hlength, ← h.length_declarations hall, ← h.decisions]
    exact countP_eq_of_content (fun _ => rfl) fun u => by rw [hcontent u]
  · have hleaves := h.leaf_count
    rw [Nat.zero_add] at hleaves
    rw [← hleaves]
    exact countP_eq_of_content (fun _ => rfl) fun u => by rw [hcontent u]

end StateAssembly

end FeatureTree.Hts
