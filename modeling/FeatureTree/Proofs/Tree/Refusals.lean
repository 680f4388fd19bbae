/-
Why freezing refuses an arena.

The search looks at contents and at edges.  Where the edges are in order, as they are in a
builder that grows like a tree, only contents are left to be refused; and of the contents of
a tree only decisions are checked.

* `Decision.Misfits` — what can be wrong with a decision, with the error that says so;
* `Arena.checkDecision_eq_error_iff` — the check of a decision reports just that;
* `Arena.Shaped.refuses_of_freeze` — with the edges in order a content is refused;
* `Builder.Treelike.misfits_of_finish` — where a builder grew like a tree, a decision is.
-/
import FeatureTree.Proofs.Tree.Growing

namespace FeatureTree

/-- What is wrong with the decision of a node, in the order in which it is looked at: its
feature is none of the schema, or of another kind than the test needs, or the slots are not
one for every outcome. -/
inductive Decision.Misfits (s : Schema) (d : Decision) (u : NodeId) : GraphError → Prop
  | unknownFeature : s.get? d.feature = none → Misfits s d u (.unknownFeature u d.feature)
  | kind {m : FeatureMeta} {kind : FeatureKind} : s.get? d.feature = some m →
      d.test.neededKind? = some kind → m.kind ≠ kind →
      Misfits s d u (.featureKindMismatch u m.name kind)
  | slots {m : FeatureMeta} : s.get? d.feature = some m →
      (∀ kind, d.test.neededKind? = some kind → m.kind = kind) →
      d.children.size ≠ (if d.test.isBinary then 2 else m.values.size) →
      Misfits s d u (.childCountMismatch u m.name
        (if d.test.isBinary then 2 else m.values.size) d.children.size)

theorem Decision.Misfits.not_suits {s : Schema} {d : Decision} {u : NodeId} {e : GraphError}
    (h : d.Misfits s u e) : ¬ d.Suits s := by
  rintro ⟨m, hm, hkind, hsize⟩
  cases h with
  | unknownFeature hnone => exact absurd (hm.symm.trans hnone) (by simp)
  | kind hm' hneeded hne =>
    obtain rfl := Option.some_inj.mp (hm.symm.trans hm')
    exact hne (hkind _ hneeded)
  | slots hm' _ hne =>
    obtain rfl := Option.some_inj.mp (hm.symm.trans hm')
    exact hne hsize

namespace Arena

variable {a : Arena} {root u : NodeId} {e : GraphError}

theorem checkDecision_eq_error_iff {d : Decision} :
    a.checkDecision u d = .error e ↔ d.Misfits a.schema u e := by
  rw [checkDecision]
  constructor
  · intro h
    cases hm : a.schema.get? d.feature with
    | none =>
      simp only [hm, Except.error.injEq] at h
      exact h ▸ .unknownFeature hm
    | some m =>
      simp only [hm] at h
      -- the number of slots is looked at last
      have hslots (hkind : ∀ kind, d.test.neededKind? = some kind → m.kind = kind)
          (h : (if d.children.size ≠ if d.test.isBinary then 2 else m.values.size then
            .error (.childCountMismatch u m.name (if d.test.isBinary then 2 else m.values.size)
              d.children.size) else .ok ()) = Except.error e) : d.Misfits a.schema u e := by
        by_cases hsize : d.children.size = if d.test.isBinary then 2 else m.values.size
        · rw [if_neg (not_not.mpr hsize)] at h
          cases h
        · rw [if_pos hsize] at h
          obtain rfl := Except.error.inj h
          exact .slots hm hkind hsize
      cases hneeded : d.test.neededKind? with
      | none =>
        simp only [hneeded] at h
        exact hslots (by simp [hneeded]) h
      | some kind =>
        simp only [hneeded] at h
        by_cases hkind : m.kind = kind
        · rw [if_neg (not_not.mpr hkind)] at h
          refine hslots (fun k hk => ?_) h
          rw [← Option.some_inj.mp (hneeded.symm.trans hk)]
          exact hkind
        · rw [if_pos hkind] at h
          obtain rfl := Except.error.inj h
          exact .kind hm hneeded hkind
  · intro h
    cases h with
    | unknownFeature hm => rw [hm]
    | kind hm hneeded hne => simp only [hm, hneeded, if_pos hne]
    | @slots m hm hkind hne =>
      cases hneeded : d.test.neededKind? with
      | none => simp only [hm, if_pos hne]
      | some kind =>
        simp only [hm]
        rw [if_neg (not_not.mpr (hkind kind hneeded)), if_pos hne]

/-- Where every node is reached none is left over, so that with the edges in order a content
is all that freezing can refuse. -/
theorem Shaped.refuses_of_freeze (w : a.Shaped root) (hroot : a.root = some root)
    (h : a.freeze = .error e) : a.Refuses e := by
  cases hv : a.visit (a.size + 1) (Survey.start a.size) root with
  | error e' =>
    rw [freeze, hroot] at h
    simp only [if_neg (Nat.not_le.mpr w.root_lt), hv, bind, Except.bind, Except.error.injEq] at h
    exact h ▸ w.refuses_of_visit w.ready_start (by simp) hv
  | ok s =>
    have hvisited := visited_of_visit a.onWay_start (by simp) hv
    have hsound : a.Sound s := hvisited.sound fun u hu => absurd hu (by simp)
    have hall : ∀ u < a.size, s.mark u ≠ .fresh := by
      intro u hu
      rw [hsound.done_of_reaches (hvisited.done root (by simp)) (w.reached u hu)]
      simp
    have hok := (freeze_some_eq_ok_iff hroot).mpr ⟨w.root_lt, s, hv, hall, rfl⟩
    rw [hok] at h
    cases h

end Arena

namespace Builder.Treelike

open Arena

variable {b : Builder}

theorem exists_root (h : b.Treelike) (hpos : 0 < b.size) : ∃ root, b.root = some root := by
  by_contra hnone
  -- without a root node 0 would be held by one with a lower number
  obtain ⟨p, hp⟩ := h.held 0 hpos fun hroot => hnone ⟨0, hroot⟩
  exact Nat.not_lt_zero p (h.below p 0 hp).1

/-- A decision is at fault if a builder that grew like a tree is refused. -/
theorem misfits_of_finish (h : b.Treelike) {e : GraphError} (he : b.finish = .error e) :
    ∃ u d, b.content? u = some (.decision d) ∧ d.Misfits b.schema u e := by
  have hfreeze : b.toArena.freeze = .error e := by
    rw [finish, Graph.ofArena?] at he
    split at he
    · cases he
    · next hfreeze =>
      obtain rfl := Except.error.inj he
      exact hfreeze
  by_cases hpos : 0 < b.size
  · obtain ⟨root, hroot⟩ := h.exists_root hpos
    obtain ⟨u, n, hn, hcheck⟩ := (h.shaped hroot).refuses_of_freeze hroot hfreeze
    have hu : b.content? u = some n.content := content?_of_node? hn
    cases hcontent : n.content with
    | leaf p =>
      rw [hcontent] at hcheck
      cases hcheck
    | graph g => exact absurd (hcontent ▸ hu) (h.noGraph u g)
    | decision d =>
      rw [hcontent] at hcheck
      exact ⟨u, d, hcontent ▸ hu, checkDecision_eq_error_iff.mp hcheck⟩
  · have hsize : b.toArena.size = 0 := Nat.eq_zero_of_not_pos hpos
    cases hroot : b.root with
    | none =>
      obtain ⟨a, ha⟩ := exists_freeze_iff.mpr (.inl ⟨hsize, hroot⟩)
      rw [ha] at hfreeze
      cases hfreeze
    | some root =>
      have hlt := (h.root_lt root hroot).1
      rw [hsize] at hlt
      exact absurd hlt (Nat.not_lt_zero root)

/-- The check that it is a tree refuses nothing that was not refused before. -/
theorem finish_of_ofBuilder? (h : b.Treelike) {e : GraphError}
    (he : Cart.ofBuilder? b = .error e) : b.finish = .error e := by
  cases hg : b.finish with
  | error e' =>
    rw [Cart.ofBuilder?, hg] at he
    exact congrArg Except.error (Except.error.inj he)
  | ok g =>
    obtain ⟨t, ht, -⟩ := Cart.exists_ofBuilder?_of_finish hg fun u x => by
      rw [content?_of_finish hg]
      exact h.noGraph u x
    rw [ht] at he
    cases he

end Builder.Treelike

end FeatureTree
