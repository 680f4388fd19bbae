/-
Trees that grow by two children at a time.

Nodes are numbered as they come, and every node but the first one is held by one slot, of
a node with a lower number.  This stays so when a node without children gets two new nodes
as its children.

* `Arena.Increasing` — the shape in terms of numbers;
* `Arena.Increasing.fork` — two more nodes below a node;
* `Arena.Increasing.wellFormed` — with suitable decisions it is a tree.
-/
import FeatureTree.Proofs.Tree.Growing

namespace FeatureTree.Arena

/-- Every node but node 0 is held by one slot, of a node with a lower number, and there are
no graph nodes. -/
structure Increasing (a : Arena) : Prop where
  below : ∀ p c : Nat, a.Holds p c → p < c ∧ c < a.size
  held : ∀ c : Nat, c < a.size → c ≠ 0 → ∃ p, a.Holds p c
  unique : ∀ p q c : Nat, a.Holds p c → a.Holds q c → p = q
  nodup : ∀ p, (a.childIds p).Nodup
  noGraph : ∀ u g, a.content? u ≠ some (.graph g)

variable {a b : Arena} {p u : Nat} {x y : NodeContent}

theorem childIds_eq_nil (h : a.size ≤ u) : a.childIds u = [] := by
  rw [childIds_eq, content?_eq_none_iff.mpr h]
  rfl

/-- Nodes without children are increasing if there is one at most. -/
theorem Increasing.of_childless (hsize : a.size ≤ 1)
    (hx : ∀ u, Builder.Childless (a.content? u)) : a.Increasing := by
  have hnil : ∀ q, a.childIds q = [] := by
    intro q
    rw [childIds_eq]
    cases hq : a.content? q with
    | none => rfl
    | some x => exact (hx q x hq).1
  have hedge : ∀ q c, ¬ a.Holds q c := by
    intro q c hqc
    rw [Holds, hnil q] at hqc
    exact absurd hqc (by simp)
  refine ⟨fun q c hqc => absurd hqc (hedge q c), fun c hc hne => ?_,
    fun q _ c hqc => absurd hqc (hedge q c), fun q => ?_, fun u g hg => (hx u _ hg).2 g rfl⟩
  · exact absurd (Nat.lt_one_iff.mp (Nat.lt_of_lt_of_le hc hsize)) hne
  · rw [hnil q]
    exact .nil

/-- A node of an arena gets two new nodes, which hold `x` and `y`, as its children. -/
structure Forked (a : Arena) (p feature : Nat) (test : DecisionTest) (x y : NodeContent)
    (b : Arena) : Prop where
  lt_size : p < a.size
  leafless : a.childIds p = []
  content : ∀ u : Nat, b.content? u =
    if u = p then some (.decision ⟨feature, test, #[some a.size, some (a.size + 1)]⟩)
    else if u = a.size then some x else if u = a.size + 1 then some y else a.content? u
  left : Builder.Childless (some x)
  right : Builder.Childless (some y)

namespace Forked

variable {feature : Nat} {test : DecisionTest}

theorem content_left (h : a.Forked p feature test x y b) : b.content? a.size = some x := by
  rw [h.content, if_neg (Nat.ne_of_gt h.lt_size), if_pos rfl]

theorem content_right (h : a.Forked p feature test x y b) :
    b.content? (a.size + 1) = some y := by
  rw [h.content, if_neg (Nat.ne_of_gt (Nat.lt_succ_of_lt h.lt_size)),
    if_neg (Nat.succ_ne_self a.size), if_pos rfl]

theorem content_old (h : a.Forked p feature test x y b) (hu : u < a.size) (hne : u ≠ p) :
    b.content? u = a.content? u := by
  rw [h.content, if_neg hne, if_neg (Nat.ne_of_lt hu),
    if_neg (Nat.ne_of_lt (Nat.lt_succ_of_lt hu))]

/-- A node is the parent, one of the new nodes, or as it was. -/
theorem content_cases (h : a.Forked p feature test x y b) {z : NodeContent}
    (hz : b.content? u = some z) :
    (u = p ∧ z = .decision ⟨feature, test, #[some a.size, some (a.size + 1)]⟩) ∨
      (u = a.size ∧ z = x) ∨ (u = a.size + 1 ∧ z = y) ∨
      (u ≠ p ∧ a.content? u = some z) := by
  rw [h.content] at hz
  split_ifs at hz with h₁ h₂ h₃
  · exact .inl ⟨h₁, (Option.some_inj.mp hz).symm⟩
  · exact .inr (.inl ⟨h₂, (Option.some_inj.mp hz).symm⟩)
  · exact .inr (.inr (.inl ⟨h₃, (Option.some_inj.mp hz).symm⟩))
  · exact .inr (.inr (.inr ⟨h₁, hz⟩))

theorem size_eq (h : a.Forked p feature test x y b) : b.size = a.size + 2 := by
  -- a number has a node afterwards if it had one or is one of the two new ones
  have hlt : ∀ u : Nat, u < b.size ↔ u < a.size + 2 := by
    intro u
    have hp := h.lt_size
    rw [lt_size_iff_content?, h.content u]
    split_ifs with h₁ h₂ h₃
    · exact ⟨fun _ => by omega, fun _ => ⟨_, rfl⟩⟩
    · exact ⟨fun _ => by omega, fun _ => ⟨_, rfl⟩⟩
    · exact ⟨fun _ => by omega, fun _ => ⟨_, rfl⟩⟩
    · have hold : u < a.size ↔ ∃ z, a.content? u = some z := lt_size_iff_content?
      rw [← hold]
      omega
  have h₁ := hlt b.size
  have h₂ := hlt (a.size + 2)
  omega

theorem childIds_eq (h : a.Forked p feature test x y b) (u : Nat) :
    b.childIds u = if u = p then [a.size, a.size + 1] else a.childIds u := by
  rw [Arena.childIds_eq, h.content u]
  split_ifs with h₁ h₂ h₃
  · rfl
  · rw [childIds_eq_nil (Nat.le_of_eq h₂.symm)]
    exact (h.left x rfl).1
  · rw [childIds_eq_nil (by omega)]
    exact (h.right y rfl).1
  · exact (Arena.childIds_eq a u).symm

/-- An edge was there before, or leads to one of the new nodes. -/
theorem holds_iff (h : a.Forked p feature test x y b) {q c : Nat} :
    b.Holds q c ↔ a.Holds q c ∨ (q = p ∧ (c = a.size ∨ c = a.size + 1)) := by
  rw [Holds, Holds, h.childIds_eq]
  by_cases hq : q = p
  · simp [hq, h.leafless]
  · simp [hq]

end Forked

/-- Two more nodes below a node without children keep the numbers increasing. -/
theorem Increasing.fork {feature : Nat} {test : DecisionTest} (h : a.Increasing)
    (hf : a.Forked p feature test x y b) : b.Increasing := by
  have hp := hf.lt_size
  refine ⟨fun q c hqc => ?_, fun c hc hne => ?_, fun q₁ q₂ c h₁ h₂ => ?_, fun q => ?_,
    fun u g hg => ?_⟩
  · rw [hf.size_eq]
    rcases hf.holds_iff.mp hqc with hqc | ⟨rfl, hc⟩
    · obtain ⟨hlt, hc⟩ := h.below q c hqc
      exact ⟨hlt, by omega⟩
    · exact ⟨by omega, by omega⟩
  · rw [hf.size_eq] at hc
    by_cases hold : c < a.size
    · obtain ⟨q, hq⟩ := h.held c hold hne
      exact ⟨q, hf.holds_iff.mpr (.inl hq)⟩
    · exact ⟨p, hf.holds_iff.mpr (.inr ⟨rfl, by omega⟩)⟩
  · -- an old edge leads to an old node
    rcases hf.holds_iff.mp h₁ with h₁ | ⟨rfl, hc₁⟩ <;>
      rcases hf.holds_iff.mp h₂ with h₂ | ⟨rfl, hc₂⟩
    · exact h.unique q₁ q₂ c h₁ h₂
    · have := (h.below q₁ c h₁).2
      omega
    · have := (h.below q₂ c h₂).2
      omega
    · rfl
  · rw [hf.childIds_eq]
    split
    · simp
    · exact h.nodup q
  · rw [hf.content u] at hg
    split_ifs at hg
    · exact absurd hg (by simp)
    · exact (hf.left _ hg).2 g rfl
    · exact (hf.right _ hg).2 g rfl
    · exact h.noGraph u g hg

/-- With node 0 as the root it is a tree, if the decisions suit the schema. -/
theorem Increasing.wellFormed (h : a.Increasing) (hne : 0 < a.size)
    (hsuits : ∀ u d, a.content? u = some (.decision d) → d.Suits a.schema) : a.WellFormed 0 :=
  (Shaped.of_increasing hne h.below h.held h.unique h.nodup).wellFormed hsuits h.noGraph

end FeatureTree.Arena
