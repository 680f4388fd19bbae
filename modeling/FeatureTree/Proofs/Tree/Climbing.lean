/-
The way up from a node.

`depth` and `decisionPath` follow the links to the parents.  The first counts them and stops
one beyond the number of nodes.  The second stops when it has one outcome more than there are
nodes; graph nodes add no outcome, so that it goes on for ever where their links run in a
circle.

* `Arena.exists_depthLoop`, `Arena.pathLoop_cases` — where every parent is there, neither loop
  looks for a node that is not, whatever the bound on the links;
* `Arena.climb`, `Arena.pathLoop_eq_endless_iff` — the loop of `decisionPath` as links that are
  followed one after the other; it is cut off where there are more of them;
* `Arena.climb_ne_none_of_eq`, `Arena.exists_climb_eq` — a way that comes back does not end, and
  a long one comes back;
* `Arena.decisionPath_eq_endless_iff` — the bound that `decisionPath` sets cuts off no way
  that ends.
-/
import FeatureTree.Proofs.Tree.Building
import Mathlib.Data.Finset.Prod

namespace FeatureTree.Arena

variable {a : Arena}

/-! ### Every node on the way is there -/

section

variable (hmother : ∀ u n m, a.node? u = some n → n.mother = some m → m < a.size)
include hmother

/-- However many links are followed, there is a node at the end of each. -/
theorem exists_depthLoop (fuel : Nat) :
    ∀ {u : NodeId}, u < a.size → ∃ k, a.depthLoop fuel u = .ok k := by
  induction fuel with
  | zero => exact fun _ => ⟨0, rfl⟩
  | succ fuel ih =>
    intro u hu
    obtain ⟨n, hn⟩ := exists_node?_iff.mpr hu
    rw [depthLoop, node, hn]
    cases hm : n.mother with
    | none => exact ⟨0, by simp only [bind, Except.bind, hm]; rfl⟩
    | some m =>
      obtain ⟨k, hk⟩ := ih (hmother u n m hn hm)
      exact ⟨1 + k, by simp only [bind, Except.bind, hm, hk]; rfl⟩

/-- Either the way up ends, or the bound on the links cuts it off. -/
theorem pathLoop_cases (fuel : Nat) :
    ∀ (room : Nat) {u : NodeId} (steps : List String), u < a.size →
      (∃ labels, a.pathLoop fuel room u steps = .ok labels) ∨
        a.pathLoop fuel room u steps = .error .endless := by
  induction fuel with
  | zero => exact fun _ _ _ _ => .inr rfl
  | succ fuel ih =>
    intro room u steps hu
    obtain ⟨n, hn⟩ := exists_node?_iff.mpr hu
    rw [pathLoop, node, hn]
    simp only [bind, Except.bind]
    cases hm : n.mother with
    | none => exact .inl ⟨steps, rfl⟩
    | some m =>
      have hlt := hmother u n m hn hm
      obtain ⟨parent, hparent⟩ := exists_node?_iff.mpr hlt
      simp only [node, hparent]
      -- a parent that is no decision adds no outcome
      cases parent.content with
      | leaf p => exact ih room steps hlt
      | graph g => exact ih room steps hlt
      | decision d =>
        cases room with
        | zero => exact .inl ⟨_, rfl⟩
        | succ room => exact ih room _ hlt

theorem decisionPath_cases {u : NodeId} (hu : u < a.size) :
    (∃ path, a.decisionPath u = .ok path) ∨ a.decisionPath u = .error .endless := by
  rw [decisionPath]
  rcases pathLoop_cases hmother ((a.size + 1) * (a.size + 1)) a.size [] hu with
    ⟨labels, hlabels⟩ | hendless
  · exact .inl ⟨Text.joinWith " - " labels, by rw [hlabels]; rfl⟩
  · exact .inr (by rw [hendless]; rfl)

end

/-! ### Ways that do not end -/

variable (a) in
/-- One link up, with the outcomes there is room for after it; none where the loop of
`decisionPath` ends. -/
def up? : Nat × NodeId → Option (Nat × NodeId)
  | (room, u) => do
    let n ← a.node? u
    let m ← n.mother
    let parent ← a.node? m
    match parent.content with
    | .decision _ => if room = 0 then none else some (room - 1, m)
    | _ => some (room, m)

variable (a) in
/-- A number of links up, or none where the loop ends before. -/
def climb : Nat → Nat × NodeId → Option (Nat × NodeId)
  | 0, start => some start
  | k + 1, start => (a.up? start).bind (climb k)

/-- The loop follows one link and goes on, or it ends. -/
theorem pathLoop_succ_cases (fuel room : Nat) (u : NodeId) (steps : List String) :
    (∃ room' m steps', a.up? (room, u) = some (room', m) ∧
      a.pathLoop (fuel + 1) room u steps = a.pathLoop fuel room' m steps') ∨
    a.up? (room, u) = none ∧ a.pathLoop (fuel + 1) room u steps ≠ .error .endless := by
  rw [pathLoop, node, up?]
  cases hn : a.node? u with
  | none => exact .inr ⟨rfl, by simp [bind, Except.bind]⟩
  | some n =>
    simp only [bind, Except.bind, Option.bind_some]
    cases hm : n.mother with
    | none => exact .inr ⟨rfl, by simp [pure, Except.pure]⟩
    | some m =>
      simp only [node, Option.bind_some]
      cases hparent : a.node? m with
      | none => exact .inr ⟨rfl, by simp⟩
      | some parent =>
        simp only [Option.bind_some]
        cases parent.content with
        | leaf p => exact .inl ⟨room, m, steps, rfl, rfl⟩
        | graph g => exact .inl ⟨room, m, steps, rfl, rfl⟩
        | decision d =>
          cases room with
          | zero => exact .inr ⟨rfl, by simp [pure, Except.pure]⟩
          | succ room => exact .inl ⟨room, m, _, rfl, rfl⟩

/-- The loop is cut off exactly if as many links can be followed as the bound allows. -/
theorem pathLoop_eq_endless_iff (fuel : Nat) :
    ∀ (room : Nat) (u : NodeId) (steps : List String),
      a.pathLoop fuel room u steps = .error .endless ↔ a.climb fuel (room, u) ≠ none := by
  induction fuel with
  | zero => exact fun _ _ _ => iff_of_true rfl (Option.some_ne_none _)
  | succ fuel ih =>
    intro room u steps
    rw [climb]
    rcases a.pathLoop_succ_cases fuel room u steps with
      ⟨room', m, steps', hup, heq⟩ | ⟨hup, hne⟩
    · rw [hup, heq, ih, Option.bind_some]
    · rw [hup, Option.bind_none]
      exact iff_of_false hne fun h => h rfl

/-- Only from a node that is there a link is followed, and there is never more room after
it. -/
theorem lt_of_up? {room room' : Nat} {u m : NodeId} (h : a.up? (room, u) = some (room', m)) :
    u < a.size ∧ room' ≤ room := by
  obtain ⟨n, hn, h⟩ := Option.bind_eq_some_iff.mp h
  obtain ⟨m', -, h⟩ := Option.bind_eq_some_iff.mp h
  obtain ⟨parent, -, h⟩ := Option.bind_eq_some_iff.mp h
  refine ⟨lt_of_node? hn, ?_⟩
  split at h
  · split at h
    · exact absurd h (by simp)
    · cases h
      exact Nat.sub_le room 1
  · cases h
    exact Nat.le_refl room

section

variable {start : Nat × NodeId} {i j : Nat}

theorem climb_add (i j : Nat) (start : Nat × NodeId) :
    a.climb (i + j) start = (a.climb i start).bind (a.climb j) := by
  induction i generalizing start with
  | zero => rw [Nat.zero_add, climb, Option.bind_some]
  | succ i ih =>
    rw [Nat.succ_add, climb, climb, Option.bind_assoc]
    exact congrArg _ (funext ih)

theorem climb_ne_none_of_le (hij : i ≤ j) (hj : a.climb j start ≠ none) :
    a.climb i start ≠ none := by
  intro hi
  obtain ⟨k, rfl⟩ := Nat.exists_eq_add_of_le hij
  rw [climb_add, hi, Option.bind_none] at hj
  exact hj rfl

/-- Where a way comes back to where it was, it does not end. -/
theorem climb_ne_none_of_eq (hij : i < j) (heq : a.climb i start = a.climb j start)
    (hj : a.climb j start ≠ none) (n : Nat) : a.climb n start ≠ none := by
  induction n using Nat.strong_induction_on with
  | _ n ih =>
    rcases Nat.le_total n j with hle | hle
    · exact climb_ne_none_of_le hle hj
    · -- beyond the return the way is the one from before it
      obtain ⟨k, rfl⟩ := Nat.exists_eq_add_of_le hle
      rw [climb_add, ← heq, ← climb_add]
      exact ih (i + k) (Nat.add_lt_add_right hij k)

/-- As long as a way goes on, it passes nodes that are there, with no more room than at
first. -/
theorem exists_of_climb (k : Nat) :
    ∀ {room : Nat} {u : NodeId}, a.climb (k + 1) (room, u) ≠ none →
      ∃ r w, a.climb k (room, u) = some (r, w) ∧ r ≤ room ∧ w < a.size := by
  induction k with
  | zero =>
    intro room u h
    obtain ⟨⟨room', m⟩, hup⟩ := Option.ne_none_iff_exists'.mp h
    obtain ⟨⟨room'', m'⟩, hup, -⟩ := Option.bind_eq_some_iff.mp hup
    exact ⟨room, u, rfl, Nat.le_refl room, (lt_of_up? hup).1⟩
  | succ k ih =>
    intro room u h
    rw [climb] at h
    cases hup : a.up? (room, u) with
    | none =>
      rw [hup] at h
      exact absurd rfl h
    | some next =>
      obtain ⟨room', m⟩ := next
      rw [hup, Option.bind_some] at h
      obtain ⟨r, w, hclimb, hr, hw⟩ := ih h
      refine ⟨r, w, ?_, hr.trans (lt_of_up? hup).2, hw⟩
      rw [climb, hup, Option.bind_some, hclimb]

/-- There are only so many nodes and so much room, so that a way with more links comes back to
where it was. -/
theorem exists_climb_eq {room : Nat} {u : NodeId}
    (h : a.climb ((room + 1) * a.size + 1) (room, u) ≠ none) :
    ∃ i j, i < j ∧ j ≤ (room + 1) * a.size ∧ a.climb i (room, u) = a.climb j (room, u) := by
  set places := Finset.range (room + 1) ×ˢ Finset.range a.size with hplaces
  have hcard : (places.image some).card < (Finset.range ((room + 1) * a.size + 1)).card := by
    refine Nat.lt_of_le_of_lt Finset.card_image_le ?_
    rw [hplaces, Finset.card_product, Finset.card_range, Finset.card_range, Finset.card_range]
    exact Nat.lt_succ_self _
  have hmaps : Set.MapsTo (fun k => a.climb k (room, u))
      (Finset.range ((room + 1) * a.size + 1)) (places.image some) := by
    intro k hk
    obtain ⟨r, w, hclimb, hr, hw⟩ := exists_of_climb k
      (climb_ne_none_of_le (Nat.succ_le_of_lt (Finset.mem_range.mp hk)) h)
    refine Finset.mem_image.mpr ⟨(r, w), Finset.mem_product.mpr ⟨?_, ?_⟩, hclimb.symm⟩
    · exact Finset.mem_range.mpr (Nat.lt_succ_of_le hr)
    · exact Finset.mem_range.mpr hw
  obtain ⟨i, hi, j, hj, hne, heq⟩ := Finset.exists_ne_map_eq_of_card_lt_of_maps_to hcard hmaps
  rcases Nat.lt_or_gt_of_ne hne with hij | hji
  · exact ⟨i, j, hij, Nat.le_of_lt_succ (Finset.mem_range.mp hj), heq⟩
  · exact ⟨j, i, hji, Nat.le_of_lt_succ (Finset.mem_range.mp hi), heq.symm⟩

end

/-- The bound that `decisionPath` sets is no restriction: where it cuts the way off, every
other bound does so too. -/
theorem decisionPath_eq_endless_iff (u : NodeId) :
    a.decisionPath u = .error .endless ↔
      ∀ fuel, a.pathLoop fuel a.size u [] = .error .endless := by
  have hdecision : a.decisionPath u = .error .endless ↔
      a.pathLoop ((a.size + 1) * (a.size + 1)) a.size u [] = .error .endless := by
    rw [decisionPath]
    cases a.pathLoop ((a.size + 1) * (a.size + 1)) a.size u [] with
    | ok labels => simp [bind, Except.bind, pure, Except.pure]
    | error fault => simp [bind, Except.bind]
  rw [hdecision]
  refine ⟨fun h fuel => ?_, fun h => h _⟩
  rw [pathLoop_eq_endless_iff] at h ⊢
  have hle : (a.size + 1) * a.size + 1 ≤ (a.size + 1) * (a.size + 1) := by
    rw [Nat.mul_succ]
    omega
  have hlong := climb_ne_none_of_le hle h
  obtain ⟨i, j, hij, hj, heq⟩ := exists_climb_eq hlong
  exact climb_ne_none_of_eq hij heq (climb_ne_none_of_le (Nat.le_succ_of_le hj) hlong) fuel

end FeatureTree.Arena
