/-
What the depth-first search of freezing does to its survey.

A visit that succeeds marks the visited nodes, and everything below them that was
not marked before, as done, and touches nothing else.  `Arena.Visited` says so
for several visits in a row; it composes along the list of visited nodes and
along the descent, so the whole search is one instance of it.

* `Arena.Sound` — what is known of every node that is done;
* `Arena.Visited.append`, `Arena.Visited.revisit` — visits in a row, and of a node that is done;
* `Arena.Visited.enter_leave` — a node is entered, its children are visited, and it is left.
-/
import FeatureTree.Proofs.Tree.WellFormed

namespace FeatureTree

open Relation

namespace Survey

variable {s : Survey} {id u : NodeId}

@[simp] theorem mark_start (size : Nat) (u : NodeId) : (start size).mark u = .fresh := by
  simp only [mark, start, Array.getElem?_replicate]
  split <;> rfl

theorem lt_of_mark_ne_fresh (h : s.mark u ≠ .fresh) : u < s.marks.size := by
  by_contra hu
  exact h (by rw [mark, Array.getElem?_eq_none (Nat.le_of_not_lt hu)]; rfl)

theorem mark_enter (h : id < s.marks.size) :
    (s.enter id).mark u = if u = id then .entered else s.mark u := by
  simp only [mark, enter, Array.getElem?_setIfInBounds]
  by_cases hu : id = u
  · subst hu
    simp [h]
  · simp [hu, Ne.symm hu]

@[simp] theorem count_enter (s : Survey) (id u : NodeId) : (s.enter id).count u = s.count u := rfl

theorem mark_leave (k : Nat) (h : id < s.marks.size) :
    (s.leave id k).mark u = if u = id then .done else s.mark u := by
  simp only [mark, leave, Array.getElem?_setIfInBounds]
  by_cases hu : id = u
  · subst hu
    simp [h]
  · simp [hu, Ne.symm hu]

theorem count_leave (k : Nat) (h : id < s.counts.size) :
    (s.leave id k).count u = if u = id then k else s.count u := by
  simp only [count, leave, Array.getElem?_setIfInBounds]
  by_cases hu : id = u
  · subst hu
    simp [h]
  · simp [hu, Ne.symm hu]

/-- One for a node that was not met yet, zero for any other. -/
def freshness (s : Survey) (u : NodeId) : Nat := if s.mark u = .fresh then 1 else 0

end Survey

namespace Arena

variable (a : Arena)

/-- The survey has a mark and a count for every node of the arena. -/
structure Covers (s : Survey) : Prop where
  marks : s.marks.size = a.size
  counts : s.counts.size = a.size

/-- What is known of a node that is done: its content is in order, its children
are done, its count is theirs put together, and no way down from it is endless. -/
structure Finished (s : Survey) (u : NodeId) (n : Node) : Prop where
  node : a.node? u = some n
  content : a.checkContent u n.content = .ok ()
  children : ∀ c ∈ n.childIds, s.mark c = .done
  count : s.count u = countOf s n
  acc : Acc (fun c p => a.Holds p c) u

/-- Every node that is done is finished. -/
def Sound (s : Survey) : Prop := ∀ u, s.mark u = .done → ∃ n, a.Finished s u n

/-- Number of child slots, of all nodes that are done, that hold a node. -/
def doneHolders (s : Survey) (c : NodeId) : Nat :=
  ∑ p ∈ Finset.range a.size, if s.mark p = .done then (a.childIds p).count c else 0

/-- The effect of visiting the nodes `ids` one after the other. -/
structure Visited (s s' : Survey) (ids : List NodeId) : Prop where
  covers : a.Covers s'
  mark_eq : ∀ u, s.mark u ≠ .fresh → s'.mark u = s.mark u
  count_eq : ∀ u, s.mark u ≠ .fresh → s'.count u = s.count u
  fresh_or_done : ∀ u, s.mark u = .fresh → s'.mark u = .fresh ∨ s'.mark u = .done
  done : ∀ id ∈ ids, s'.mark id = .done
  reached : ∀ u, s.mark u = .fresh → s'.mark u ≠ .fresh → ∃ id ∈ ids, a.Reaches id u
  parent : ∀ u, s.mark u = .fresh → s'.mark u ≠ .fresh →
    u ∈ ids ∨ ∃ p, s'.mark p ≠ .fresh ∧ a.Holds p u
  /-- A node that may not be shared is met in one of the visited slots only. -/
  unshared : ∀ c n, a.node? c = some n → n.isGraphNode = false →
    a.doneHolders s' c + ids.count c + s'.freshness c ≤ a.doneHolders s c + s.freshness c
  sound : a.Sound s → a.Sound s'

variable {a} {s s₁ s' : Survey} {id : NodeId} {n : Node}

/-- A node without data counts what its children count. -/
theorem countOf_eq (s : Survey) (n : Node) :
    countOf s n = match n.content with
      | .leaf p => p.dataCount
      | _ => (n.childIds.map s.count).sum := by
  have hsum : n.childIds.foldr (fun c sum => s.count c + sum) 0 = (n.childIds.map s.count).sum := by
    rw [List.sum, List.foldr_map]
  rw [countOf.eq_def]
  cases n.content with
  | leaf p => rfl
  | decision d => exact hsum
  | graph g => exact hsum

theorem countOf_congr (h : ∀ c ∈ n.childIds, s'.count c = s.count c) :
    countOf s' n = countOf s n := by
  rw [countOf_eq, countOf_eq, List.map_congr_left h]

theorem Finished.of_agree {u : NodeId} (h : a.Finished s u n)
    (hmark : ∀ c ∈ n.childIds, s'.mark c = s.mark c) (hself : s'.count u = s.count u)
    (hcount : ∀ c ∈ n.childIds, s'.count c = s.count c) : a.Finished s' u n where
  node := h.node
  content := h.content
  children := fun c hc => by rw [hmark c hc, h.children c hc]
  count := by rw [hself, h.count, countOf_congr hcount]
  acc := h.acc

/-- A graph node that is done may be met again. -/
theorem Visited.revisit (hc : a.Covers s) (hdone : s.mark id = .done)
    (hn : a.node? id = some n) (hg : n.isGraphNode = true) : a.Visited s s [id] where
  covers := hc
  mark_eq := fun _ _ => rfl
  count_eq := fun _ _ => rfl
  fresh_or_done := fun _ h => .inl h
  done := fun u hu => by rw [List.mem_singleton.mp hu, hdone]
  reached := fun u h h' => absurd h h'
  parent := fun u h h' => absurd h h'
  unshared := fun c m hm hmg => by
    have hne : id ≠ c := by
      rintro rfl
      rw [hn, Option.some_inj] at hm
      rw [hm, hmg] at hg
      exact absurd hg (by simp)
    simp [hne]
  sound := fun h => h

theorem Visited.nil (hc : a.Covers s) : a.Visited s s [] where
  covers := hc
  mark_eq := fun _ _ => rfl
  count_eq := fun _ _ => rfl
  fresh_or_done := fun _ h => .inl h
  done := fun u hu => absurd hu (by simp)
  reached := fun u h h' => absurd h h'
  parent := fun u h h' => absurd h h'
  unshared := fun c m hm hmg => by simp
  sound := fun h => h

/-- A marked node stays marked. -/
theorem Visited.mark_ne_fresh {ids : List NodeId} (h : a.Visited s s' ids) {u : NodeId}
    (hu : s.mark u ≠ .fresh) : s'.mark u ≠ .fresh := by
  rw [h.mark_eq u hu]
  exact hu

/-- Visits in a row. -/
theorem Visited.append {ids ids' : List NodeId} (h : a.Visited s s₁ ids)
    (h' : a.Visited s₁ s' ids') : a.Visited s s' (ids ++ ids') where
  covers := h'.covers
  mark_eq := fun u hu => by rw [h'.mark_eq u (h.mark_ne_fresh hu), h.mark_eq u hu]
  count_eq := fun u hu => by rw [h'.count_eq u (h.mark_ne_fresh hu), h.count_eq u hu]
  fresh_or_done := fun u hu => by
    rcases h.fresh_or_done u hu with h1 | h1
    · exact h'.fresh_or_done u h1
    · right
      rw [h'.mark_eq u (by simp [h1]), h1]
  done := fun u hu => by
    rcases List.mem_append.mp hu with hu | hu
    · have h1 := h.done u hu
      rw [h'.mark_eq u (by simp [h1]), h1]
    · exact h'.done u hu
  reached := fun u hu hu' => by
    by_cases h1 : s₁.mark u = .fresh
    · obtain ⟨i, hi, hr⟩ := h'.reached u h1 hu'
      exact ⟨i, List.mem_append_right _ hi, hr⟩
    · obtain ⟨i, hi, hr⟩ := h.reached u hu h1
      exact ⟨i, List.mem_append_left _ hi, hr⟩
  parent := fun u hu hu' => by
    by_cases h1 : s₁.mark u = .fresh
    · exact (h'.parent u h1 hu').imp_left (List.mem_append_right _)
    · refine (h.parent u hu h1).imp (List.mem_append_left _) ?_
      rintro ⟨p, hp, hpu⟩
      exact ⟨p, h'.mark_ne_fresh hp, hpu⟩
  -- what the first visits use up is missing for the others
  unshared := fun c m hm hg => by
    have h1 := h.unshared c m hm hg
    have h2 := h'.unshared c m hm hg
    rw [List.count_append]
    omega
  sound := fun hs => h'.sound (h.sound hs)

/-! ### Entering and leaving a node -/

theorem Covers.enter (hc : a.Covers s) (id : NodeId) : a.Covers (s.enter id) where
  marks := by simp [Survey.enter, hc.marks]
  counts := hc.counts

theorem Covers.leave (hc : a.Covers s) (id : NodeId) (k : Nat) : a.Covers (s.leave id k) where
  marks := by simp [Survey.leave, hc.marks]
  counts := by simp [Survey.leave, hc.counts]

theorem Covers.mark_enter (hc : a.Covers s) (hn : a.node? id = some n) (u : NodeId) :
    (s.enter id).mark u = if u = id then .entered else s.mark u :=
  Survey.mark_enter (hc.marks ▸ lt_of_node? hn)

theorem Covers.mark_leave (hc : a.Covers s) (hn : a.node? id = some n) (k : Nat) (u : NodeId) :
    (s.leave id k).mark u = if u = id then .done else s.mark u :=
  Survey.mark_leave k (hc.marks ▸ lt_of_node? hn)

theorem Covers.count_leave (hc : a.Covers s) (hn : a.node? id = some n) (k : Nat) (u : NodeId) :
    (s.leave id k).count u = if u = id then k else s.count u :=
  Survey.count_leave k (hc.counts ▸ lt_of_node? hn)

theorem Covers.sound_enter (hc : a.Covers s) (hn : a.node? id = some n)
    (hf : s.mark id = .fresh) (hs : a.Sound s) : a.Sound (s.enter id) := by
  intro u hu
  rw [hc.mark_enter hn] at hu
  split at hu
  · exact absurd hu (by simp)
  · obtain ⟨m, hm⟩ := hs u hu
    refine ⟨m, hm.of_agree (fun c hcm => ?_) rfl fun _ _ => rfl⟩
    have hne : c ≠ id := by
      rintro rfl
      exact absurd (hm.children c hcm) (by simp [hf])
    rw [hc.mark_enter hn, if_neg hne]

/-- A node whose children are done may be left with the count of its children. -/
theorem Covers.sound_leave (hc : a.Covers s) (hn : a.node? id = some n)
    (he : s.mark id = .entered) (hcontent : a.checkContent id n.content = .ok ())
    (hdone : ∀ c ∈ n.childIds, s.mark c = .done) (hs : a.Sound s) :
    a.Sound (s.leave id (countOf s n)) := by
  have hmark := hc.mark_leave hn (countOf s n)
  have hcount := hc.count_leave hn (countOf s n)
  -- an entered node is nobody's finished child
  have hne_of : ∀ c, s.mark c = .done → c ≠ id := by
    rintro c hcd rfl
    exact absurd hcd (by simp [he])
  intro u hu
  by_cases hne : u = id
  · subst hne
    refine ⟨n, hn, hcontent, fun c hcn => ?_, ?_, Acc.intro u fun c hcu => ?_⟩
    · rw [hmark, if_neg (hne_of c (hdone c hcn)), hdone c hcn]
    · rw [hcount, if_pos rfl]
      exact (countOf_congr fun c hcn => by rw [hcount, if_neg (hne_of c (hdone c hcn))]).symm
    · rw [Holds, childIds_of_node? hn] at hcu
      obtain ⟨m, hm⟩ := hs c (hdone c hcu)
      exact hm.acc
  · rw [hmark, if_neg hne] at hu
    obtain ⟨m, hm⟩ := hs u hu
    refine ⟨m, hm.of_agree (fun c hcm => ?_) ?_ fun c hcm => ?_⟩
    · rw [hmark, if_neg (hne_of c (hm.children c hcm))]
    · rw [hcount, if_neg hne]
    · rw [hcount, if_neg (hne_of c (hm.children c hcm))]

/-- The slots of a node count once the node is left. -/
theorem Covers.doneHolders_leave (hc : a.Covers s) (hn : a.node? id = some n)
    (he : s.mark id = .entered) (k : Nat) (c : NodeId) :
    a.doneHolders (s.leave id k) c = a.doneHolders s c + n.childIds.count c := by
  have hmem : id ∈ Finset.range a.size := Finset.mem_range.mpr (lt_of_node? hn)
  rw [doneHolders, doneHolders, ← Finset.add_sum_erase _ _ hmem, ← Finset.add_sum_erase _ _ hmem]
  have hrest : ∀ p ∈ (Finset.range a.size).erase id,
      (if (s.leave id k).mark p = .done then (a.childIds p).count c else 0)
        = if s.mark p = .done then (a.childIds p).count c else 0 := by
    intro p hp
    rw [hc.mark_leave hn, if_neg (Finset.ne_of_mem_erase hp)]
  rw [Finset.sum_congr rfl hrest, hc.mark_leave hn, if_pos rfl, if_pos rfl, he,
    childIds_of_node? hn, if_neg (by simp), Nat.zero_add, Nat.add_comm]

theorem Covers.doneHolders_enter (hc : a.Covers s) (hn : a.node? id = some n)
    (hf : s.mark id = .fresh) (c : NodeId) :
    a.doneHolders (s.enter id) c = a.doneHolders s c := by
  refine Finset.sum_congr rfl fun p _ => ?_
  rw [hc.mark_enter hn]
  by_cases hp : p = id
  · simp [hp, hf]
  · simp [hp]

/-- Entering a node, visiting its children and leaving it is a visit of it. -/
theorem Visited.enter_leave (hc : a.Covers s) (hn : a.node? id = some n)
    (hf : s.mark id = .fresh) (hcontent : a.checkContent id n.content = .ok ())
    (h : a.Visited (s.enter id) s' n.childIds) :
    a.Visited s (s'.leave id (countOf s' n)) [id] := by
  have hmark := hc.mark_enter hn
  have hself : s'.mark id = .entered := by
    rw [h.mark_eq id (by simp [hmark]), hmark, if_pos rfl]
  have hmark' := h.covers.mark_leave hn (countOf s' n)
  have hcount' := h.covers.count_leave hn (countOf s' n)
  -- away from the node itself nothing but the visits of its children matters
  have hother : ∀ u, u ≠ id → (s.enter id).mark u = s.mark u := fun u hu => by
    rw [hmark, if_neg hu]
  have hne_of : ∀ u, s.mark u ≠ .fresh → u ≠ id := by
    rintro u hu rfl
    exact hu hf
  refine
    { covers := h.covers.leave id _, mark_eq := ?_, count_eq := ?_, fresh_or_done := ?_,
      done := ?_, reached := ?_, parent := ?_, unshared := ?_, sound := ?_ }
  · intro u hu
    have hne := hne_of u hu
    rw [hmark', if_neg hne, h.mark_eq u (by rwa [hother u hne]), hother u hne]
  · intro u hu
    have hne := hne_of u hu
    rw [hcount', if_neg hne, h.count_eq u (by rwa [hother u hne]), Survey.count_enter]
  · intro u hu
    rw [hmark']
    by_cases hne : u = id
    · exact .inr (if_pos hne)
    · rw [if_neg hne]
      exact h.fresh_or_done u (by rwa [hother u hne])
  · intro u hu
    rw [hmark', if_pos (List.mem_singleton.mp hu)]
  · intro u hu hu'
    refine ⟨id, List.mem_singleton_self id, ?_⟩
    by_cases hne : u = id
    · rw [hne]
      exact ReflTransGen.refl
    · rw [hmark', if_neg hne] at hu'
      obtain ⟨c, hcn, hr⟩ := h.reached u (by rwa [hother u hne]) hu'
      exact ReflTransGen.head (by rwa [Holds, childIds_of_node? hn]) hr
  · intro u hu hu'
    by_cases hne : u = id
    · exact .inl (List.mem_singleton.mpr hne)
    · rw [hmark', if_neg hne] at hu'
      right
      rcases h.parent u (by rwa [hother u hne]) hu' with hcu | ⟨p, hp, hpu⟩
      · exact ⟨id, by simp [hmark'], by rwa [Holds, childIds_of_node? hn]⟩
      · refine ⟨p, ?_, hpu⟩
        rw [hmark']
        split
        · simp
        · exact hp
  · intro c m hm hg
    have hsum := h.unshared c m hm hg
    rw [hc.doneHolders_enter hn hf] at hsum
    rw [h.covers.doneHolders_leave hn hself]
    simp only [Survey.freshness, hmark, hmark', List.count_singleton, beq_iff_eq] at hsum ⊢
    by_cases hid : id = c
    · subst hid
      simp only [if_true, hself, hf, reduceCtorEq, if_false] at hsum ⊢
      omega
    · simp only [Ne.symm hid, hid, if_false] at hsum ⊢
      omega
  · intro hs
    exact h.covers.sound_leave hn hself hcontent h.done (h.sound (hc.sound_enter hn hf hs))

end Arena

end FeatureTree
