/-
Lines that list a tree, parents before children.

The first line has id 0, every later line has an id that a line before it refers to, and
no id is defined or referred to twice.  Such a list stays one when its last line is left
out, so that it can be recognized line by line; whether every id that is referred to has
its line shows only at the end.

* `Hts.Ordered` — parents before children, as far as the list goes;
* `Hts.Listed` — every line that is referred to is there;
* `Hts.Admits`, `Hts.ordered_concat_iff` — when one more line can follow.
-/
import FeatureTree.Proofs.Format.Hts.Walk
import Mathlib.Tactic.MkIffOfInductiveProp

namespace FeatureTree.Hts

/-- Rules that list parents before children.  The first one has id 0, and the others have
positive ids to which a rule before them refers.  No id is defined or referred to twice,
and no rule refers to an id that it or a rule before it defines. -/
@[mk_iff]
structure Ordered (rules : List Rule) : Prop where
  first : ∀ r ∈ rules.head?, r.id = 0
  later : ∀ i (h : i < rules.length), 0 < i →
    0 < rules[i].id ∧ rules[i].id ∈ (rules.take i).flatMap Rule.targets
  ids : (rules.map Rule.id).Nodup
  targets : (rules.flatMap Rule.targets).Nodup
  fresh : ∀ i (h : i < rules.length), ∀ t ∈ rules[i].targets,
    t ∉ (rules.take (i + 1)).map Rule.id

/-- Rules that list a tree: parents come before children, and every id that is referred
to is defined. -/
@[mk_iff]
structure Listed (rules : List Rule) : Prop extends Ordered rules where
  defined : ∀ t ∈ rules.flatMap Rule.targets, t ∈ rules.map Rule.id

instance (rules : List Rule) : Decidable (Ordered rules) :=
  decidable_of_iff' _ (ordered_iff rules)

instance (rules : List Rule) : Decidable (Listed rules) :=
  decidable_of_iff' _ (listed_iff rules)

/-- One more rule can follow: it has id 0 if it is the first one, otherwise an id that was
referred to and not defined; what it refers to is new. -/
structure Admits (rules : List Rule) (r : Rule) : Prop where
  root : rules = [] → r.id = 0
  known : rules ≠ [] → r.id ∈ rules.flatMap Rule.targets
  undefined : r.id ∉ rules.map Rule.id
  distinct : r.targets.Nodup
  new : ∀ t ∈ r.targets, t ≠ 0 ∧ t ∉ rules.flatMap Rule.targets

variable {rules : List Rule} {r : Rule} {t : Nat}

theorem ordered_nil : Ordered [] where
  first := by simp
  later := by simp
  ids := .nil
  targets := .nil
  fresh := by simp

namespace Ordered

theorem zero_mem (h : Ordered rules) (hne : rules ≠ []) : 0 ∈ rules.map Rule.id := by
  obtain ⟨q, rest, rfl⟩ := List.exists_cons_of_ne_nil hne
  rw [List.map_cons, h.first q rfl]
  exact List.mem_cons_self

/-- The rule with id 0 comes first, so that no rule can refer to it. -/
theorem pos_of_mem_targets (h : Ordered rules) (ht : t ∈ rules.flatMap Rule.targets) : 0 < t := by
  obtain ⟨q, hq, ht⟩ := List.mem_flatMap.mp ht
  obtain ⟨i, hi, rfl⟩ := List.mem_iff_getElem.mp hq
  refine Nat.pos_of_ne_zero fun hzero => h.fresh i hi t ht ?_
  obtain ⟨q, rest, rfl⟩ := List.exists_cons_of_ne_nil (List.ne_nil_of_mem hq)
  rw [List.take_succ_cons, List.map_cons, h.first q rfl, hzero]
  exact List.mem_cons_self

/-- Every id but 0 was referred to before it was defined. -/
theorem mem_targets_of_mem_ids (h : Ordered rules) (ht : t ∈ rules.map Rule.id) :
    t = 0 ∨ t ∈ rules.flatMap Rule.targets := by
  obtain ⟨q, hq, rfl⟩ := List.mem_map.mp ht
  obtain ⟨i, hi, rfl⟩ := List.mem_iff_getElem.mp hq
  rcases Nat.eq_zero_or_pos i with rfl | hpos
  · exact .inl (h.first _ (by rw [List.head?_eq_getElem?, List.getElem?_eq_getElem hi]; rfl))
  · obtain ⟨p, hp, hid⟩ := List.mem_flatMap.mp (h.later i hi hpos).2
    exact .inr (List.mem_flatMap.mpr ⟨p, List.mem_of_mem_take hp, hid⟩)

/-- Without its last rule the list is still one. -/
theorem of_concat (h : Ordered (rules ++ [r])) : Ordered rules := by
  -- up to its last rule the longer list has the same rules and the same beginnings
  have hget : ∀ i (hi : i < rules.length) (h : i < (rules ++ [r]).length),
      (rules ++ [r])[i] = rules[i] :=
    fun i hi _ => List.getElem_append_left hi
  have htake : ∀ i ≤ rules.length, (rules ++ [r]).take i = rules.take i :=
    fun i hi => List.take_append_of_le_length hi
  have hlt : ∀ i, i < rules.length → i < (rules ++ [r]).length := by
    intro i hi
    rw [List.length_append]
    omega
  refine ⟨fun q hq => h.first q ?_, fun i hi hpos => ?_, ?_, ?_, fun i hi t ht => ?_⟩
  · rw [List.head?_append, hq]
    rfl
  · have := h.later i (hlt i hi) hpos
    rwa [hget i hi (hlt i hi), htake i (Nat.le_of_lt hi)] at this
  · have := h.ids
    rw [List.map_append] at this
    exact (List.nodup_append.mp this).1
  · have := h.targets
    rw [List.flatMap_append] at this
    exact (List.nodup_append.mp this).1
  · have := h.fresh i (hlt i hi) t (by rw [hget i hi (hlt i hi)]; exact ht)
    rwa [htake (i + 1) hi] at this

theorem admits_of_concat (h : Ordered (rules ++ [r])) : Admits rules r := by
  -- the last rule is the one at the index that the shorter list does not have
  have hlast : rules.length < (rules ++ [r]).length := by simp
  have hget : (rules ++ [r])[rules.length] = r := by simp
  have hids := h.ids
  rw [List.map_append] at hids
  have htargets := h.targets
  rw [List.flatMap_append] at htargets
  obtain ⟨-, htargets, hdisjoint⟩ := List.nodup_append.mp htargets
  rw [List.flatMap_singleton] at htargets hdisjoint
  refine ⟨?_, fun hne => ?_, fun hmem => ?_, htargets, fun t ht => ⟨?_, fun hmem => ?_⟩⟩
  · rintro rfl
    exact h.first r rfl
  · have hpos : 0 < rules.length := List.length_pos_of_ne_nil hne
    have hid := (h.later _ hlast hpos).2
    rwa [hget, List.take_left] at hid
  · exact (List.nodup_append.mp hids).2.2 _ hmem _ (by simp) rfl
  · exact Nat.ne_of_gt (h.pos_of_mem_targets (by rw [List.flatMap_append]; simp [ht]))
  · exact hdisjoint t hmem t ht rfl

end Ordered

/-- A rule that can follow makes a longer list. -/
theorem Admits.ordered_concat (hr : Admits rules r) (h : Ordered rules) :
    Ordered (rules ++ [r]) := by
  -- what was defined so far is 0 or was referred to, and `r` refers to neither
  have hnotMem : ∀ t ∈ r.targets, t ∉ (rules ++ [r]).map Rule.id := by
    intro t ht hmem
    obtain ⟨hzero, hnew⟩ := hr.new t ht
    rw [List.map_append, List.mem_append, List.map_singleton, List.mem_singleton] at hmem
    rcases hmem with hmem | rfl
    · exact (h.mem_targets_of_mem_ids hmem).elim hzero hnew
    · by_cases hne : rules = []
      · exact hzero (hr.root hne)
      · exact hnew (hr.known hne)
  refine ⟨fun q hq => ?_, fun i hi hpos => ?_, ?_, ?_, fun i hi t ht => ?_⟩
  · cases rules with
    | nil =>
      obtain rfl : r = q := Option.some_inj.mp hq
      exact hr.root rfl
    | cons p rest => exact h.first q hq
  · rw [List.length_append, List.length_singleton] at hi
    rcases Nat.lt_or_eq_of_le (Nat.le_of_lt_succ hi) with hlt | rfl
    · rw [List.getElem_append_left hlt, List.take_append_of_le_length (Nat.le_of_lt hlt)]
      exact h.later i hlt hpos
    · rw [List.getElem_concat_length rfl, List.take_left]
      have hmem := hr.known (List.ne_nil_of_length_pos hpos)
      exact ⟨h.pos_of_mem_targets hmem, hmem⟩
  · rw [List.map_append]
    refine List.nodup_append.mpr ⟨h.ids, List.nodup_singleton _, ?_⟩
    rintro i hi j hj rfl
    rw [List.map_singleton, List.mem_singleton] at hj
    exact hr.undefined (hj ▸ hi)
  · rw [List.flatMap_append, List.flatMap_singleton]
    refine List.nodup_append.mpr ⟨h.targets, hr.distinct, ?_⟩
    rintro i hi j hj rfl
    exact (hr.new i hj).2 hi
  · rw [List.length_append, List.length_singleton] at hi
    rcases Nat.lt_or_eq_of_le (Nat.le_of_lt_succ hi) with hlt | rfl
    · rw [List.take_append_of_le_length hlt]
      rw [List.getElem_append_left hlt] at ht
      exact h.fresh i hlt t ht
    · rw [List.getElem_concat_length rfl] at ht
      rw [List.take_of_length_le (by simp)]
      exact hnotMem t ht

theorem ordered_concat_iff (h : Ordered rules) : Ordered (rules ++ [r]) ↔ Admits rules r :=
  ⟨Ordered.admits_of_concat, fun hr => hr.ordered_concat h⟩

/-- Any beginning of the list is one. -/
theorem Ordered.of_append {more : List Rule} (h : Ordered (rules ++ more)) : Ordered rules := by
  induction more using List.reverseRecOn with
  | nil => rwa [List.append_nil] at h
  | append_singleton more r ih =>
    rw [← List.append_assoc] at h
    exact ih h.of_concat

end FeatureTree.Hts
