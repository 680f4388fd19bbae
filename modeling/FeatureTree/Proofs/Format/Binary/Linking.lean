/-
From the records of a binary stream to an arena.

The decisions and the leaves become nodes in the order of the stream; then every
decision gets the children that its references name.  Nothing else changes.

* `Builder.content?_foldl_add` — the nodes that were added;
* `Binary.exists_linkRecord`, `Binary.exists_link` — the children of one decision
  and of all of them;
* `Binary.exists_assemble` — the arena, node by node.
-/
import FeatureTree.Format.Binary.Reader
import FeatureTree.Proofs.Stream.Reads
import FeatureTree.Proofs.Tree.Building

namespace FeatureTree

open Arena

namespace Builder

variable {b b' b'' : Builder} {u : Nat}

/-- Two builders that differ in their nodes at most, of which there are equally
many. -/
structure SameFrame (b b' : Builder) : Prop where
  size_eq : b'.size = b.size
  root_eq : b'.root = b.root
  schema_eq : b'.schema = b.schema
  properties_eq : b'.properties = b.properties

theorem SameFrame.refl (b : Builder) : SameFrame b b := ⟨rfl, rfl, rfl, rfl⟩

theorem SameFrame.trans (h : SameFrame b b') (h' : SameFrame b' b'') : SameFrame b b'' :=
  ⟨h'.size_eq.trans h.size_eq, h'.root_eq.trans h.root_eq, h'.schema_eq.trans h.schema_eq,
    h'.properties_eq.trans h.properties_eq⟩

theorem SameFrame.place (b : Builder) (p : NodeId) (d : Decision) (slot : Nat)
    (child : Option NodeId) : SameFrame b (b.place p d slot child) :=
  ⟨b.size_place, b.root_place, b.schema_place, b.properties_place⟩

theorem size_foldl_add (xs : List NodeContent) (b : Builder) :
    (xs.foldl (fun b x => (b.add x).1) b).size = b.size + xs.length := by
  induction xs generalizing b with
  | nil => rfl
  | cons x xs ih =>
    rw [List.foldl_cons, ih, size_add, List.length_cons]
    omega

/-- The nodes that are added follow those that were there. -/
theorem content?_foldl_add (xs : List NodeContent) (b : Builder) :
    (xs.foldl (fun b x => (b.add x).1) b).content? u =
      if u < b.size then b.content? u else xs[u - b.size]? := by
  induction xs generalizing b with
  | nil =>
    rw [List.foldl_nil]
    split
    · rfl
    · next h => exact content?_eq_none_iff.mpr (Nat.le_of_not_lt h)
  | cons x xs ih =>
    rw [List.foldl_cons, ih, size_add, content?_add]
    rcases Nat.lt_trichotomy u b.size with h | h | h
    · rw [if_pos (by omega), if_neg (Nat.ne_of_lt h), if_pos h]
    · subst h
      rw [if_pos (Nat.lt_succ_self _), if_pos rfl, if_neg (Nat.lt_irrefl _), Nat.sub_self]
      rfl
    · rw [if_neg (by omega), if_neg (by omega)]
      obtain ⟨k, hk⟩ : ∃ k, u - b.size = k + 1 := ⟨u - b.size - 1, by omega⟩
      rw [show u - (b.size + 1) = k by omega, hk]
      rfl

theorem schema_foldl_add (xs : List NodeContent) (b : Builder) :
    (xs.foldl (fun b x => (b.add x).1) b).schema = b.schema := by
  induction xs generalizing b with
  | nil => rfl
  | cons x xs ih => exact ih _

end Builder

namespace Binary

open Builder

variable {b : Builder} {u D L : Nat}

/-! ### The children of one decision -/

theorem setIfInBounds_append {α : Type} (pre rest : List α) (x y : α) :
    (pre ++ x :: rest).toArray.setIfInBounds pre.length y = (pre ++ y :: rest).toArray := by
  rw [List.setIfInBounds_toArray, List.set_append_right _ _ (Nat.le_refl _), Nat.sub_self]
  rfl

/-- The references of a decision fill its slots from the first one that has no
child yet. -/
theorem exists_linkFrom {d : Decision} (references : List Int32)
    (pre rest kids : List (Option NodeId))
    (hd : b.content? u = some (.decision { d with children := (pre ++ rest).toArray }))
    (hlength : rest.length = references.length)
    (hkids : references.mapM (resolve D L) = .ok kids)
    (hlt : ∀ c, some c ∈ kids → c < b.size) :
    ∃ b', (references.zipIdx pre.length).foldlM (fun b (reference, slot) => do
        let child ← resolve D L reference
        FormatError.ofGraph (b.setChild u slot child)) b = .ok b' ∧ SameFrame b b' ∧
      ∀ v : Nat, b'.content? v =
        if v = u then some (.decision { d with children := (pre ++ kids).toArray })
        else b.content? v := by
  -- `pre` holds the slots that are filled already
  induction references generalizing b pre rest kids with
  | nil =>
    obtain rfl : [] = kids := Except.ok.inj hkids
    obtain rfl : rest = [] := List.eq_nil_of_length_eq_zero hlength
    refine ⟨b, rfl, SameFrame.refl b, fun v : Nat => ?_⟩
    split
    · next h => rw [h, hd]
    · rfl
  | cons reference references ih =>
    obtain ⟨child, kids', hchild, hkids', rfl⟩ := mapM_cons_eq_ok_iff.mp hkids
    obtain ⟨empty, rest, rfl⟩ : ∃ y ys, rest = y :: ys := by
      cases rest with
      | nil => simp at hlength
      | cons y ys => exact ⟨y, ys, rfl⟩
    have hu := lt_size_of_content? hd
    have hset := b.setChild_eq_ok_iff.mpr
      ⟨_, hd, fun c hc => hlt c (hc ▸ List.mem_cons_self), (by simp : pre.length < _), rfl⟩
    have hplaced : (b.place u { d with children := (pre ++ empty :: rest).toArray } pre.length
        child).content? u =
          some (.decision { d with children := (pre ++ [child] ++ rest).toArray }) := by
      rw [b.content?_place hu, if_pos rfl]
      simp only [setIfInBounds_append, List.append_assoc, List.singleton_append]
    obtain ⟨b', hb', hframe, hcontent⟩ := ih (pre ++ [child]) rest kids' hplaced
      (by simpa using hlength) hkids' fun c hc => by
        rw [b.size_place]
        exact hlt c (List.mem_cons_of_mem _ hc)
    refine ⟨b', ?_, (SameFrame.place _ _ _ _ _).trans hframe, fun v : Nat => ?_⟩
    · rw [List.zipIdx_cons, List.foldlM_cons]
      simp only [hchild, hset, bind, Except.bind, FormatError.ofGraph, Except.mapError]
      rwa [List.length_append] at hb'
    · rw [hcontent v]
      by_cases hv : v = u
      · rw [if_pos hv, if_pos hv, List.append_assoc, List.singleton_append]
      · rw [if_neg hv, if_neg hv, b.content?_place hu, if_neg hv]

/-- The record of a decision with empty slots, whose references name its
children. -/
def Records (D L : Nat) (record : DecisionRecord) (d : Decision) : Prop :=
  record.decision = Decision.ofSlots d.feature d.test d.children.size ∧
    record.references.mapM (resolve D L) = .ok d.children.toList

theorem length_of_mapM_eq_ok {α β ε : Type} {f : α → Except ε β} {xs : List α} {ys : List β}
    (h : xs.mapM f = .ok ys) : ys.length = xs.length := by
  induction xs generalizing ys with
  | nil =>
    obtain rfl : [] = ys := Except.ok.inj h
    rfl
  | cons x xs ih =>
    obtain ⟨y, ys', -, hys, rfl⟩ := mapM_cons_eq_ok_iff.mp h
    rw [List.length_cons, List.length_cons, ih hys]

theorem exists_linkRecord {record : DecisionRecord} {d : Decision} (h : Records D L record d)
    (hd : b.content? u = some (.decision record.decision))
    (hlt : ∀ c, some c ∈ d.children.toList → c < b.size) :
    ∃ b', linkRecord D L b (record, u) = .ok b' ∧ SameFrame b b' ∧
      ∀ v : Nat, b'.content? v = if v = u then some (.decision d) else b.content? v := by
  have hrest : b.content? u = some (.decision { d with
      children := ([] ++ List.replicate d.children.size none).toArray }) := by
    rw [hd, h.1, Decision.ofSlots, List.nil_append, ← List.toArray_replicate]
  exact exists_linkFrom record.references [] _ _ hrest
    (by simpa using length_of_mapM_eq_ok h.2) h.2 hlt

/-! ### The children of all decisions -/

/-- Records of decisions that are nodes from number `k` on. -/
theorem exists_link (records : List DecisionRecord) (ds : List Decision) (k : Nat)
    (h : List.Forall₂ (Records D L) records ds)
    (hd : ∀ i r, records[i]? = some r → b.content? (k + i) = some (.decision r.decision))
    (hlt : ∀ d ∈ ds, ∀ c, some c ∈ d.children.toList → c < b.size) :
    ∃ b', (records.zipIdx k).foldlM (linkRecord D L) b = .ok b' ∧ SameFrame b b' ∧
      ∀ v : Nat, b'.content? v =
        if k ≤ v ∧ v < k + ds.length then (ds[v - k]?).map .decision else b.content? v := by
  induction h generalizing b k with
  | nil =>
    refine ⟨b, rfl, SameFrame.refl b, fun v : Nat => ?_⟩
    rw [if_neg (by simp)]
  | @cons record d records ds hr h ih =>
    obtain ⟨b₁, hb₁, hframe₁, hcontent₁⟩ := exists_linkRecord hr (hd 0 record rfl)
      (hlt d List.mem_cons_self)
    obtain ⟨b₂, hb₂, hframe₂, hcontent₂⟩ := ih (k + 1)
      (fun i r hi => by
        rw [hcontent₁, if_neg (by omega), show k + 1 + i = k + (i + 1) by omega]
        exact hd (i + 1) r hi)
      (fun e he c hc => by
        rw [hframe₁.size_eq]
        exact hlt e (List.mem_cons_of_mem _ he) c hc)
    refine ⟨b₂, ?_, hframe₁.trans hframe₂, fun v : Nat => ?_⟩
    · rw [List.zipIdx_cons, List.foldlM_cons]
      simp only [bind, Except.bind]
      rw [show linkRecord D L b (record, k) = .ok b₁ from hb₁]
      exact hb₂
    · rw [hcontent₂, hcontent₁, List.length_cons]
      -- the record at `k` has changed its own node only
      rcases Nat.lt_trichotomy v k with hv | hv | hv
      · rw [if_neg (by omega), if_neg (by omega), if_neg (by omega)]
      · subst hv
        rw [if_neg (by omega), if_pos (by omega), if_pos (by omega), Nat.sub_self]
        rfl
      · by_cases hlen : v < k + 1 + ds.length
        · obtain ⟨j, hj⟩ : ∃ j, v - k = j + 1 := ⟨v - k - 1, by omega⟩
          rw [if_pos (by omega), if_pos (by omega), hj, show v - (k + 1) = j by omega]
          rfl
        · rw [if_neg (by omega), if_neg (by omega), if_neg (by omega)]

/-! ### The arena -/

/-- The nodes of a stream in their order. -/
def table (ds : List Decision) (ps : List Payload) : List NodeContent :=
  ds.map .decision ++ ps.map .leaf

/-- What is read becomes an arena whose nodes are those of the stream; without
nodes that the first one could reach there are none. -/
theorem exists_assemble {s : Schema} {records : List DecisionRecord} {ds : List Decision}
    {ps : List Payload} (h : List.Forall₂ (Records ds.length ps.length) records ds)
    (hlt : ∀ d ∈ ds, ∀ c, some c ∈ d.children.toList → c < ds.length + ps.length)
    (hroot : ds ≠ [] ∨ ps.length = 1) :
    ∃ b, assemble s records ps = .ok b ∧ b.root = some 0 ∧ b.schema = s ∧
      b.size = ds.length + ps.length ∧ ∀ u : Nat, b.content? u = (table ds ps)[u]? := by
  have hlength : records.length = ds.length := h.length_eq
  -- all nodes are added before any is linked
  have hadd : ps.foldl (fun b p => (b.addLeaf p).1)
      (records.foldl (fun b r => (b.addDecision r.decision).1) (Builder.empty s)) =
      (table (records.map (·.decision)) ps).foldl (fun b x => (b.add x).1) (Builder.empty s) := by
    rw [table, List.foldl_append, List.foldl_map, List.foldl_map, List.foldl_map]
    rfl
  have hsize : (table (records.map (·.decision)) ps).length = ds.length + ps.length := by
    simp [table, hlength]
  have hcontent : ∀ u, ((table (records.map (·.decision)) ps).foldl (fun b x => (b.add x).1)
      (Builder.empty s)).content? u = (table (records.map (·.decision)) ps)[u]? := by
    intro u
    rw [content?_foldl_add, size_empty, if_neg (Nat.not_lt_zero u), Nat.sub_zero]
  obtain ⟨b, hb, hframe, hlinked⟩ := exists_link (b := (table (records.map (·.decision)) ps).foldl
      (fun b x => (b.add x).1) (Builder.empty s)) records ds 0 h
    (fun i r hi => by
      rw [hcontent, Nat.zero_add, table, List.getElem?_append_left]
      · simp [hi]
      · simpa using (List.getElem?_eq_some_iff.mp hi).1)
    (fun d hd c hc => by
      rw [size_foldl_add, hsize, size_empty, Nat.zero_add]
      exact hlt d hd c hc)
  refine ⟨b.setRoot 0, ?_, rfl, ?_, ?_, fun u => ?_⟩
  · rw [assemble, hadd, hlength]
    simp only [bind, Except.bind, pure, Except.pure, hb]
    rw [if_neg]
    rcases hroot with hds | hps
    · have : records ≠ [] := by
        rintro rfl
        exact hds (List.eq_nil_of_length_eq_zero hlength.symm)
      simp [this]
    · simp [hps]
  · show b.schema = s
    rw [hframe.schema_eq, schema_foldl_add]
    rfl
  · rw [size_setRoot, hframe.size_eq, size_foldl_add, hsize, size_empty, Nat.zero_add]
  · rw [content?_setRoot, hlinked, hcontent, Nat.zero_add, Nat.sub_zero, table, table]
    by_cases hu : u < ds.length
    · rw [if_pos ⟨Nat.zero_le u, hu⟩, List.getElem?_append_left (by simpa using hu),
        List.getElem?_map]
    · rw [if_neg (by omega), List.getElem?_append_right (by simpa [hlength] using hu),
        List.getElem?_append_right (by simpa using hu)]
      simp [hlength]

/-- Without decisions, no leaf or several leaves make no tree. -/
theorem assemble_nil {s : Schema} {ps : List Payload} (h : ps.length ≠ 1) :
    assemble s [] ps = .ok (Builder.empty s) := by
  rw [assemble]
  simp [h, pure, Except.pure, bind, Except.bind]

end Binary

end FeatureTree
