/-
The numbers of a tree and of the tree that is read back.

A restored tree is walked in the order of the first one, less the leaves without
data.  So its decisions and leaves come in the same order, and a node is referred to
by the number that its former self had.

* `Binary.Restores.walk_eq` — the walk below a node that kept its number;
* `Binary.Restores.forall₂_decisionEntries`, `Binary.Restores.forall₂_leafEntries` — the
  decisions and leaves of both trees, one by one;
* `Binary.Restores.decisions_eq`, `Binary.Restores.leaves_eq`,
  `Binary.Restores.reference_eq` — the numberings.
-/
import FeatureTree.Proofs.Format.Binary.RoundTrip

namespace FeatureTree.Binary

open Arena Relation

/-! ### Lists with their images -/

/-- The second components of related pairs are related by a map. -/
theorem map_snd_of_forall₂ {α β : Type} {R : α → α → Prop} {k : β → β} {xs ys : List (α × β)}
    (h : List.Forall₂ (fun x y => R x.1 y.1 ∧ y.2 = k x.2) xs ys) :
    ys.map (·.2) = (xs.map (·.2)).map k := by
  induction h with
  | nil => rfl
  | cons hxy _ ih => rw [List.map_cons, List.map_cons, List.map_cons, hxy.2, ih]

theorem map_fst_of_forall₂ {α β : Type} {R : α → α → Prop} {k : β → β} {xs ys : List (α × β)}
    (h : List.Forall₂ (fun x y => R x.1 y.1 ∧ y.2 = k x.2) xs ys) :
    List.Forall₂ R (xs.map (·.1)) (ys.map (·.1)) := by
  rw [List.forall₂_map_left_iff, List.forall₂_map_right_iff]
  exact h.imp fun _ _ hxy => hxy.1

theorem getElem?_of_forall₂ {α β : Type} {R : α → β → Prop} {xs : List α} {ys : List β}
    (h : List.Forall₂ R xs ys) {i : Nat} {x : α} (hx : xs[i]? = some x) :
    ∃ y, ys[i]? = some y ∧ R x y := by
  induction h generalizing i with
  | nil => simp at hx
  | cons hxy _ ih =>
    cases i with
    | zero =>
      obtain rfl := Option.some_inj.mp hx
      exact ⟨_, rfl, hxy⟩
    | succ i => exact ih hx

namespace Restores

variable {a a' : Arena} {symbol : Option Nat} {f : NodeId → Option NodeId} {root u i : NodeId}
variable (h : Restores a a' symbol f)
include h

/-! ### The walk -/

/-- Nothing below a node without a number has one. -/
theorem filterMap_walk_eq_nil (hu : f u = none) (n : Nat) : (a.walk n u).filterMap f = [] := by
  have hnone : a.childIds u = [] := by
    refine List.eq_nil_iff_forall_not_mem.mpr fun v hv => ?_
    obtain ⟨i, hi⟩ := h.exists_of_holds hv
    rw [hu] at hi
    simp at hi
  cases n with
  | zero => rfl
  | succ n => rw [walk, hnone, List.flatMap_nil, List.filterMap_cons_none hu, List.filterMap_nil]

/-- What lies below a node that kept its number, in the same order. -/
theorem walk_eq (hu : f u = some i) (n : Nat) : a'.walk n i = (a.walk n u).filterMap f := by
  induction n generalizing u i with
  | zero => rfl
  | succ n ih =>
    rw [walk, walk, List.filterMap_cons_some hu, h.childIds_eq hu]
    refine congrArg (i :: ·) ?_
    induction a.childIds u with
    | nil => rfl
    | cons c cs ihc =>
      rw [List.flatMap_cons, List.filterMap_append, ← ihc]
      cases hc : f c with
      | none => rw [List.filterMap_cons_none hc, h.filterMap_walk_eq_nil hc, List.nil_append]
      | some j => rw [List.filterMap_cons_some hc, List.flatMap_cons, ih hc]

/-! ### The entries -/

/-- What is picked from the nodes of a walk is picked from their images, if the nodes
without a number have nothing to pick. -/
theorem forall₂_pick {β : Type} (pick : Node → Option β) (k : β → β)
    (hkept : ∀ u i n n', f u = some i → a.node? u = some n → a'.node? i = some n' →
      pick n' = (pick n).map k)
    (hdropped : ∀ u n, f u = none → a.node? u = some n → pick n = none) (us : List NodeId) :
    List.Forall₂ (fun e e' => f e.1 = some e'.1 ∧ e'.2 = k e.2)
      ((us.filterMap a.entryAt?).filterMap fun e => (pick e.2).map (e.1, ·))
      (((us.filterMap f).filterMap a'.entryAt?).filterMap fun e => (pick e.2).map (e.1, ·)) := by
  induction us with
  | nil => exact .nil
  | cons u us ih =>
    cases hu : f u with
    | none =>
      rw [List.filterMap_cons_none hu]
      cases hn : a.node? u with
      | none =>
        have hentry : a.entryAt? u = none := by rw [entryAt?, hn, Option.map_none]
        rwa [List.filterMap_cons_none hentry]
      | some n =>
        have hentry : a.entryAt? u = some (u, n) := by rw [entryAt?, hn, Option.map_some]
        rw [List.filterMap_cons_some hentry, List.filterMap_cons, hdropped u n hu hn]
        exact ih
    | some i =>
      obtain ⟨n, hn⟩ : ∃ n, a.node? u = some n := by
        rcases h.kept u i hu with ⟨d, hd, -⟩ | ⟨p, hp, -, -⟩
        · exact exists_node?_iff.mpr (lt_size_of_content? hd)
        · exact exists_node?_iff.mpr (lt_size_of_content? hp)
      obtain ⟨n', hn'⟩ := exists_node?_iff.mpr (h.lt_size hu)
      have hentry : a.entryAt? u = some (u, n) := by rw [entryAt?, hn, Option.map_some]
      have hentry' : a'.entryAt? i = some (i, n') := by rw [entryAt?, hn', Option.map_some]
      rw [List.filterMap_cons_some hu, List.filterMap_cons_some hentry,
        List.filterMap_cons_some hentry', List.filterMap_cons, List.filterMap_cons,
        hkept u i n n' hu hn hn']
      cases pick n with
      | none => exact ih
      | some x => exact .cons ⟨hu, rfl⟩ ih

/-- The contents of a node and of its image. -/
theorem content_cases {n n' : Node} (hu : f u = some i) (hn : a.node? u = some n)
    (hn' : a'.node? i = some n') :
    (∃ d, n.content = .decision d ∧ n'.content = .decision (relink f d)) ∨
      ∃ p, n.content = .leaf p ∧ p.isEmpty = false ∧ n'.content = .leaf (p.stored symbol) := by
  have hcontent := content?_of_node? hn
  have hcontent' := content?_of_node? hn'
  rcases h.kept u i hu with ⟨d, hd, hi⟩ | ⟨p, hp, hdata, hi⟩
  · exact .inl ⟨d, Option.some_inj.mp (hcontent.symm.trans hd),
      Option.some_inj.mp (hcontent'.symm.trans hi)⟩
  · exact .inr ⟨p, Option.some_inj.mp (hcontent.symm.trans hp), hdata,
      Option.some_inj.mp (hcontent'.symm.trans hi)⟩

/-- A node without a number is a leaf without data. -/
theorem content_of_dropped {n : Node} (hu : f u = none) (hn : a.node? u = some n) :
    ∃ p, n.content = .leaf p ∧ p.isEmpty = true := by
  have hcontent := content?_of_node? hn
  rcases h.dropped u hu with hnone | ⟨p, hp, hdata⟩
  · rw [hcontent] at hnone
    simp at hnone
  · exact ⟨p, Option.some_inj.mp (hcontent.symm.trans hp), hdata⟩

theorem forall₂_decisionEntries (us : List NodeId) :
    List.Forall₂ (fun e e' => f e.1 = some e'.1 ∧ e'.2 = relink f e.2)
      (decisionEntries (us.filterMap a.entryAt?))
      (decisionEntries ((us.filterMap f).filterMap a'.entryAt?)) := by
  refine h.forall₂_pick Node.decision? (relink f) (fun u i n n' hu hn hn' => ?_)
    (fun u n hu hn => ?_) us
  · rcases h.content_cases hu hn hn' with ⟨d, hd, hd'⟩ | ⟨p, hp, -, hp'⟩
    · simp [Node.decision?, hd, hd']
    · simp [Node.decision?, hp, hp']
  · obtain ⟨p, hp, -⟩ := h.content_of_dropped hu hn
    simp [Node.decision?, hp]

theorem forall₂_leafEntries (us : List NodeId) :
    List.Forall₂ (fun e e' => f e.1 = some e'.1 ∧ e'.2 = e.2.stored symbol)
      (leafEntries (us.filterMap a.entryAt?))
      (leafEntries ((us.filterMap f).filterMap a'.entryAt?)) := by
  refine h.forall₂_pick (fun n => n.payload?.filter fun p => !p.isEmpty)
    (Payload.stored symbol) (fun u i n n' hu hn hn' => ?_) (fun u n hu hn => ?_) us
  · rcases h.content_cases hu hn hn' with ⟨d, hd, hd'⟩ | ⟨p, hp, hdata, hp'⟩
    · simp [Node.payload?, hd, hd']
    · simp [Node.payload?, hp, hp', Option.filter, hdata]
  · obtain ⟨p, hp, hdata⟩ := h.content_of_dropped hu hn
    simp [Node.payload?, hp, Option.filter, hdata]

/-! ### The numberings -/

section Trees

variable (w : a.WellFormed root) (w' : a'.WellFormed 0) (hf : f root = some 0)
include w w' hf

/-- The nodes of a restored tree in the order of the walk. -/
theorem entries_eq :
    ∃ us : List NodeId, entries a root = us.filterMap a.entryAt? ∧
      entries a' 0 = (us.filterMap f).filterMap a'.entryAt? := by
  have hrank := a.rank_le_size root
  have hrank' := a'.rank_le_size 0
  refine ⟨a.walk (a.size + a'.size) root, ?_, ?_⟩
  · rw [entries, walk_eq_walk w.acyclic w.child_lt w.root_lt hrank
      (by omega : a.rank root ≤ a.size + a'.size)]
  · rw [entries, walk_eq_walk w'.acyclic w'.child_lt w'.root_lt hrank'
      (by omega : a'.rank 0 ≤ a.size + a'.size), h.walk_eq hf]

/-- What a slot holds has the same place in both orders. -/
theorem place?_eq (hone' : ∀ u, a'.holders u ≤ 1) (slot : Option NodeId) :
    ((slot.bind f).bind fun i => (order (entries a' 0)).idxOf? i) =
      slot.bind fun u => (order (entries a root)).idxOf? u := by
  obtain ⟨us, hus, hus'⟩ := h.entries_eq w w' hf
  have horder : List.Forall₂ (fun u i => f u = some i) (order (entries a root))
      (order (entries a' 0)) := by
    rw [hus, hus', order, order]
    exact List.rel_append (map_fst_of_forall₂ (h.forall₂_decisionEntries us))
      (map_fst_of_forall₂ (h.forall₂_leafEntries us))
  cases slot with
  | none => rfl
  | some u =>
    rw [Option.bind_some, Option.bind_some]
    cases hk : (order (entries a root)).idxOf? u with
    | some k =>
      obtain ⟨i, hi, hu⟩ := getElem?_of_forall₂ horder (getElem?_of_place? hk)
      rw [hu]
      exact idxOf?_of_getElem? (nodup_order (nodup_entries w' hone')) hi
    | none =>
      -- a node that is not stored has no number
      cases hu : f u with
      | none => rfl
      | some i =>
        refine absurd ?_ (List.idxOf?_eq_none_iff.mp hk)
        rcases h.kept u i hu with ⟨d, hd, -⟩ | ⟨p, hp, hdata, -⟩
        · obtain ⟨n, hn, hnd⟩ := content?_eq_some_iff.mp hd
          exact List.mem_append_left _ (List.mem_map.mpr
            ⟨(u, d), mem_decisionEntries.mpr ⟨n, (mem_entries w).mpr hn, hnd⟩, rfl⟩)
        · obtain ⟨n, hn, hnp⟩ := content?_eq_some_iff.mp hp
          exact List.mem_append_right _ (List.mem_map.mpr
            ⟨(u, p), mem_leafEntries.mpr ⟨n, (mem_entries w).mpr hn, hnp, hdata⟩, rfl⟩)

variable (hroot : a.root = some root) (hroot' : a'.root = some 0) (hone : ∀ u, a.holders u ≤ 1)
  (hone' : ∀ u, a'.holders u ≤ 1)
include hroot hroot' hone hone'

theorem decisions_eq :
    (Numbering.ofArena a').decisions.toList =
      (Numbering.ofArena a).decisions.toList.map (relink f) := by
  obtain ⟨us, hus, hus'⟩ := h.entries_eq w w' hf
  rw [decisions_ofArena w hroot hone, decisions_ofArena w' hroot' hone', hus, hus']
  exact map_snd_of_forall₂ (R := fun u i => f u = some i) (h.forall₂_decisionEntries us)

theorem leaves_eq :
    (Numbering.ofArena a').leaves.toList =
      (Numbering.ofArena a).leaves.toList.map (Payload.stored symbol) := by
  obtain ⟨us, hus, hus'⟩ := h.entries_eq w w' hf
  rw [leaves_ofArena w hroot hone, leaves_ofArena w' hroot' hone', hus, hus']
  exact map_snd_of_forall₂ (R := fun u i => f u = some i) (h.forall₂_leafEntries us)

/-- What a slot holds is referred to by the same number. -/
theorem reference_eq (slot : Option NodeId) :
    (Numbering.ofArena a').reference (slot.bind f) = (Numbering.ofArena a).reference slot := by
  have hD : (decisionEntries (entries a' 0)).length =
      (decisionEntries (entries a root)).length := by
    obtain ⟨us, hus, hus'⟩ := h.entries_eq w w' hf
    rw [hus, hus']
    exact (h.forall₂_decisionEntries us).length_eq.symm
  rw [reference_eq_numberAt (nodup_entries w' hone') (fun e he => ?_)
      (numbered_ofArena w' hroot' hone'),
    reference_eq_numberAt (nodup_entries w hone) (fun e he => ?_) (numbered_ofArena w hroot hone),
    hD, h.place?_eq w w' hf hone']
  · simpa using lt_of_node? ((mem_entries w).mp he)
  · simpa using lt_of_node? ((mem_entries w').mp he)

end Trees

end Restores

end FeatureTree.Binary
