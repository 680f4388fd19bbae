/-
Freezing accepts exactly the well-formed graphs and counts them right.

* `Arena.visited_of_visit` — a visit that succeeds has the effect of `Visited`;
* `Arena.Shaped.refuses_of_visit`, `Arena.WellFormed.exists_visit` — where the edges are in
  order a visit fails at a content only, and in a well-formed arena not at all;
* `Arena.exists_freeze_iff`, `Arena.tallies_of_freeze` — what freezing accepts and what it gives;
* `Builder.finish_isOk_iff_wellFormed` — the same of a builder.

The bound on the way down is met by the list of entered nodes (`Arena.OnWay`):
they are distinct, so there are no more of them than nodes.  That a node which
must not be shared is met only once is carried by `Arena.Parented`: every marked
node has a marked parent, so below a fresh node its own children are fresh.
-/
import FeatureTree.Proofs.Tree.Survey

namespace FeatureTree

open Relation

namespace Arena

variable {a : Arena} {s s' : Survey} {way : List NodeId} {root id : NodeId} {n : Node}

/-! ### The checks of one node -/

theorem checkDecision_eq_ok_iff {d : Decision} :
    a.checkDecision id d = .ok () ↔ d.Suits a.schema := by
  rw [checkDecision.eq_def, Decision.Suits]
  cases hm : a.schema.get? d.feature with
  | none => simp
  | some m =>
    cases hk : d.test.neededKind? with
    | none => simp
    | some kind =>
      by_cases h : m.kind = kind
      · simp [h]
      · simp [h]

theorem nodeIs_iff {condition : Node → Bool} {c : NodeId} :
    a.nodeIs condition c = true ↔ ∃ n, a.node? c = some n ∧ condition n = true := by
  rw [nodeIs.eq_def]
  cases a.node? c <;> simp

theorem checkGraphNode_eq_ok_iff {g : GraphNode} :
    a.checkGraphNode g = .ok () ↔ a.GraphSuits g := by
  have hsuits : a.GraphSuits g ↔ (∀ leaf, g.leaf = some leaf → a.nodeIs Node.isLeaf leaf) ∧
      ∀ decision, g.decision = some decision →
        a.nodeIs (fun n => n.isDecision || n.isGraphNode) decision := by
    simp only [GraphSuits, nodeIs_iff, Bool.or_eq_true]
  rw [hsuits, checkGraphNode.eq_def]
  obtain ⟨leaf, decision⟩ := g
  cases leaf with
  | none =>
    cases decision with
    | none => simp [pure, Except.pure]
    | some d =>
      cases a.nodeIs (fun n => n.isDecision || n.isGraphNode) d <;> simp [pure, Except.pure]
  | some l =>
    cases hl : a.nodeIs Node.isLeaf l with
    | false => simp [hl, bind, Except.bind]
    | true =>
      cases decision with
      | none => simp [hl, pure, Except.pure]
      | some d =>
        cases hd : a.nodeIs (fun n => n.isDecision || n.isGraphNode) d <;>
          simp [hl, hd, pure, Except.pure]

theorem checkContent_eq_ok_iff :
    a.checkContent id n.content = .ok () ↔
      (∀ d, n.content = .decision d → d.Suits a.schema) ∧
      ∀ g, n.content = .graph g → a.GraphSuits g := by
  cases hn : n.content with
  | leaf p => simp [checkContent]
  | graph g => simp [checkContent, checkGraphNode_eq_ok_iff]
  | decision d => simp [checkContent, checkDecision_eq_ok_iff]

theorem checkChildren_eq_ok_iff :
    a.checkChildren n = .ok () ↔ ∀ c ∈ n.childIds, c < a.size := by
  rw [checkChildren.eq_def]
  cases h : n.childIds.reverse.find? (a.size ≤ ·) with
  | none => simpa using h
  | some c =>
    have hmem := List.mem_of_find?_eq_some h
    have hle := List.find?_some h
    simp only [reduceCtorEq, false_iff, not_forall]
    exact ⟨c, List.mem_reverse.mp hmem, by simpa using hle⟩

/-! ### The way down -/

variable (a) in
/-- The entered nodes are those on the way down, which are distinct. -/
structure OnWay (s : Survey) (way : List NodeId) : Prop where
  covers : a.Covers s
  nodup : way.Nodup
  entered : ∀ u, u ∈ way ↔ s.mark u = .entered

theorem OnWay.length_le (h : a.OnWay s way) : way.length ≤ a.size := by
  have hsub : way.toFinset ⊆ Finset.range a.size := by
    intro u hu
    have hu := (h.entered u).mp (List.mem_toFinset.mp hu)
    rw [Finset.mem_range, ← h.covers.marks]
    exact Survey.lt_of_mark_ne_fresh (by simp [hu])
  have hcard := Finset.card_le_card hsub
  rwa [List.toFinset_card_of_nodup h.nodup, Finset.card_range] at hcard

theorem OnWay.enter (h : a.OnWay s way) (hn : a.node? id = some n) (hf : s.mark id = .fresh) :
    a.OnWay (s.enter id) (id :: way) where
  covers := h.covers.enter id
  nodup := by
    refine List.nodup_cons.mpr ⟨fun hid => ?_, h.nodup⟩
    exact absurd ((h.entered id).mp hid) (by simp [hf])
  entered := fun u => by
    rw [h.covers.mark_enter hn, List.mem_cons, h.entered u]
    by_cases hu : u = id
    · simp [hu]
    · simp [hu]

theorem OnWay.of_visited {ids : List NodeId} (h : a.OnWay s way) (hv : a.Visited s s' ids) :
    a.OnWay s' way where
  covers := hv.covers
  nodup := h.nodup
  entered := fun u => by
    rw [h.entered u]
    by_cases hu : s.mark u = .fresh
    · rcases hv.fresh_or_done u hu with hu' | hu' <;> simp [hu, hu']
    · rw [hv.mark_eq u hu]

/-! ### A visit that succeeds -/

/-- All that a visit can do. -/
theorem visit_succ_cases {fuel : Nat} (h : a.visit (fuel + 1) s id = .ok s') :
    ∃ n, a.node? id = some n ∧
      ((s.mark id = .done ∧ n.isGraphNode = true ∧ s' = s) ∨
        (s.mark id = .fresh ∧ a.checkContent id n.content = .ok () ∧
          a.checkChildren n = .ok () ∧
          ∃ s₁, n.childIds.foldlM (a.visit fuel) (s.enter id) = .ok s₁ ∧
            s' = s₁.leave id (countOf s₁ n))) := by
  rw [visit] at h
  cases hn : a.node? id with
  | none => simp [hn] at h
  | some n =>
    refine ⟨n, rfl, ?_⟩
    simp only [hn] at h
    cases hm : s.mark id with
    | entered => simp [hm] at h
    | done =>
      simp only [hm] at h
      split at h
      · next hg => exact .inl ⟨rfl, hg, (Except.ok.inj h).symm⟩
      · exact absurd h (by simp)
    | fresh =>
      simp only [hm, bind, Except.bind] at h
      cases hc : a.checkContent id n.content with
      | error e => simp [hc] at h
      | ok _ =>
        cases hk : a.checkChildren n with
        | error e => simp [hc, hk] at h
        | ok _ =>
          cases hs : n.childIds.foldlM (a.visit fuel) (s.enter id) with
          | error e => simp [hc, hk, hs] at h
          | ok s₁ =>
            simp only [hc, hk, hs, pure, Except.pure, Except.ok.injEq] at h
            exact .inr ⟨rfl, rfl, rfl, s₁, rfl, h.symm⟩

/-- Visits in a row have the effect of `Visited` if each of them has. -/
theorem visited_of_foldlM {visit : Survey → NodeId → Except GraphError Survey}
    (hvisit : ∀ s id s', a.OnWay s way → visit s id = .ok s' → a.Visited s s' [id]) :
    ∀ (ids : List NodeId) (s : Survey), a.OnWay s way → ids.foldlM visit s = .ok s' →
      a.Visited s s' ids := by
  intro ids
  induction ids with
  | nil =>
    intro s hs h
    obtain rfl : s = s' := Except.ok.inj h
    exact Visited.nil hs.covers
  | cons id ids ih =>
    intro s hs h
    rw [List.foldlM_cons] at h
    cases h₁ : visit s id with
    | error e =>
      rw [h₁] at h
      exact absurd h (by simp [bind, Except.bind])
    | ok s₁ =>
      rw [h₁] at h
      have hv := hvisit s id s₁ hs h₁
      exact hv.append (ih s₁ (hs.of_visited hv) h)

theorem visited_of_visit : ∀ {fuel : Nat} {s : Survey} {way : List NodeId} {id : NodeId}
    {s' : Survey}, a.OnWay s way → a.size < fuel + way.length → a.visit fuel s id = .ok s' →
      a.Visited s s' [id] := by
  intro fuel
  induction fuel with
  | zero =>
    intro s way id s' hs hfuel _
    have := hs.length_le
    omega
  | succ fuel ih =>
    intro s way id s' hs hfuel h
    obtain ⟨n, hn, ⟨hm, hg, rfl⟩ | ⟨hm, hc, -, s₁, hs₁, rfl⟩⟩ := visit_succ_cases h
    · exact Visited.revisit hs.covers hm hn hg
    · have hs' := hs.enter hn hm
      refine Visited.enter_leave hs.covers hn hm hc ?_
      refine visited_of_foldlM (fun s c s' (hs : a.OnWay s (id :: way)) h => ?_) _ _ hs' hs₁
      exact ih hs (by rw [List.length_cons]; omega) h

/-! ### Visits of an arena in shape -/

variable (a) in
/-- Every marked node is the root or has a marked parent. -/
def Parented (root : NodeId) (s : Survey) (u : NodeId) : Prop :=
  u = root ∨ ∃ p, s.mark p ≠ .fresh ∧ a.Holds p u

theorem Parented.of_visited {ids : List NodeId} (hv : a.Visited s s' ids)
    (hids : ∀ id ∈ ids, a.Parented root s id)
    (hs : ∀ u, s.mark u ≠ .fresh → a.Parented root s u) :
    ∀ u, s'.mark u ≠ .fresh → a.Parented root s' u := by
  have hkeep : ∀ u, a.Parented root s u → a.Parented root s' u := by
    rintro u (rfl | ⟨p, hp, hpu⟩)
    · exact .inl rfl
    · exact .inr ⟨p, hv.mark_ne_fresh hp, hpu⟩
  intro u hu
  by_cases hf : s.mark u = .fresh
  · rcases hv.parent u hf hu with hid | hp
    · exact hkeep u (hids u hid)
    · exact .inr hp
  · exact hkeep u (hs u hf)

/-- The children of a fresh node that must not be shared are fresh. -/
theorem Shaped.fresh_of_holds (w : a.Shaped root)
    (hs : ∀ u, s.mark u ≠ .fresh → a.Parented root s u) {c : NodeId}
    (hf : s.mark id = .fresh) (hc : a.Holds id c) (hn : a.node? c = some n)
    (hg : n.isGraphNode = false) : s.mark c = .fresh := by
  by_contra hm
  rcases hs c hm with rfl | ⟨p, hp, hpc⟩
  · exact w.not_holds_root id hc
  · rw [eq_of_holders_le_one (w.unshared c n hn hg) hpc hc] at hp
    exact hp hf

/-- What a visit needs to fail at no edge. -/
structure Ready (a : Arena) (root : NodeId) (s : Survey) (way : List NodeId) (id : NodeId) :
    Prop where
  onWay : a.OnWay s way
  parented : ∀ u, s.mark u ≠ .fresh → a.Parented root s u
  lt : id < a.size
  parent : a.Parented root s id
  below : ∀ u ∈ way, TransGen a.Holds u id
  fresh : ∀ n, a.node? id = some n → n.isGraphNode = false → s.mark id = .fresh

/-- A visit of one child leaves the later children ready. -/
theorem Ready.of_visited (w : a.Shaped root) {p c d : NodeId} {before after : List NodeId}
    (hp : a.childIds p = before ++ c :: after) (hd : d ∈ after)
    (hr : a.Ready root s way d) (hc : a.Ready root s way c) (hv : a.Visited s s' [c]) :
    a.Ready root s' way d where
  onWay := hr.onWay.of_visited hv
  parented := Parented.of_visited hv (by simpa using hc.parent) hr.parented
  lt := hr.lt
  parent := by
    rcases hr.parent with rfl | ⟨q, hq, hqd⟩
    · exact .inl rfl
    · exact .inr ⟨q, hv.mark_ne_fresh hq, hqd⟩
  below := hr.below
  fresh := fun n hn hg => by
    by_contra hm
    obtain ⟨i, hi, hreach⟩ := hv.reached d (hr.fresh n hn hg) hm
    rw [List.mem_singleton.mp hi] at hreach
    exact w.not_reaches_sibling hp hd hn hg hreach

/-- The children of a node that was just entered are ready. -/
theorem Ready.enter (w : a.Shaped root) (hr : a.Ready root s way id)
    (hn : a.node? id = some n) (hf : s.mark id = .fresh) {c : NodeId} (hc : c ∈ n.childIds) :
    a.Ready root (s.enter id) (id :: way) c := by
  have hmark := hr.onWay.covers.mark_enter hn
  have hhold : a.Holds id c := by rwa [Holds, childIds_of_node? hn]
  -- entering marks a node and takes no mark away
  have hkeep : ∀ p, s.mark p ≠ .fresh → (s.enter id).mark p ≠ .fresh := by
    intro p hp
    rw [hmark]
    split
    · simp
    · exact hp
  refine
    { onWay := hr.onWay.enter hn hf, parented := ?_, lt := w.child_lt id c hhold,
      parent := .inr ⟨id, by simp [hmark], hhold⟩, below := ?_, fresh := ?_ }
  · intro u hu
    rw [hmark] at hu
    have hpar : a.Parented root s u := by
      split at hu
      · next h => exact h ▸ hr.parent
      · exact hr.parented u hu
    rcases hpar with rfl | ⟨p, hp, hpu⟩
    · exact .inl rfl
    · exact .inr ⟨p, hkeep p hp, hpu⟩
  · intro u hu
    rcases List.mem_cons.mp hu with rfl | hu
    · exact TransGen.single hhold
    · exact (hr.below u hu).tail hhold
  · intro m hm hg
    have hne : c ≠ id := by
      rintro rfl
      exact w.acyclic c (TransGen.single hhold)
    rw [hmark, if_neg hne]
    exact w.fresh_of_holds hr.parented hf hhold hm hg

variable (a) in
/-- The content of some node is refused with an error. -/
def Refuses (e : GraphError) : Prop :=
  ∃ u n, a.node? u = some n ∧ a.checkContent u n.content = .error e

/-- Where the edges are in order a visit fails at a content only. -/
theorem Shaped.refuses_of_visit (w : a.Shaped root) {e : GraphError} :
    ∀ {fuel : Nat} {s : Survey} {way : List NodeId} {id : NodeId}, a.Ready root s way id →
      a.size < fuel + way.length → a.visit fuel s id = .error e → a.Refuses e := by
  intro fuel
  induction fuel with
  | zero =>
    intro s way id _ _ h
    cases h
  | succ fuel ih =>
    intro s way id hr hfuel h
    obtain ⟨n, hn⟩ := exists_node?_iff.mpr hr.lt
    rw [visit, hn] at h
    cases hm : s.mark id with
    | entered =>
      exact absurd (hr.below id ((hr.onWay.entered id).mpr hm)) (w.acyclic id)
    | done =>
      cases hg : n.isGraphNode with
      | true => simp [hm, hg] at h
      | false => exact absurd (hr.fresh n hn hg) (by simp [hm])
    | fresh =>
      have hlen : a.size < fuel + (id :: way).length := by
        rw [List.length_cons]
        omega
      have hchildren : a.checkChildren n = .ok () := checkChildren_eq_ok_iff.mpr fun c hc =>
        w.child_lt id c (by rwa [Holds, childIds_of_node? hn])
      -- the children one after the other: those still to come stay ready
      have hfold : ∀ (before ids : List NodeId) (s : Survey), a.childIds id = before ++ ids →
          (∀ c ∈ ids, a.Ready root s (id :: way) c) →
          ids.foldlM (a.visit fuel) s = .error e → a.Refuses e := by
        intro before ids
        induction ids generalizing before with
        | nil =>
          intro s _ _ h
          cases h
        | cons c ids ihids =>
          intro s hids hready h
          have hc := hready c List.mem_cons_self
          rw [List.foldlM_cons] at h
          cases h₁ : a.visit fuel s c with
          | error e' =>
            rw [h₁] at h
            obtain rfl : e' = e := Except.error.inj h
            exact ih hc hlen h₁
          | ok s₁ =>
            rw [h₁] at h
            have hv := visited_of_visit hc.onWay hlen h₁
            refine ihids (before ++ [c]) s₁ (by rw [hids]; simp) (fun d hd => ?_) h
            exact Ready.of_visited w hids hd (hready d (List.mem_cons_of_mem _ hd)) hc hv
      simp only [hm, bind, Except.bind, hchildren] at h
      cases hcontent : a.checkContent id n.content with
      | error e' =>
        simp only [hcontent, Except.error.injEq] at h
        exact ⟨id, n, hn, h ▸ hcontent⟩
      | ok _ =>
        simp only [hcontent] at h
        cases h₁ : n.childIds.foldlM (a.visit fuel) (s.enter id) with
        | error e' =>
          rw [h₁] at h
          obtain rfl : e' = e := Except.error.inj h
          exact hfold [] n.childIds (s.enter id) (childIds_of_node? hn)
            (fun c hc => hr.enter w hn hm hc) h₁
        | ok s₁ =>
          rw [h₁] at h
          cases h

/-- In a well-formed arena every visit succeeds. -/
theorem WellFormed.exists_visit (w : a.WellFormed root) {fuel : Nat} (hr : a.Ready root s way id)
    (hfuel : a.size < fuel + way.length) : ∃ s', a.visit fuel s id = .ok s' := by
  cases h : a.visit fuel s id with
  | ok s' => exact ⟨s', rfl⟩
  | error e =>
    obtain ⟨u, n, hn, he⟩ := w.shaped.refuses_of_visit hr hfuel h
    have hok : a.checkContent u n.content = .ok () := checkContent_eq_ok_iff.mpr
      ⟨fun d hd => w.decisions u n d hn hd, fun g hg => w.graphNodes u n g hn hg⟩
    rw [hok] at he
    cases he

/-! ### The whole search -/

theorem onWay_start (a : Arena) : a.OnWay (Survey.start a.size) [] where
  covers := ⟨by simp [Survey.start], by simp [Survey.start]⟩
  nodup := List.nodup_nil
  entered := fun u => by simp

theorem Shaped.ready_start (w : a.Shaped root) :
    a.Ready root (Survey.start a.size) [] root where
  onWay := a.onWay_start
  parented := fun u hu => absurd (Survey.mark_start a.size u) hu
  lt := w.root_lt
  parent := .inl rfl
  below := fun u hu => absurd hu (by simp)
  fresh := fun n _ _ => Survey.mark_start a.size root

/-- A search from the root that left no node fresh has seen a well-formed graph. -/
theorem wellFormed_of_visited (hr : root < a.size)
    (hv : a.Visited (Survey.start a.size) s [root])
    (hall : ∀ u < a.size, s.mark u ≠ .fresh) : a.WellFormed root := by
  have hdone : ∀ u < a.size, s.mark u = .done := fun u hu =>
    (hv.fresh_or_done u (Survey.mark_start _ u)).resolve_left (hall u hu)
  have hsound : a.Sound s := hv.sound fun u hu => absurd hu (by simp)
  have hnode : ∀ id n, a.node? id = some n → a.Finished s id n := by
    intro id n hn
    obtain ⟨m, hm⟩ := hsound id (hdone id (lt_of_node? hn))
    obtain rfl : m = n := Option.some_inj.mp (hm.node ▸ hn)
    exact hm
  have hchild : ∀ p c, a.Holds p c → c < a.size := by
    intro p c hpc
    obtain ⟨n, hn⟩ := exists_node?_iff.mpr (lt_of_holds hpc)
    rw [Holds, childIds_of_node? hn] at hpc
    rw [← hv.covers.marks]
    exact Survey.lt_of_mark_ne_fresh (by rw [(hnode p n hn).children c hpc]; simp)
  refine
    { root_lt := hr, child_lt := hchild, reached := ?_, acyclic := ?_, unshared := ?_,
      decisions := ?_, graphNodes := ?_ }
  · intro id hid
    obtain ⟨i, hi, hreach⟩ := hv.reached id (Survey.mark_start _ id) (hall id hid)
    rwa [List.mem_singleton.mp hi] at hreach
  · intro id hcycle
    obtain ⟨c, hidc, -⟩ := TransGen.head'_iff.mp hcycle
    obtain ⟨n, hn⟩ := exists_node?_iff.mpr (lt_of_holds hidc)
    -- no endless way down leads through a node that is done
    have hacc := (hnode id n hn).acc.transGen
    clear hidc hn
    induction hacc with
    | intro u _ ih => exact ih u (transGen_swap.mpr hcycle) hcycle
  · intro id n hn hg
    have hsum := hv.unshared id n hn hg
    have hstart : a.doneHolders (Survey.start a.size) id = 0 :=
      Finset.sum_eq_zero fun p _ => by simp
    -- at the end every slot belongs to a node that is done
    have hend : a.doneHolders s id = a.holders id :=
      Finset.sum_congr rfl fun p hp => if_pos (hdone p (Finset.mem_range.mp hp))
    simp only [hstart, hend, Survey.freshness, Survey.mark_start, if_true] at hsum
    omega
  · intro id n d hn hd
    exact (checkContent_eq_ok_iff.mp (hnode id n hn).content).1 d hd
  · intro id n g hn hg
    exact (checkContent_eq_ok_iff.mp (hnode id n hn).content).2 g hg

variable (a) in
/-- The counts that belong to an arena: what a leaf holds, and at any other node
what its filled slots hold, slot by slot. -/
def Tallies (count : NodeId → Nat) : Prop :=
  ∀ id n, a.node? id = some n →
    count id = match n.content with
      | .leaf p => p.dataCount
      | _ => (n.childIds.map count).sum

variable (a) in
/-- The arena with other cached counts. -/
def recount (count : NodeId → Nat) : Arena :=
  { a with nodes := a.nodes.mapIdx fun i n => { n with count := count i } }

/-- What freezing gives for an arena with a root. -/
theorem freeze_some_eq_ok_iff {b : Arena} (hroot : a.root = some root) :
    a.freeze = .ok b ↔ root < a.size ∧
      ∃ s, a.visit (a.size + 1) (Survey.start a.size) root = .ok s ∧
        (∀ u < a.size, s.mark u ≠ .fresh) ∧ b = a.recount s.count := by
  rw [freeze.eq_def, hroot]
  by_cases hlt : root < a.size
  · simp only [Nat.not_le.mpr hlt, if_false, hlt, true_and, bind, Except.bind]
    cases hv : a.visit (a.size + 1) (Survey.start a.size) root with
    | error e => simp
    | ok s =>
      have hcov := (visited_of_visit a.onWay_start (by simp) hv).covers
      have hmark : s.marks.findIdx? (· == Mark.fresh) = none ↔ ∀ u < a.size, s.mark u ≠ .fresh := by
        rw [Array.findIdx?_eq_none_iff]
        constructor
        · intro h u hu
          have hu : u < s.marks.size := hcov.marks ▸ hu
          simpa [Survey.mark, hu] using h s.marks[u] (Array.getElem_mem hu)
        · intro h m hm
          obtain ⟨u, hu, rfl⟩ := Array.mem_iff_getElem.mp hm
          simpa [Survey.mark, hu] using h u (hcov.marks ▸ hu)
      cases hf : s.marks.findIdx? (· == Mark.fresh) with
      | some i =>
        have hnot := mt hmark.mpr (by simp [hf])
        simp [hf, hnot]
      | none =>
        simp only [hf, Except.ok.injEq, exists_eq_left', pure, Except.pure]
        exact ⟨fun h => ⟨hmark.mp hf, h.symm⟩, fun h => h.2.symm⟩
  · simp [Nat.not_lt.mp hlt]

theorem tallies_of_visited (hv : a.Visited (Survey.start a.size) s [root])
    (hall : ∀ u < a.size, s.mark u ≠ .fresh) : a.Tallies s.count := by
  intro id n hn
  have hdone := (hv.fresh_or_done id (Survey.mark_start _ id)).resolve_left
    (hall id (lt_of_node? hn))
  obtain ⟨m, hm⟩ := hv.sound (fun u hu => absurd hu (by simp)) id hdone
  obtain rfl : m = n := Option.some_inj.mp (hm.node ▸ hn)
  exact hm.count.trans (countOf_eq s m)

/-- What lies below a node that is done is done. -/
theorem Sound.done_of_reaches (hs : a.Sound s) {u v : NodeId} (hu : s.mark u = .done)
    (h : a.Reaches u v) : s.mark v = .done := by
  induction h with
  | refl => exact hu
  | @tail v w _ hvw ih =>
    obtain ⟨n, hn⟩ := hs v ih
    rw [Holds, childIds_of_node? hn.node] at hvw
    exact hn.children w hvw

/-- Freezing accepts the arena without nodes and root, and the well-formed ones. -/
theorem exists_freeze_iff :
    (∃ b, a.freeze = .ok b) ↔
      (a.size = 0 ∧ a.root = none) ∨ ∃ root, a.root = some root ∧ a.WellFormed root := by
  cases hroot : a.root with
  | none =>
    rw [freeze.eq_def, hroot]
    by_cases hsize : a.size = 0
    · simp [hsize]
    · simp [hsize]
  | some root =>
    simp only [freeze_some_eq_ok_iff hroot, reduceCtorEq, and_false, false_or, Option.some_inj,
      exists_eq_left']
    constructor
    · rintro ⟨b, hlt, s, hv, hall, -⟩
      exact wellFormed_of_visited hlt (visited_of_visit a.onWay_start (by simp) hv) hall
    · intro w
      obtain ⟨s, hv⟩ := w.exists_visit w.shaped.ready_start (by simp : a.size < a.size + 1 + 0)
      have hvis := visited_of_visit a.onWay_start (by simp) hv
      have hsound : a.Sound s := hvis.sound fun u hu => absurd hu (by simp)
      refine ⟨_, w.root_lt, s, hv, fun u hu => ?_, rfl⟩
      rw [hsound.done_of_reaches (hvis.done root (by simp)) (w.reached u hu)]
      simp

/-- Freezing changes nothing but the counts, which are then those of the arena. -/
theorem tallies_of_freeze {b : Arena} (h : a.freeze = .ok b) :
    ∃ count, a.Tallies count ∧ b = a.recount count := by
  cases hroot : a.root with
  | none =>
    rw [freeze.eq_def, hroot] at h
    by_cases hsize : a.size = 0
    · simp only [hsize, if_true, Except.ok.injEq] at h
      subst h
      have hnodes : a.nodes = #[] := Array.eq_empty_of_size_eq_zero hsize
      refine ⟨fun _ => 0, fun id n hn => ?_, ?_⟩
      · exact absurd (lt_of_node? hn) (by simp [hsize])
      · simp only [recount, hnodes, Array.mapIdx_empty]
        rw [← hnodes]
    · simp [hsize] at h
  | some root =>
    obtain ⟨-, s, hv, hall, rfl⟩ := (freeze_some_eq_ok_iff hroot).mp h
    exact ⟨s.count, tallies_of_visited (visited_of_visit a.onWay_start (by simp) hv) hall, rfl⟩

end Arena

/-! ### Builders -/

theorem Graph.ofArena?_eq_ok_iff {a : Arena} {g : Graph} :
    Graph.ofArena? a = .ok g ↔ a.freeze = .ok g.arena := by
  unfold Graph.ofArena?
  split
  · next b hb =>
    constructor
    · intro h
      obtain rfl := Except.ok.inj h
      exact hb
    · intro h
      obtain ⟨arena, frozen⟩ := g
      obtain rfl : b = arena := Except.ok.inj (hb.symm.trans h)
      rfl
  · next e he => simp [he]

/-- A builder is finished into a graph exactly if it has neither nodes nor a root,
or its arena is well formed over its root; and then only the counts are new: what
a leaf holds, and at any other node the counts in its filled slots. -/
theorem Builder.finish_isOk_iff_wellFormed (b : Builder) :
    ((∃ g, b.finish = .ok g) ↔
      (b.toArena.size = 0 ∧ b.root = none) ∨
        ∃ root, b.root = some root ∧ b.toArena.WellFormed root) ∧
    ∀ g, b.finish = .ok g →
      ∃ count, b.toArena.Tallies count ∧ g.arena = b.toArena.recount count := by
  have hfinish : ∀ g, b.finish = .ok g ↔ b.toArena.freeze = .ok g.arena := fun g =>
    Graph.ofArena?_eq_ok_iff
  constructor
  · rw [← Arena.exists_freeze_iff]
    constructor
    · rintro ⟨g, hg⟩
      exact ⟨g.arena, (hfinish g).mp hg⟩
    · rintro ⟨a, ha⟩
      exact ⟨⟨a, b.toArena, ha⟩, (hfinish _).mpr ha⟩
  · intro g hg
    exact Arena.tallies_of_freeze ((hfinish g).mp hg)

end FeatureTree
