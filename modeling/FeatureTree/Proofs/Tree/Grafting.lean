/-
Grafting puts trees together.

A vector that the first tree routes to the leaf goes on through the second tree, and any
other vector gets the answer it got before.  The counts change on the way from the root
to the leaf, each by the same number, and nowhere else.

* `Arena.Grafted.descend_rename`, `Arena.Grafted.descend_eq` — the descents through a graft;
* `Arena.Grafted.count_add` — the counts of a graft;
* `Cart.exists_graft` — grafting succeeds, and what it gives.
-/
import FeatureTree.Proofs.Tree.Counting
import FeatureTree.Proofs.Tree.Splicing

namespace FeatureTree

open Relation

namespace Arena

/-! ### Descents -/

/-- A bound on the way down that allows for all nodes does not matter. -/
theorem descend_eq_descend {a : Arena} {root u : NodeId} (w : a.WellFormed root)
    (v : FeatureVector) (hu : u < a.size) {fuel fuel' : Nat} (h : a.rank u ≤ fuel)
    (h' : a.rank u ≤ fuel') : a.descend v fuel u = a.descend v fuel' u := by
  have hslot : ∀ {n : Nat}, a.rank u ≤ n → ∀ c, some u = some c → a.rank c ≤ n := by
    intro n hn c hc
    rwa [← Option.some_inj.mp hc]
  rw [descend_eq_descend_unfold w.acyclic w.child_lt v hu h,
    descend_eq_descend_unfold w.acyclic w.child_lt v hu h',
    unfold_eq_unfold w.acyclic (hslot h) (hslot h')]

theorem interpret_of_root {a : Arena} {root : NodeId} (h : a.root = some root)
    (v : FeatureVector) : a.interpret v = a.descend v (a.size + 1) root := by
  rw [interpret, h]
  rfl

end Arena

/-- Renamed children are selected as before. -/
theorem Decision.next?_renumber (rename : NodeId → NodeId) (d : Decision) (v : FeatureVector) :
    ({ d with children := d.children.map (Option.map rename) } : Decision).next? v =
      (d.next? v).map (Option.map rename) := by
  have hchild : ∀ i, ({ d with children := d.children.map (Option.map rename) } : Decision).child? i
      = (d.child? i).map rename := by
    intro i
    rw [Decision.child?, Decision.child?, Array.getElem?_map]
    cases d.children[i]? with
    | none => rfl
    | some slot => cases slot <;> rfl
  rw [Decision.next?, Decision.next?]
  show (d.slot v).bind _ = ((d.slot v).bind _).map _
  cases d.slot v with
  | error e => rfl
  | ok slot =>
    cases slot with
    | none => rfl
    | some i => exact congrArg Except.ok (hchild i)

namespace Arena.Grafted

variable {a o b : Arena} {leaf top root u w : NodeId} {rename : NodeId → NodeId}
  {payload : Payload} (h : Grafted a o b leaf top rename)
include h

/-- The descent through the moved nodes is that through the second arena. -/
theorem descend_rename (hlt : ∀ p c, o.Holds p c → c < o.size)
    (hgraph : ∀ u g, o.content? u ≠ some (.graph g)) (v : FeatureVector) :
    ∀ {fuel : Nat} {w : NodeId}, w < o.size →
      b.descend v fuel (rename w) = o.descend v fuel w := by
  intro fuel
  induction fuel with
  | zero => exact fun _ => rfl
  | succ fuel ih =>
    intro w hw
    obtain ⟨x, hx⟩ := exists_content? hw
    have hb := h.moved w x hx
    cases x with
    | leaf p => rw [descend_of_leaf hx, descend_of_leaf hb]
    | graph g => exact absurd hx (hgraph w g)
    | decision d =>
      rw [descend_of_decision hx, descend_of_decision hb, Decision.next?_renumber]
      cases hnext : d.next? v with
      | error e => rfl
      | ok child =>
        cases child with
        | none => rfl
        | some c => exact ih (hlt w c (holds_of_next? hx hnext))

end Arena.Grafted

open Arena

namespace Cart

variable {t : Cart} {u : NodeId}

/-- Without a least number of data points the descent goes on as far as it can. -/
theorem nodeForLoop_zero_of_decision (hlt : ∀ p c, t.arena.Holds p c → c < t.arena.size)
    {d : Decision} (h : t.arena.content? u = some (.decision d)) (v : FeatureVector)
    (fuel : Nat) :
    t.nodeForLoop v 0 (fuel + 1) u =
      (d.next? v).bind fun child => child.elim (.ok u) (t.nodeForLoop v 0 fuel) := by
  have hdense : ∀ w, ¬ t.arena.Sparse 0 w := fun w hw => Nat.lt_irrefl 0 hw.1
  rw [nodeForLoop_of_decision hlt h, if_neg (hdense u)]
  simp only [hdense, if_false]

end Cart

/-- A vector that got to the leaf goes on through the second tree, and any other vector
comes to the end it came to before. -/
theorem Arena.Grafted.descend_eq {t : Cart} {o b : Arena} {leaf top root : NodeId}
    {rename : NodeId → NodeId} {payload : Payload} (h : Grafted t.arena o b leaf top rename)
    (wt : t.arena.WellFormed root) (wo : o.WellFormed top) (wb : b.WellFormed root)
    (ho : ∀ u g, o.content? u ≠ some (.graph g))
    (hleaf : t.arena.content? leaf = some (.leaf payload)) (v : FeatureVector) {fuel : Nat}
    {u : NodeId} (hu : u < t.arena.size) (hrank : t.arena.rank u ≤ fuel) :
    ∀ {fuel' : Nat}, b.rank u ≤ fuel' →
      (t.nodeForLoop v 0 fuel u = .ok leaf →
        b.descend v fuel' u = o.descend v (o.size + 1) top) ∧
      (t.nodeForLoop v 0 fuel u ≠ .ok leaf →
        b.descend v fuel' u = t.arena.descend v fuel u) := by
  -- the leaf now is the root of the second tree; a bound that is large enough for both
  -- trees takes the descent from one to the other
  have hgrafted : ∀ {fuel' : Nat}, b.rank leaf ≤ fuel' →
      b.descend v fuel' leaf = o.descend v (o.size + 1) top := by
    intro fuel' hrank
    have hlt := h.lt_of_lt wo.root_lt (lt_size_of_content? hleaf)
    have hrank' := o.rank_le_succ top
    calc b.descend v fuel' leaf
        = b.descend v (max fuel' (o.size + 1)) leaf :=
          descend_eq_descend wb v hlt hrank (hrank.trans (Nat.le_max_left ..))
      _ = b.descend v (max fuel' (o.size + 1)) (rename top) := by rw [h.rename_top]
      _ = o.descend v (max fuel' (o.size + 1)) top :=
          h.descend_rename wo.child_lt ho v wo.root_lt
      _ = o.descend v (o.size + 1) top :=
          descend_eq_descend wo v wo.root_lt (hrank'.trans (Nat.le_max_right ..)) hrank'
  refine induct_below wt.acyclic wt.child_lt (fun fuel u hu ih => ?_) hu hrank
  intro fuel' hrank'
  by_cases hne : u = leaf
  · subst hne
    rw [Cart.nodeForLoop_of_leaf hleaf]
    exact ⟨fun _ => hgrafted hrank', fun h => absurd rfl h⟩
  · obtain ⟨fuel', rfl⟩ : ∃ k, fuel' = k + 1 :=
      Nat.exists_eq_add_one.mpr ((rank_pos (h.lt_of_lt wo.root_lt hu)).trans_le hrank')
    obtain ⟨x, hx⟩ := exists_content? hu
    have hb := (h.kept u hu hne).trans hx
    cases x with
    | leaf p =>
      rw [Cart.nodeForLoop_of_leaf hx, descend_of_leaf hx, descend_of_leaf hb]
      exact ⟨fun h => absurd (Except.ok.inj h) hne, fun _ => rfl⟩
    | graph g => exact absurd hx (t.content?_ne_graph u g)
    | decision d =>
      rw [Cart.nodeForLoop_zero_of_decision wt.child_lt hx, descend_of_decision hx,
        descend_of_decision hb]
      cases hnext : d.next? v with
      | error e => exact ⟨fun h => absurd h (by simp [Except.bind]), fun _ => rfl⟩
      | ok child =>
        cases child with
        | none => exact ⟨fun h => absurd (Except.ok.inj h) hne, fun _ => rfl⟩
        | some c =>
          have hdown := rank_lt_of_holds wb.acyclic (holds_of_next? hb hnext)
          exact ih c (holds_of_next? hx hnext) (by omega)

/-! ### Counts -/

/-- In a sum over different nodes one summand changes. -/
theorem sum_map_add_of_mem {l : List NodeId} {f g : NodeId → Nat} {c : NodeId} {x y : Nat}
    (hnodup : l.Nodup) (hc : c ∈ l) (hchange : f c + x = g c + y)
    (hsame : ∀ d ∈ l, d ≠ c → f d = g d) : (l.map f).sum + x = (l.map g).sum + y := by
  have hperm := List.perm_cons_erase hc
  have hrest : (l.erase c).map f = (l.erase c).map g := by
    refine List.map_congr_left fun d hd => ?_
    obtain ⟨hne, hd⟩ := (List.Nodup.mem_erase_iff hnodup).mp hd
    exact hsame d hd hne
  rw [(hperm.map f).sum_eq, (hperm.map g).sum_eq, List.map_cons, List.map_cons,
    List.sum_cons, List.sum_cons, hrest]
  omega

namespace Arena.Grafted

variable {a o b : Arena} {leaf top root : NodeId} {rename : NodeId → NodeId} {payload : Payload}
  {countA countO countB : NodeId → Nat} (h : Grafted a o b leaf top rename)
  (wo : o.WellFormed top) (ho : ∀ u g, o.content? u ≠ some (.graph g))
  (tallyO : o.Tallies countO) (tallyB : b.Tallies countB)
include h wo ho tallyO tallyB

theorem count_rename {w : NodeId} (hw : w < o.size) : countB (rename w) = countO w := by
  refine induct_below wo.acyclic wo.child_lt (fun _ w hw ih => ?_) hw (o.rank_le_size w)
  obtain ⟨x, hx⟩ := exists_content? hw
  have hb := h.moved w x hx
  cases x with
  | leaf p => rw [tallyB.of_leaf hb, tallyO.of_leaf hx]
  | graph g => exact absurd hx (ho w g)
  | decision d =>
    rw [tallyB.of_decision hb, tallyO.of_decision hx, h.childIds_moved hw, List.map_map]
    exact congrArg List.sum (List.map_congr_left ih)

/-- Above the leaf the counts change by what the second tree has more than the leaf had;
elsewhere they stay. -/
theorem count_add (wa : a.WellFormed root) (hone : ∀ u, a.holders u ≤ 1)
    (ha : ∀ u g, a.content? u ≠ some (.graph g)) (tallyA : a.Tallies countA)
    (hleaf : a.content? leaf = some (.leaf payload)) {u : NodeId} (hu : u < a.size) :
    (a.Reaches u leaf → countB u + countA leaf = countA u + countO top) ∧
      (¬ a.Reaches u leaf → countB u = countA u) := by
  refine induct_below wa.acyclic wa.child_lt (fun _ u hu ih => ?_) hu (a.rank_le_size u)
  by_cases hne : u = leaf
  · subst hne
    have htop := h.count_rename wo ho tallyO tallyB wo.root_lt
    rw [h.rename_top] at htop
    exact ⟨fun _ => by rw [htop, Nat.add_comm], fun hnot => absurd .refl hnot⟩
  · obtain ⟨x, hx⟩ := exists_content? hu
    have hb := (h.kept u hu hne).trans hx
    cases x with
    | leaf p =>
      -- below another leaf there is nothing
      have hnot : ¬ a.Reaches u leaf := by
        intro hreach
        obtain ⟨c, hc, -⟩ := (Relation.ReflTransGen.cases_head hreach).resolve_left hne
        rw [Holds, childIds_of_content? hx] at hc
        simp [NodeContent.children] at hc
      exact ⟨fun h => absurd h hnot, fun _ => by rw [tallyB.of_leaf hb, tallyA.of_leaf hx]⟩
    | graph g => exact absurd hx (ha u g)
    | decision d =>
      rw [tallyB.of_decision hb, tallyA.of_decision hx, h.childIds_kept hu hne]
      constructor
      · -- the way to the leaf leads through one child, and not through its siblings
        intro hreach
        obtain ⟨c, hc, hcleaf⟩ := (Relation.ReflTransGen.cases_head hreach).resolve_left hne
        refine sum_map_add_of_mem (Arena.nodup_childIds hone u) hc ((ih c hc).1 hcleaf)
          fun d hd hdc => (ih d hd).2 fun hdleaf => ?_
        rcases reaches_total hone hcleaf hdleaf with hcd | hdc'
        · exact not_reaches_of_siblings wa.acyclic hone hdc.symm hc hd hcd
        · exact not_reaches_of_siblings wa.acyclic hone hdc hd hc hdc'
      · intro hnot
        refine congrArg List.sum (List.map_congr_left fun c hc => (ih c hc).2 ?_)
        exact fun hcleaf => hnot (.head hc hcleaf)

end Arena.Grafted

/-! ### Grafting a tree -/

namespace Cart

variable {t other : Cart} {shared : Bool} {leaf top root : NodeId} {n : Node}

/-- A tree can be put in the place of a leaf that is not the root and knows its parent. -/
theorem checkGraft_eq_ok_iff :
    t.checkGraft other shared leaf = .ok top ↔
      ∃ n, t.arena.node? leaf = some n ∧ n.isLeaf = true ∧ n.mother.isSome = true ∧
        n.isRoot = false ∧ other.arena.root = some top ∧
        joinable shared t.arena.schema other.arena.schema = true := by
  rw [checkGraft]
  cases t.arena.node? leaf with
  | none => simp
  | some n =>
    cases hleaf : n.isLeaf with
    | false => simp [hleaf]
    | true =>
      cases hmother : n.mother with
      | none => simp [hleaf, hmother]
      | some p =>
        cases hbelow : n.isRoot with
        | true => simp [hleaf, hmother, hbelow]
        | false =>
          cases other.arena.root with
          | none => simp [hleaf, hmother, hbelow]
          | some r =>
            cases joinable shared t.arena.schema other.arena.schema <;>
              simp [hleaf, hmother, hbelow]

theorem graft_eq_ok_iff {t' : Cart} :
    t.graft other shared leaf = .ok t' ↔ ∃ top, t.checkGraft other shared leaf = .ok top ∧
      ofBuilder? ((Builder.ofArena t.arena).splice leaf other.arena top) = .ok t' := by
  rw [graft]
  cases hcheck : t.checkGraft other shared leaf with
  | error e => simp [bind, Except.bind]
  | ok top =>
    simp only [bind, Except.bind, Except.ok.injEq, exists_eq_left']
    cases ofBuilder? ((Builder.ofArena t.arena).splice leaf other.arena top) with
    | error e => simp
    | ok t => simp [pure, Except.pure]

/-- The tree that splicing gives has the nodes of both trees, and the root and the schema
of the first one. -/
theorem spliced_of_ofBuilder? {t' : Cart} (hleaf : leaf < t.arena.size)
    (htop : top < other.arena.size)
    (h : ofBuilder? ((Builder.ofArena t.arena).splice leaf other.arena top) = .ok t') :
    Spliced t.arena other.arena t'.arena leaf top
        (Builder.spliceId leaf t.arena.size top) ∧
      t'.arena.root = t.arena.root ∧ t'.arena.schema = t.arena.schema := by
  obtain ⟨count, harena⟩ := arena_of_ofBuilder? h
  rw [harena]
  exact ⟨(Builder.spliced_splice (b := .ofArena t.arena) hleaf htop).recount count, rfl, rfl⟩

theorem content?_of_isLeaf (hn : t.arena.node? leaf = some n) (hleaf : n.isLeaf = true) :
    ∃ payload, t.arena.content? leaf = some (.leaf payload) := by
  obtain ⟨p, hp⟩ := isLeaf_iff.mp hleaf
  exact ⟨p, content?_eq_some_iff.mpr ⟨n, hn, hp⟩⟩

theorem nodeFor_eq_ok_some_iff (hroot : t.arena.root = some root) {v : FeatureVector}
    {minCount : Nat} {u : NodeId} :
    t.nodeFor v minCount = .ok (some u) ↔
      t.nodeForLoop v minCount (t.arena.size + 1) root = .ok u := by
  have heq : t.nodeFor v minCount =
      (t.nodeForLoop v minCount (t.arena.size + 1) root).map some := by
    rw [nodeFor, hroot]
    rfl
  rw [heq]
  cases t.nodeForLoop v minCount (t.arena.size + 1) root with
  | error e => simp [Except.map]
  | ok w => simp [Except.map]

/-- Where the checks pass, grafting succeeds, and the two trees share their schema and
their root. -/
theorem graft_cases (hn : t.arena.node? leaf = some n) (hleaf : n.isLeaf = true)
    (hmother : n.mother.isSome = true) (hbelow : n.isRoot = false)
    (htop : other.arena.root = some top)
    (hschema : joinable shared t.arena.schema other.arena.schema = true)
    (hroot : t.arena.root = some root) :
    ∃ t', t.graft other shared leaf = .ok t' ∧ t'.arena.root = some root ∧
      ∃ rename, Grafted t.arena other.arena t'.arena leaf top rename := by
  obtain ⟨payload, hpayload⟩ := content?_of_isLeaf hn hleaf
  have wt := t.wellFormed hroot
  have wo := other.wellFormed htop
  have hlt := lt_of_node? hn
  have h := (Builder.spliced_splice (b := .ofArena t.arena) hlt wo.root_lt).grafted hlt wo.root_lt
  have w := h.wellFormed wo hpayload wt (t.holders_le_one hroot) (other.holders_le_one htop)
    t.content?_ne_graph other.content?_ne_graph rfl (Schema.declared_of_joinable hschema).symm
  obtain ⟨t', ht'⟩ := exists_ofBuilder? hroot w
    (h.content?_ne_graph t.content?_ne_graph other.content?_ne_graph)
  obtain ⟨hspliced, hroot', -⟩ := spliced_of_ofBuilder? hlt wo.root_lt ht'
  have hcheck := checkGraft_eq_ok_iff.mpr ⟨n, hn, hleaf, hmother, hbelow, htop, hschema⟩
  exact ⟨t', graft_eq_ok_iff.mpr ⟨top, hcheck, ht'⟩, hroot'.trans hroot, _,
    hspliced.grafted hlt wo.root_lt⟩

/-- A tree can be put in the place of any leaf of another one that is below the root and
knows its parent.  A vector that got to the leaf gets the answer of the tree that was put
there, every other one the answer it got before.  Of the old nodes those on the way from
the root to the leaf change their count, by what the new tree holds more than the leaf
did. -/
theorem exists_graft (hn : t.arena.node? leaf = some n) (hleaf : n.isLeaf = true)
    (hmother : n.mother.isSome = true) (hbelow : n.isRoot = false)
    (htop : other.arena.root = some top)
    (hschema : joinable shared t.arena.schema other.arena.schema = true) :
    ∃ t' root, t.graft other shared leaf = .ok t' ∧ t.arena.root = some root ∧
      (∀ v, (t.nodeFor v 0 = .ok (some leaf) →
          t'.arena.interpret v = other.arena.interpret v) ∧
        (t.nodeFor v 0 ≠ .ok (some leaf) → t'.arena.interpret v = t.arena.interpret v)) ∧
      ∀ u < t.arena.size,
        (t.arena.Reaches root u ∧ t.arena.Reaches u leaf →
          (t'.arena.dataCount u : Int) - t.arena.dataCount u =
            other.arena.dataCount top - t.arena.dataCount leaf) ∧
        (¬ (t.arena.Reaches root u ∧ t.arena.Reaches u leaf) →
          t'.arena.dataCount u = t.arena.dataCount u) := by
  obtain ⟨root, hroot⟩ := t.exists_root hn
  obtain ⟨payload, hpayload⟩ := content?_of_isLeaf hn hleaf
  obtain ⟨t', hgraft, hroot', rename, h⟩ :=
    graft_cases hn hleaf hmother hbelow htop hschema hroot
  have wt := t.wellFormed hroot
  have wo := other.wellFormed htop
  have wb := t'.wellFormed hroot'
  refine ⟨t', root, hgraft, hroot, fun v => ?_, fun u hu => ?_⟩
  · have hway := h.descend_eq wt wo wb other.content?_ne_graph hpayload v wt.root_lt
      (t.arena.rank_le_succ root) (t'.arena.rank_le_succ root)
    rw [ne_eq, nodeFor_eq_ok_some_iff hroot, interpret_of_root hroot', interpret_of_root htop,
      interpret_of_root hroot]
    exact hway
  · have hcount := h.count_add wo other.content?_ne_graph other.graph.tallies t'.graph.tallies
      wt (t.holders_le_one hroot) t.content?_ne_graph t.graph.tallies hpayload hu
    have hreach := wt.reached u hu
    constructor
    · intro hon
      have : t'.arena.dataCount u + t.arena.dataCount leaf =
          t.arena.dataCount u + other.arena.dataCount top := hcount.1 hon.2
      omega
    · exact fun hoff => hcount.2 fun hup => hoff ⟨hreach, hup⟩

/-- The sample tree with the regression tree in the place of the leaf below its threshold
test: the vectors below the threshold go on through the regression tree, and the root
counts one data point more. -/
theorem exists_graft_sample :
    ∃ t other t' root, Sample.tree = .ok t ∧ Sample.regressionTree = .ok other ∧
      t.graft other false 5 = .ok t' ∧ t.arena.root = some root ∧
      (∀ v, t.nodeFor v 0 = .ok (some 5) →
        t'.arena.interpret v = other.arena.interpret v) ∧
      (t'.arena.dataCount root : Int) - t.arena.dataCount root = 2 - 1 := by
  have hsample : (Sample.tree.toOption.any fun t => Sample.regressionTree.toOption.any fun o =>
      (t.arena.node? 5).any (fun n => n.isLeaf && n.mother.isSome && !n.isRoot) &&
        o.arena.root == some 0 && joinable false t.arena.schema o.arena.schema &&
        o.arena.dataCount 0 == 2 && t.arena.dataCount 5 == 1) = true := by
    decide +kernel
  cases ht : Sample.tree with
  | error e => simp [ht, Except.toOption] at hsample
  | ok t =>
    cases ho : Sample.regressionTree with
    | error e => simp [ht, ho, Except.toOption] at hsample
    | ok other =>
      simp only [ht, ho, Except.toOption, Option.any_some, Bool.and_eq_true, beq_iff_eq] at hsample
      obtain ⟨⟨⟨⟨hleaf, htop⟩, hschema⟩, hcount⟩, hcount'⟩ := hsample
      obtain ⟨n, hn, hchecks⟩ := (Option.any_eq_true ..).mp hleaf
      simp only [Bool.and_eq_true, Bool.not_eq_true'] at hchecks
      obtain ⟨⟨hisLeaf, hmother⟩, hbelow⟩ := hchecks
      obtain ⟨t', root, hgraft, hroot, hinterpret, hcounts⟩ :=
        exists_graft hn hisLeaf hmother hbelow htop hschema
      have w := t.wellFormed hroot
      refine ⟨t, other, t', root, rfl, rfl, hgraft, hroot, fun v => (hinterpret v).1, ?_⟩
      have h := (hcounts root w.root_lt).1 ⟨.refl, w.reached 5 (lt_of_node? hn)⟩
      rw [h, hcount, hcount']
      rfl

end Cart

end FeatureTree
