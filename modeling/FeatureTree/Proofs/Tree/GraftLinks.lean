/-
The links of a graft.

The nodes that are put in the place of a leaf know their parents under the new numbers, and
their root takes over the parent of the leaf.  So where the links of both trees agree with
their slots, those of the graft do, and the way to a grafted node is the way to the leaf
followed by the way to the node in its own tree.

* `Arena.checkLinks` — a test whether the links of an arena agree with its slots;
* `Decision.describeBranch_of_declared` — outcomes read alike over schemas that declare the
  same features;
* `Arena.Spliced.linksAgree` — its links;
* `Arena.Grafted.way_kept`, `Arena.Grafted.way_moved` — its ways;
* `Cart.graft_renumbers` — what grafting does to the nodes, their links and their decision
  paths.
-/
import FeatureTree.Proofs.Tree.Grafting
import FeatureTree.Proofs.Tree.Links

namespace FeatureTree

/-! ### A test of the links -/

namespace Arena

/-- Whether every node is linked to the slot that holds it, and the root to none. -/
def checkLinks (a : Arena) (root : NodeId) : Bool :=
  (a.node? root).all (·.mother.isNone) &&
    (List.range a.size).all fun p =>
      (((a.content? p).map (·.children)).getD []).zipIdx.all fun place =>
        place.1.all fun u => (a.node? u).all fun n => n.mother == some p && n.index == place.2

theorem linksAgree_of_checkLinks {a : Arena} {root : NodeId} (h : a.checkLinks root = true) :
    a.LinksAgree root := by
  rw [checkLinks, Bool.and_eq_true] at h
  obtain ⟨horphan, hall⟩ := h
  constructor
  · intro n hn
    rw [hn] at horphan
    exact Option.isNone_iff_eq_none.mp horphan
  · rintro p slot u n ⟨x, hx, hu⟩ hn
    have hp := List.all_eq_true.mp hall p (List.mem_range.mpr (lt_size_of_content? hx))
    rw [hx] at hp
    have hslot := List.all_eq_true.mp hp (some u, slot) (List.mem_zipIdx_iff_getElem?.mpr hu)
    rw [Option.all_some, hn, Option.all_some, Bool.and_eq_true, beq_iff_eq, beq_iff_eq] at hslot
    exact hslot

end Arena

/-! ### Outcomes -/

namespace Decision

variable {s t : Schema}

theorem featureLabel_of_declared (h : s.declared = t.declared) (feature : Nat) :
    featureLabel s feature = featureLabel t feature := by
  unfold featureLabel Schema.feature
  rcases Schema.get?_cases_of_declared h feature with
    ⟨hs, ht⟩ | ⟨m, m', hs, ht, hname, -, -⟩
  · rw [hs, ht]
  · simp only [hs, ht, hname]

theorem valueLabel_of_declared (h : s.declared = t.declared) (feature : Nat) (ordinal : Int) :
    valueLabel s feature ordinal = valueLabel t feature ordinal := by
  unfold valueLabel Schema.valueName Schema.discreteFeature Schema.feature
  rcases Schema.get?_cases_of_declared h feature with
    ⟨hs, ht⟩ | ⟨m, m', hs, ht, hname, hkind, hvalues⟩
  · rw [hs, ht]
  · simp only [hs, ht, bind, Except.bind, hkind]
    cases m'.kind.isDiscrete with
    | false => rfl
    | true => simp only [if_true, hname, hvalues]

/-- An outcome reads alike over schemas that declare the same features. -/
theorem describeBranch_of_declared (h : s.declared = t.declared) (d : Decision) (slot : Nat) :
    d.describeBranch s slot = d.describeBranch t slot := by
  unfold describeBranch
  simp only [featureLabel_of_declared h, valueLabel_of_declared h]

end Decision

open Arena

/-! ### Slots and ways -/

namespace Arena

variable {a o b : Arena} {leaf top root u w p : NodeId} {slot : Nat} {payload : Payload}
  {rename : NodeId → NodeId} {steps above : List (NodeId × Nat)}

/-- Every step of a way leads through a slot that holds a node. -/
theorem Way.exists_heldAt (h : a.Way root steps u) :
    ∀ step ∈ steps, ∃ c, a.HeldAt step.1 step.2 c := by
  induction h with
  | start => simp
  | step _ hslot ih =>
    intro step hstep
    rcases List.mem_append.mp hstep with hstep | hstep
    · exact ih step hstep
    · rw [List.mem_singleton.mp hstep]
      exact ⟨_, hslot⟩

namespace Grafted

variable (h : Grafted a o b leaf top rename)
  (hleaf : a.content? leaf = some (.leaf payload))
include h hleaf

theorem way_kept (hway : a.Way root steps u) : b.Way root steps u := by
  induction hway with
  | start => exact .start
  | step _ hslot ih => exact ih.step ((h.heldAt_iff hleaf).mpr (.inl hslot))

/-- A way in the second arena goes on where a way to the leaf ends. -/
theorem way_moved (habove : b.Way root above leaf) (hway : o.Way top steps w) :
    b.Way root (above ++ steps.map fun step => (rename step.1, step.2)) (rename w) := by
  induction hway with
  | start => rwa [List.map_nil, List.append_nil, h.rename_top]
  | step _ hslot ih =>
    rw [List.map_append, ← List.append_assoc]
    exact ih.step ((h.heldAt_iff hleaf).mpr (.inr ⟨_, _, rfl, rfl, hslot⟩))

/-- The outcomes on a way in the first arena stay as they are. -/
theorem outcomes_kept (hschema : b.schema = a.schema) (hway : a.Way root steps u) :
    steps.map b.outcome = steps.map a.outcome := by
  refine List.map_congr_left fun step hstep => ?_
  obtain ⟨c, hslot⟩ := hway.exists_heldAt step hstep
  rw [outcome, outcome, h.kept step.1 (lt_of_holds hslot.holds) (hslot.ne_of_leaf hleaf), hschema]

omit hleaf in
/-- Those on a way in the second arena read as they did. -/
theorem outcomes_moved (hdeclared : b.schema.declared = o.schema.declared)
    (hway : o.Way top steps w) :
    (steps.map fun step => (rename step.1, step.2)).map b.outcome = steps.map o.outcome := by
  rw [List.map_map]
  refine List.map_congr_left fun step hstep => ?_
  obtain ⟨c, x, hx, -⟩ := hway.exists_heldAt step hstep
  rw [Function.comp, outcome, outcome, hx, h.moved step.1 x hx]
  cases x with
  | leaf p => rfl
  | graph g => rfl
  | decision d => exact Decision.describeBranch_of_declared hdeclared d step.2

end Grafted

/-- Where the links of both arenas agree with their slots, those of the spliced one do. -/
theorem Spliced.linksAgree (h : Spliced a o b leaf top rename) (wa : a.WellFormed root)
    (wo : o.WellFormed top) {n : Node} (hn : a.node? leaf = some n)
    (hleaf : n.content = .leaf payload) (hmother : n.mother.isSome = true)
    (hagree : a.LinksAgree root) (hagree' : o.LinksAgree top) : b.LinksAgree root where
  orphan := by
    intro m hm
    have hne : root ≠ leaf := by
      rintro rfl
      simp [hagree.orphan n hn] at hmother
    obtain ⟨r, hr⟩ := exists_node?_iff.mpr wa.root_lt
    obtain ⟨k, hk⟩ := h.kept root r hr hne
    obtain rfl := Option.some_inj.mp (hk.symm.trans hm)
    exact hagree.orphan r hr
  linked := by
    have hgrafted := h.grafted (lt_of_node? hn) wo.root_lt
    intro p slot u m hslot hm
    rcases (hgrafted.heldAt_iff (hleaf ▸ content?_of_node? hn)).mp hslot with
      hkept | ⟨v, w, rfl, rfl, hmoved⟩
    · obtain ⟨n', hn'⟩ := exists_node?_iff.mpr (wa.child_lt p u hkept.holds)
      have hlinked := hagree.linked p slot u n' hkept hn'
      by_cases hu : u = leaf
      · -- the root of the second arena has the link of the leaf
        subst hu
        obtain ⟨r, hr⟩ := exists_node?_iff.mpr wo.root_lt
        obtain ⟨k, hk⟩ := h.replaced n' r hn' hr
        obtain rfl := Option.some_inj.mp (hk.symm.trans hm)
        exact hlinked
      · obtain ⟨k, hk⟩ := h.kept u n' hn' hu
        obtain rfl := Option.some_inj.mp (hk.symm.trans hm)
        exact hlinked
    · obtain ⟨n', hn'⟩ := exists_node?_iff.mpr (wo.child_lt v w hmoved.holds)
      obtain ⟨hparent, hindex⟩ := hagree'.linked v slot w n' hmoved hn'
      have hw : w ≠ top := by
        rintro rfl
        exact wo.not_holds_root v hmoved.holds
      obtain ⟨k, hk⟩ := h.moved w n' hn' hw
      obtain rfl := Option.some_inj.mp (hk.symm.trans hm)
      exact ⟨congrArg (Option.map rename) hparent, hindex⟩

end Arena

/-! ### The nodes of a graft -/

namespace Cart

variable {t other t' : Cart} {shared : Bool} {leaf : NodeId}

/-- Grafting leaves the nodes of the first tree as they are, up to their counts, but for the
leaf, which becomes the root of the second tree and stays where it is.  The other nodes of
the second tree come behind in their order, with one new number for each of them, under which
they are named as children and as parents.  So the links agree with the slots as they did in
both trees, and the decision path of a node of the second tree is that of the leaf followed
by the one it had. -/
theorem graft_renumbers
    (hlinks : ∀ root, t.arena.root = some root → t.arena.LinksAgree root)
    (hlinks' : ∀ top, other.arena.root = some top → other.arena.LinksAgree top)
    (hgraft : t.graft other shared leaf = .ok t') :
    ∃ (root top : NodeId) (rename : NodeId → NodeId) (n r : Node),
      t.arena.root = some root ∧ t'.arena.root = some root ∧ other.arena.root = some top ∧
      t.arena.node? leaf = some n ∧ other.arena.node? top = some r ∧
      Spliced t.arena other.arena t'.arena leaf top rename ∧
      (∃ k, t'.arena.node? leaf =
        some ⟨r.content.renumber rename, n.mother, n.index, false, k⟩) ∧
      t'.arena.LinksAgree root ∧
      ∃ above, t.arena.Way root above leaf ∧
        t.arena.decisionPath leaf =
          .ok (Text.joinWith " - " (above.map t.arena.outcome)) ∧
        ∀ w < other.arena.size, ∃ below, other.arena.Way top below w ∧
          other.arena.decisionPath w =
            .ok (Text.joinWith " - " (below.map other.arena.outcome)) ∧
          t'.arena.decisionPath (rename w) = .ok (Text.joinWith " - "
            (above.map t.arena.outcome ++ below.map other.arena.outcome)) := by
  obtain ⟨top, hcheck, hbuild⟩ := graft_eq_ok_iff.mp hgraft
  obtain ⟨n, hn, hisLeaf, hmother, hbelow, htop, hschema⟩ := checkGraft_eq_ok_iff.mp hcheck
  obtain ⟨root, hroot⟩ := t.exists_root hn
  obtain ⟨payload, hcontent⟩ := isLeaf_iff.mp hisLeaf
  have hleaf : t.arena.content? leaf = some (.leaf payload) := hcontent ▸ content?_of_node? hn
  have wt := t.wellFormed hroot
  have wo := other.wellFormed htop
  obtain ⟨r, hr⟩ := exists_node?_iff.mpr wo.root_lt
  obtain ⟨hspliced, hroot', hschema'⟩ :=
    spliced_of_ofBuilder? (lt_of_node? hn) wo.root_lt hbuild
  rw [hroot] at hroot'
  have w' := t'.wellFormed hroot'
  have hgrafted := hspliced.grafted (lt_of_node? hn) wo.root_lt
  have hagree := hspliced.linksAgree wt wo hn hcontent hmother (hlinks root hroot)
    (hlinks' top htop)
  have hdeclared : t'.arena.schema.declared = other.arena.schema.declared := by
    rw [hschema']
    exact Schema.declared_of_joinable hschema
  obtain ⟨k, hk⟩ := hspliced.replaced n r hn hr
  obtain ⟨above, habove⟩ := exists_way (wt.reached leaf (lt_of_node? hn))
  refine ⟨root, top, _, n, r, hroot, hroot', htop, hn, hr, hspliced,
    ⟨k, hbelow ▸ hk⟩, hagree, above, habove,
    habove.decisionPath_eq wt (hlinks root hroot) t.content?_ne_graph, fun w hw => ?_⟩
  obtain ⟨below, hway⟩ := exists_way (wo.reached w hw)
  refine ⟨below, hway,
    hway.decisionPath_eq wo (hlinks' top htop) other.content?_ne_graph, ?_⟩
  rw [(hgrafted.way_moved hleaf (hgrafted.way_kept hleaf habove) hway).decisionPath_eq w' hagree
      t'.content?_ne_graph, List.map_append, hgrafted.outcomes_kept hleaf hschema' habove,
    hgrafted.outcomes_moved hdeclared hway]

/-- The regression tree in the place of the leaf below the threshold test of the sample
tree: its first leaf comes behind the eight nodes of that tree. -/
theorem graft_renumbers_sample :
    ∃ (t other t' : Cart) (rename : NodeId → NodeId) (above below : List (NodeId × Nat)),
      Sample.tree = .ok t ∧ Sample.regressionTree = .ok other ∧
      t.graft other false 5 = .ok t' ∧ t.arena.LinksAgree 0 ∧ other.arena.LinksAgree 0 ∧
      Spliced t.arena other.arena t'.arena 5 0 rename ∧ t'.arena.LinksAgree 0 ∧
      t.arena.Way 0 above 5 ∧ other.arena.Way 0 below 1 ∧
      t'.arena.decisionPath (rename 1) = .ok (Text.joinWith " - "
        (above.map t.arena.outcome ++ below.map other.arena.outcome)) := by
  have hsample : (Sample.tree.toOption.any fun t => Sample.regressionTree.toOption.any fun o =>
      (t.graft o false 5).toOption.any fun _ =>
        decide (t.arena.root = some 0) && t.arena.checkLinks 0 &&
          decide (o.arena.root = some 0) && o.arena.checkLinks 0 &&
          decide (1 < o.arena.size)) = true := by
    decide +kernel
  obtain ⟨t, ht, hsample⟩ := exists_of_any_toOption hsample
  obtain ⟨other, hother, hsample⟩ := exists_of_any_toOption hsample
  obtain ⟨t', hgraft, hsample⟩ := exists_of_any_toOption hsample
  simp only [Bool.and_eq_true, decide_eq_true_eq] at hsample
  obtain ⟨⟨⟨⟨hroot, hlinks⟩, htop⟩, hlinks'⟩, hsize⟩ := hsample
  have hagree := linksAgree_of_checkLinks hlinks
  have hagree' := linksAgree_of_checkLinks hlinks'
  obtain ⟨root, top, rename, -, -, hr, -, hp, -, -, hspliced, -, hresult, above, habove, -,
    hpaths⟩ := graft_renumbers
      (fun root h => Option.some_inj.mp (hroot.symm.trans h) ▸ hagree)
      (fun top h => Option.some_inj.mp (htop.symm.trans h) ▸ hagree') hgraft
  obtain rfl : 0 = root := Option.some_inj.mp (hroot.symm.trans hr)
  obtain rfl : 0 = top := Option.some_inj.mp (htop.symm.trans hp)
  obtain ⟨below, hbelow, -, hpath⟩ := hpaths 1 hsize
  exact ⟨t, other, t', rename, above, below, ht, hother, hgraft, hagree, hagree', hspliced,
    hresult, habove, hbelow, hpath⟩

example :
    (Sample.tree.toOption.bind fun t => Sample.regressionTree.toOption.bind fun other =>
      (t.graft other false 5).toOption.bind fun t' => (t'.arena.decisionPath 8).toOption) =
      some "phone!=a - pos==n - dur<0.1 - dur<0.1" := by
  decide +kernel

end Cart

end FeatureTree
