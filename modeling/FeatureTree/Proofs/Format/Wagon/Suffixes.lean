/-
The brackets of written lines.

A decision line leaves a bracket open, which the line of its last child closes along with
those that are handed down to it.  A decision without child slots has no such line, so its
bracket and those handed down to it are never closed.

* `Wagon.runLength_record` — the brackets at the end of a record;
* `Outline.change`, `Wagon.openAfter` — the open decisions after some lines;
* `Wagon.Slotted` — no decision is without child slots;
* `Wagon.Tally` — what lines come to that close some decisions, with `Tally.append` and
  `Tally.branch` for how it is put together;
* `Wagon.toText_closes_iff` — which trees are written with balanced brackets.
-/
import FeatureTree.Proofs.Format.Wagon.LineOrder
import FeatureTree.Sample

namespace FeatureTree

open Text

/-! ### Records -/

namespace Wagon

variable {s : Schema} {n m : Nat}

/-- Payloads that have a record are those of some kind of tree. -/
theorem exists_kind_of_leafText {p : Payload} {written : String}
    (h : leafText p = .ok written) : ∃ kind : WagonKind, p.kind = kind.leafKind := by
  cases p with
  | indices data => exact ⟨.classification, rfl⟩
  | gaussian g => exact ⟨.regression, rfl⟩
  | weightedIndices w => exact ⟨.extendedClassification, rfl⟩
  | weightedSymbols s => exact ⟨.stringCart, rfl⟩
  | featureVectors vectors => exact ⟨.topLevel, rfl⟩
  | pdf p => cases h

/-- A record ends in two brackets of its own. -/
theorem runLength_record {p : Payload} {written : String} (h : leafText p = .ok written) (n : Nat) :
    runLength ')' (written ++ closing n).toList = n + 2 := by
  obtain ⟨kind, hkind⟩ := exists_kind_of_leafText h
  obtain ⟨front, w, hlast, hw⟩ := exists_last_token (n := n) hkind
  have hplain : ∀ {c}, c ∈ w → c ≠ ')' := fun hc => (hw.plain _ hc).2.1
  rw [toList_leafText h, hlast]
  by_cases hne : front = []
  · rw [hne, List.nil_append, List.intercalate_singleton]
    exact runLength_append_replicate _ fun hc => hplain (List.mem_of_getLast? hc) rfl
  · rw [intercalate_concat hne]
    -- before the brackets stands the last token, or the blank in front of it
    have hend : ([' '].intercalate front ++ ' ' :: w).getLast? ≠ some ')' := by
      rw [List.getLast?_append_of_ne_nil _ (by simp)]
      intro hc
      rcases List.mem_cons.mp (List.mem_of_getLast? hc) with hc | hc
      · exact absurd hc (by decide)
      · exact hplain hc rfl
    have hrun := runLength_append_replicate (n + 2) hend
    rwa [List.append_assoc] at hrun

end Wagon

/-! ### Open decisions -/

/-- By how much the line of a part of an outline changes the number of open decisions.  A
decision is opened, and a record closes one for every bracket after its own two. -/
def Outline.change (x : Outline) (line : String) : Int :=
  match x with
  | branch _ _ _ => 1
  | _ => 2 - runLength ')' line.toList

namespace Wagon

variable {s : Schema} {n m : Nat} {xs ys : List Outline} {ls ls' : List String} {k : Int}

/-- Number of decisions that are open after these lines. -/
def openAfter (lines : List (Outline × String)) : Int := (lines.map fun p => p.1.change p.2).sum

/-- After every line but the last at least one decision is open, and none after the last. -/
def Closes (lines : List (Outline × String)) : Prop :=
  (∀ p, p <+: lines → p ≠ [] → p ≠ lines → 1 ≤ openAfter p) ∧ openAfter lines = 0

/-- No decision is without child slots. -/
def Slotted (xs : List Outline) : Prop := ∀ feature test, .branch feature test [] ∉ xs

@[simp] theorem openAfter_nil : openAfter [] = 0 := rfl

@[simp] theorem openAfter_cons (p : Outline × String) (lines : List (Outline × String)) :
    openAfter (p :: lines) = p.1.change p.2 + openAfter lines := by
  rw [openAfter, List.map_cons, List.sum_cons, openAfter]

@[simp] theorem openAfter_append (lines lines' : List (Outline × String)) :
    openAfter (lines ++ lines') = openAfter lines + openAfter lines' := by
  rw [openAfter, List.map_append, List.sum_append, openAfter, openAfter]

theorem slotted_append_iff : Slotted (xs ++ ys) ↔ Slotted xs ∧ Slotted ys := by
  simp only [Slotted, List.mem_append, not_or, forall_and]

/-- Lines of some parts that close `n` decisions more than they open, unless a decision has
no child slots.  Before the last one the number of open decisions does not come below `k`. -/
structure Tally (xs : List Outline) (ls : List String) (k : Int) (n : Nat) : Prop where
  length : xs.length = ls.length
  total : Slotted xs → openAfter (xs.zip ls) = -n
  floor : Slotted xs → ∀ p, p <+: xs.zip ls → p ≠ [] → p ≠ xs.zip ls → k ≤ openAfter p
  excess : ¬ Slotted xs → -n < openAfter (xs.zip ls)

theorem Tally.neg_le (h : Tally xs ls k n) : -n ≤ openAfter (xs.zip ls) := by
  by_cases hslots : Slotted xs
  · exact (h.total hslots).ge
  · exact (h.excess hslots).le

theorem Tally.weaken (h : Tally xs ls 1 n) : Tally xs ls 0 n where
  length := h.length
  total := h.total
  floor := fun hslots p hp hne hproper => by
    have := h.floor hslots p hp hne hproper
    omega
  excess := h.excess

/-- A record closes decisions. -/
theorem Tally.record {x : Outline} {l : String}
    (hx : ∀ feature test children, x ≠ .branch feature test children)
    (hl : runLength ')' l.toList = n + 2) : Tally [x] [l] 1 n := by
  have hchange : x.change l = -n := by
    rw [Outline.change.eq_def]
    split
    · exact absurd rfl (hx _ _ _)
    · rw [hl]
      omega
  refine ⟨rfl, fun _ => ?_, fun _ p hp hne hproper => ?_, fun h => absurd ?_ h⟩
  · rw [List.zip_cons_cons, List.zip_nil_left, openAfter_cons, hchange, openAfter_nil]
    exact Int.add_zero _
  · obtain rfl | ⟨q, rfl, hq⟩ := List.prefix_cons_iff.mp hp
    · exact absurd rfl hne
    · rw [List.prefix_nil.mp hq] at hproper
      exact absurd rfl hproper
  · intro feature test hmem
    exact hx _ _ _ (List.mem_singleton.mp hmem).symm

/-- A decision without child slots stays open, whatever it was to close. -/
theorem Tally.branch_nil {feature : Nat} {test : DecisionTest} {l : String} :
    Tally [.branch feature test []] [l] 1 n := by
  have hslots : ¬ Slotted [.branch feature test []] := fun h =>
    h feature test (List.mem_singleton_self _)
  refine ⟨rfl, fun h => absurd h hslots, fun h => absurd h hslots, fun _ => ?_⟩
  show -(n : Int) < 1 + 0
  omega

/-- A decision is closed along with what its last child closes. -/
theorem Tally.branch {feature : Nat} {test : DecisionTest} {children : List Outline} {l : String}
    (hne : children ≠ []) (h : Tally xs ls 0 (n + 1)) :
    Tally (.branch feature test children :: xs) (l :: ls) 1 n := by
  have hslots : Slotted (.branch feature test children :: xs) ↔ Slotted xs := by
    refine ⟨fun h f t hmem => h f t (List.mem_cons_of_mem _ hmem), fun h f t hmem => ?_⟩
    rcases List.mem_cons.mp hmem with heq | hmem
    · exact hne (Outline.branch.inj heq).2.2.symm
    · exact h f t hmem
  have hzip : openAfter ((Outline.branch feature test children :: xs).zip (l :: ls)) =
      1 + openAfter (xs.zip ls) := by
    rw [List.zip_cons_cons, openAfter_cons]
    rfl
  refine ⟨congrArg (· + 1) h.length, fun hall => ?_, fun hall p hp hpne hproper => ?_,
    fun hall => ?_⟩
  · rw [hzip, h.total (hslots.mp hall)]
    omega
  · obtain rfl | ⟨q, rfl, hq⟩ := List.prefix_cons_iff.mp hp
    · exact absurd rfl hpne
    · have hq₀ : 0 ≤ openAfter q := by
        by_cases hqne : q = []
        · rw [hqne, openAfter_nil]
        · exact h.floor (hslots.mp hall) q hq hqne fun heq => hproper (by rw [heq]; rfl)
      rw [openAfter_cons]
      show 1 ≤ 1 + openAfter q
      omega
  · have := h.excess fun hxs => hall (hslots.mpr hxs)
    rw [hzip]
    omega

/-- The lines of a child that is not the last one close no more than they open. -/
theorem Tally.append (h : Tally xs ls 1 0) (h' : Tally ys ls' 0 n) :
    Tally (xs ++ ys) (ls ++ ls') 0 n := by
  have hzip : (xs ++ ys).zip (ls ++ ls') = xs.zip ls ++ ys.zip ls' := List.zip_append h.length
  refine ⟨?_, fun hall => ?_, fun hall p hp hne hproper => ?_, fun hall => ?_⟩
  · rw [List.length_append, List.length_append, h.length, h'.length]
  · obtain ⟨hxs, hys⟩ := slotted_append_iff.mp hall
    rw [hzip, openAfter_append, h.total hxs, h'.total hys]
    omega
  · obtain ⟨hxs, hys⟩ := slotted_append_iff.mp hall
    have hzero := h.total hxs
    rw [hzip] at hp hproper
    rcases List.prefix_or_prefix_of_prefix hp (List.prefix_append (xs.zip ls) (ys.zip ls'))
      with hfirst | ⟨q, rfl⟩
    · by_cases heq : p = xs.zip ls
      · rw [heq]
        omega
      · have := h.floor hxs p hfirst hne heq
        omega
    · have hq := (List.prefix_append_right_inj _).mp hp
      have hq₀ : 0 ≤ openAfter q := by
        by_cases hqne : q = []
        · rw [hqne, openAfter_nil]
        · exact h'.floor hys q hq hqne fun heq => hproper (by rw [heq])
      rw [openAfter_append]
      omega
  · rw [hzip, openAfter_append]
    have hle := h.neg_le
    have hle' := h'.neg_le
    by_cases hxs : Slotted xs
    · have := h'.excess fun hys => hall (slotted_append_iff.mpr ⟨hxs, hys⟩)
      omega
    · have := h.excess hxs
      omega

/-- The lines of an outline, which close `n` decisions beyond its own. -/
theorem tally_lines {x : Outline} (h : x.lines s n = .ok ls) : Tally x.preorder ls 1 n := by
  refine lines_induct (fun x n ls => Tally x.preorder ls 1 n)
    (fun xs n ls => xs = [] ∧ ls = [] ∨
      xs ≠ [] ∧ Tally (xs.flatMap Outline.preorder) ls 0 (n + 1))
    (fun n => ?_) (fun p written n hwritten => ?_) (fun feature test children n ls hls => ?_)
    (fun n => .inl ⟨rfl, rfl⟩) (fun x n ls hls => .inr ⟨by simp, ?_⟩)
    (fun x y rest n ls ls' hls hls' => .inr ⟨by simp, ?_⟩) h
  · rw [Outline.preorder]
    exact .record (by simp) (runLength_record (p := .indices []) rfl n)
  · rw [Outline.preorder]
    exact .record (by simp) (runLength_record hwritten n)
  · rw [Outline.preorder]
    obtain ⟨rfl, rfl⟩ | ⟨hne, hls⟩ := hls
    · exact .branch_nil
    · exact .branch hne hls
  · rw [List.flatMap_singleton]
    exact hls.weaken
  · obtain ⟨hnil, -⟩ | ⟨-, hls'⟩ := hls'
    · simp at hnil
    · rw [List.flatMap_cons]
      exact hls.append hls'

/-- The brackets of the lines of an outline balance just if no decision is without child
slots. -/
theorem closes_lines_iff {x : Outline} (h : x.lines s 0 = .ok ls) :
    Closes (x.preorder.zip ls) ↔ Slotted x.preorder := by
  have htally := tally_lines h
  constructor
  · rintro ⟨-, hzero⟩
    by_contra hslots
    have := htally.excess hslots
    omega
  · intro hslots
    exact ⟨htally.floor hslots, htally.total hslots⟩

theorem slotted_outline_iff (t : Cart) :
    Slotted t.arena.outline.preorder ↔
      ∀ u d, t.arena.content? u = some (.decision d) → d.children ≠ #[] := by
  constructor
  · intro hslots u d hd hnone
    obtain ⟨children, hlength, hmem⟩ := t.exists_branch_mem hd
    rw [hnone, Array.size_empty, List.length_eq_zero_iff] at hlength
    exact hslots d.feature d.test (hlength ▸ hmem)
  · intro hall feature test hmem
    obtain ⟨u, d, hd, -, -, hsize⟩ := Arena.exists_decision_of_mem hmem
    exact hall u d hd (Array.eq_empty_of_size_eq_zero hsize)

/-- The lines that are written for a tree are those of its nodes and empty slots, each
before those below it.  After every line but the last at least one decision is open, and none
after the last, just if every decision of the tree has a child slot. -/
theorem toText_closes_iff (t : Cart) {kind : Option WagonKind} {text : String}
    (hne : t.isEmpty = false) (htext : toText t kind = .ok text) :
    ∃ ls, lines t kind = .ok ls ∧ text = String.join (ls.map (· ++ "\n")) ∧
      List.Forall₂ (IsLineOf t.arena.schema) t.arena.outline.preorder ls ∧
      (Closes (t.arena.outline.preorder.zip ls) ↔
        ∀ u d, t.arena.content? u = some (.decision d) → d.children ≠ #[]) := by
  obtain ⟨ls, hls, htext⟩ := bind_eq_ok_iff.mp htext
  obtain ⟨root, hroot⟩ : ∃ root, t.arena.root = some root := by
    rwa [Cart.isEmpty, Option.isNone_eq_false_iff, Option.isSome_iff_exists] at hne
  have houtline := lines_outline hroot hls
  refine ⟨ls, hls, (Except.ok.inj htext).symm, forall₂_lines houtline, ?_⟩
  rw [closes_lines_iff houtline, slotted_outline_iff]

/-- In the sample tree every decision has child slots; its last line closes two of the
three decisions. -/
theorem toText_closes_iff_sample :
    ∃ t text ls, Sample.tree = .ok t ∧ t.isEmpty = false ∧
      toText t (some .classification) = .ok text ∧ lines t (some .classification) = .ok ls ∧
      ls = ["((phone is a)", "((((1 0) (2 0) (3 0)) 0))", "((pos isShortOf 4)",
        "((((4 0)) 0))", "((dur < 0.1)", "((((5 0)) 0))", "((((6 0) (7 0)) 0)))", "((() 0))",
        "((() 0))))"] ∧
      Closes (t.arena.outline.preorder.zip ls) := by
  have hsample : (Sample.tree.toOption.any fun t =>
      !t.isEmpty && (toText t (some .classification)).toOption.isSome &&
        (lines t (some .classification)).toOption ==
          some ["((phone is a)", "((((1 0) (2 0) (3 0)) 0))", "((pos isShortOf 4)",
            "((((4 0)) 0))", "((dur < 0.1)", "((((5 0)) 0))", "((((6 0) (7 0)) 0)))",
            "((() 0))", "((() 0))))"] &&
        t.arena.nodes.all fun n => n.decision?.all (·.children != #[])) = true := by
    decide +kernel
  cases ht : Sample.tree with
  | error e => simp [ht, Except.toOption] at hsample
  | ok t =>
    simp only [ht, Except.toOption, Option.any_some, Bool.and_eq_true, Bool.not_eq_true',
      beq_iff_eq, Array.all_eq_true_iff_forall_mem] at hsample
    obtain ⟨⟨⟨hne, htext⟩, hlines⟩, hall⟩ := hsample
    have hslots : ∀ u d, t.arena.content? u = some (.decision d) → d.children ≠ #[] := by
      intro u d hd
      obtain ⟨n, hn, hnd⟩ := Arena.content?_eq_some_iff.mp hd
      obtain ⟨hu, rfl⟩ := Arena.node?_eq_some_iff.mp hn
      simpa [Node.decision?, hnd] using hall _ (Array.getElem_mem hu)
    cases hwritten : toText t (some .classification) with
    | error e => simp [hwritten] at htext
    | ok text =>
      obtain ⟨ls, hls, -, -, hcloses⟩ := toText_closes_iff t hne hwritten
      rw [hls] at hlines
      exact ⟨t, text, ls, rfl, hne, hwritten, hls, Option.some_inj.mp hlines,
        hcloses.mpr hslots⟩

end Wagon

/-- A tree whose only decision tests a feature without values, and so has no child slots. -/
def Sample.valuelessTree : Except GraphError Cart :=
  let schema : Schema := .ofArranged #[.byte "phone" #[]] (by decide) (by decide)
  Cart.ofBuilder? (((Builder.empty schema).addDecision (.byteOf 0 0)).1.setRoot 0)

namespace Wagon

/-- Its only line opens a decision that no line closes, so the text cannot be read. -/
theorem not_closes_valuelessTree :
    ∃ t ls, Sample.valuelessTree = .ok t ∧ t.isEmpty = false ∧
      toText t none = .ok "((phone isByteOf 0)\n" ∧ lines t none = .ok ls ∧
      ls = ["((phone isByteOf 0)"] ∧ ¬ Closes (t.arena.outline.preorder.zip ls) ∧
      ofText t.arena.schema {} (Utf8.encode "((phone isByteOf 0)\n") =
        .error (.bracketMismatch 1 (.unclosedAtEnd 1)) := by
  have hsample : (Sample.valuelessTree.toOption.any fun t =>
      !t.isEmpty && (toText t none).toOption == some "((phone isByteOf 0)\n" &&
        (lines t none).toOption == some ["((phone isByteOf 0)"] &&
        t.arena.content? 0 == some (.decision (.byteOf 0 0)) &&
        match ofText t.arena.schema {} (Utf8.encode "((phone isByteOf 0)\n") with
        | .error e => e == .bracketMismatch 1 (.unclosedAtEnd 1)
        | .ok _ => false) = true := by
    decide +kernel
  cases ht : Sample.valuelessTree with
  | error e => simp [ht, Except.toOption] at hsample
  | ok t =>
    simp only [ht, Except.toOption, Option.any_some, Bool.and_eq_true, Bool.not_eq_true',
      beq_iff_eq] at hsample
    obtain ⟨⟨⟨⟨hne, htext⟩, hlines⟩, hroot⟩, herror⟩ := hsample
    cases hwritten : toText t none with
    | error e => simp [hwritten] at htext
    | ok text =>
      cases hls : lines t none with
      | error e => simp [hls] at hlines
      | ok ls =>
        cases hread : ofText t.arena.schema {} (Utf8.encode "((phone isByteOf 0)\n") with
        | ok t' => simp [hread] at herror
        | error e =>
          simp only [hwritten, hls, hread, Option.some_inj, beq_iff_eq] at htext hlines herror
          subst htext hlines herror
          refine ⟨t, _, rfl, hne, hwritten, hls, rfl, fun hcloses => ?_, hread⟩
          obtain ⟨n, hn, -⟩ := Arena.content?_eq_some_iff.mp hroot
          obtain ⟨root, hfirst⟩ := t.exists_root hn
          have hslots := (closes_lines_iff (lines_outline hfirst hls)).mp hcloses
          exact (slotted_outline_iff t).mp hslots 0 _ hroot rfl

end Wagon

end FeatureTree
