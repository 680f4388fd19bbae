/-
Brackets of an accepted text.

A decision line opens one decision and a leaf line closes as many as it has
brackets after its own; the running total is the number of open decisions.  The
reader stops counting at zero and stays at the root once that is closed, so the
total is under control only up to the line that closes the root.

* `Wagon.Balanced` — the total is positive before the last line and zero after it;
* `Wagon.Assembly.Open` — the state after lines that have not closed the root;
* `Wagon.Assembly.Open.reads` — the total along such lines;
* `Wagon.balanced_iff_closedLast` — which accepted texts are balanced and fill all
  slots.
-/
import FeatureTree.Proofs.Format.Wagon.Assembly
import FeatureTree.Proofs.Tree.TreeShape
import FeatureTree.Sample

namespace FeatureTree

open Text

namespace Wagon

open Assembly

/-! ### Balanced lines -/

/-- By how much a node line changes the number of open decisions. -/
def lineBalance (cs : List Char) : Int :=
  match startsWith? ['(', '('] cs with
  | some body => if isDecision body then 1 else 2 - runLength ')' cs
  | none => 0

/-- The change over several lines. -/
def balance (ls : List (List Char)) : Int := (ls.map lineBalance).sum

/-- The total is at least one after every line but the last, and zero after that. -/
def Balanced (ls : List (List Char)) : Prop :=
  (∀ p, p <+: ls → p ≠ [] → p ≠ ls → 1 ≤ balance p) ∧ balance ls = 0

/-- The total does not come to zero before the last line. -/
def ClosedLast (ls : List (List Char)) : Prop :=
  ∀ p, p <+: ls → p ≠ [] → p ≠ ls → balance p ≠ 0

@[simp] theorem balance_nil : balance [] = 0 := rfl

@[simp] theorem balance_cons (l : List Char) (ls : List (List Char)) :
    balance (l :: ls) = lineBalance l + balance ls := by
  rw [balance, List.map_cons, List.sum_cons, balance]

theorem Balanced.closedLast {ls : List (List Char)} (h : Balanced ls) : ClosedLast ls := by
  intro p hp hne hproper hzero
  have := h.1 p hp hne hproper
  omega

namespace Assembly

variable {a a₁ a' : Assembly} {line k n : Nat} {x : Option NodeContent} {text : String}
  {ls : List (List Char)}

/-! ### How many slots were filled -/

/-- After this many lines all nodes but the root, and all empty slots, fill a slot
of a decision. -/
structure Counted (a : Assembly) (n : Nat) : Prop where
  inOrder : a.builder.InOrder
  first : a.hasRoot = false →
    n = 0 ∧ a.cursor = none ∧ a.openBrackets = 0 ∧ a.builder.root = none ∧
      a.builder.filledCount = 0
  counted : a.hasRoot = true → a.builder.filledCount + 1 = n

theorem Counted.of_same (h : a.Counted n) (hroot : a.hasRoot = true)
    (hbuilder : a'.builder = a.builder) (hroot' : a'.hasRoot = a.hasRoot) : a'.Counted n := by
  refine ⟨hbuilder ▸ h.inOrder, ?_, ?_⟩
  · intro hfalse
    rw [hroot', hroot] at hfalse
    simp at hfalse
  · intro _
    rw [hbuilder]
    exact h.counted hroot

theorem Counted.put (h : a.Counted n) (hput : a.put line x = .ok a') :
    a'.Counted (n + 1) ∧ a'.hasRoot = true := by
  have hgrown := h.inOrder.grown (x := x)
  have hcount := Builder.filledCount_grown h.inOrder (x := x)
  -- the first line makes the root and fills no slot, any other fills one
  cases hcursor : a.cursor with
  | some p =>
    have hroot : a.hasRoot = true := by
      by_contra hne
      obtain ⟨-, hnone, -⟩ := h.first (by simpa using hne)
      rw [hcursor] at hnone
      simp at hnone
    obtain ⟨d, hd, hfree, rfl⟩ := (put_below_eq_ok_iff hcursor).mp hput
    rw [← Builder.filledSlots_grown (x := x)] at hfree
    refine ⟨⟨hgrown.push hd hfree, ?_, ?_⟩, hroot⟩
    · intro hfalse
      have hfalse : a.hasRoot = false := hfalse
      rw [hroot] at hfalse
      simp at hfalse
    · intro _
      show ((a.builder.grown x).push p d _).filledCount + 1 = n + 1
      rw [Builder.filledCount_push hgrown (Arena.lt_size_of_content? hd), hcount, h.counted hroot]
  | none =>
    obtain ⟨hroot, rfl⟩ := (put_first_eq_ok_iff hcursor).mp hput
    obtain ⟨rfl, -, -, -, hzero⟩ := h.first hroot
    refine ⟨⟨?_, by simp, ?_⟩, rfl⟩
    · cases x with
      | none => exact h.inOrder
      | some x => exact hgrown.setRoot
    · intro _
      cases x with
      | none => rw [← hzero]; rfl
      | some x =>
        show ((a.builder.grown (some x)).setRoot _).filledCount + 1 = _
        have hkeep : ((a.builder.grown (some x)).setRoot a.builder.size).filledCount =
            (a.builder.grown (some x)).filledCount := by
          rw [Builder.filledCount, Builder.size_setRoot]
          rfl
        exact (congrArg (· + 1) (hkeep.trans (hcount.trans hzero)))

theorem Counted.addLine (h : a.Counted n) (hline : a.addLine line text = .ok a') :
    a'.Counted (n + 1) ∧ a'.hasRoot = true := by
  have h₀ : { a with lastLine := line }.Counted n := ⟨h.inOrder, h.first, h.counted⟩
  obtain ⟨body, -, ⟨-, d, a₁, -, hput, rfl⟩ | ⟨-, x, a₁, -, hput, hclose⟩⟩ :=
    addLine_cases rfl hline
  · obtain ⟨hcounted, hroot⟩ := h₀.put hput
    exact ⟨hcounted.of_same hroot rfl rfl, hroot⟩
  · obtain ⟨hcounted, hroot⟩ := h₀.put hput
    rw [closeAfterLeaf] at hclose
    split at hclose
    · obtain ⟨-, hbuilder, hroot', -⟩ := close_keeps hclose
      exact ⟨hcounted.of_same hroot hbuilder hroot', hroot'.trans hroot⟩
    · simp at hclose

theorem Counted.reads (hreads : Reads a ls a') (h : a.Counted n) : a'.Counted (n + ls.length) := by
  induction hreads generalizing n with
  | nil a => exact h
  | cons hline _ ih =>
    have := ih (h.addLine hline).1
    rwa [Nat.add_assoc, Nat.add_comm 1] at this

/-! ### Lines before the root is closed -/

/-- As many decisions are open as the open brackets count. -/
def Open (a : Assembly) (k : Nat) : Prop := ∃ path, a.OpenAt path ∧ path.length = k

/-- The decisions that a leaf line closes are its balance. -/
theorem exists_extra {cs body : List Char} (hcs : trimBy isBlank text.toList = cs)
    (hbody : startsWith? ['(', '('] cs = some body) (hleaf : isDecision body = false)
    (hclose : a.closeAfterLeaf line cs = .ok a') :
    ∃ extra, close line a extra = .ok a' ∧ lineBalance cs = -(extra.length : Int) := by
  have hne : cs ≠ [] := by
    rintro rfl
    simp [startsWith?] at hbody
  have hlast : ∀ c, cs.getLast? = some c → isBlank c = false := by
    rw [← hcs]
    exact fun c hc => getLast?_trimBy hc
  obtain ⟨extra, hextra, hrun⟩ := closeAfterLeaf_cases hne hlast hclose
  refine ⟨extra, hextra, ?_⟩
  rw [lineBalance, hbody]
  show (if isDecision body = true then 1 else _) = _
  rw [if_neg (by simp [hleaf]), hrun]
  omega

/-- A line among open decisions changes their number by its balance, and the root is
closed when that comes to zero. -/
theorem Open.addLine (ho : a.Open k) (h : a.addLine line text = .ok a') :
    (0 < k + lineBalance (trimBy isBlank text.toList) ∧
      a'.Open (k + lineBalance (trimBy isBlank text.toList)).toNat) ∨
    (k + lineBalance (trimBy isBlank text.toList) = 0 ∧ a'.openBrackets = 0) := by
  obtain ⟨path, ⟨hcursor, hpath, hbrackets⟩, rfl⟩ := ho
  have ho₀ : { a with lastLine := line }.OpenAt path := ⟨hcursor, hpath, hbrackets⟩
  obtain ⟨body, hbody, ⟨hdec, d, a₁, -, hput, rfl⟩ | ⟨hleaf, x, a₁, -, hput, hclose⟩⟩ :=
    addLine_cases rfl h
  · obtain ⟨hopen, hnew⟩ := ho₀.put hput
    have hbal : lineBalance (trimBy isBlank text.toList) = 1 := by
      rw [lineBalance, hbody]
      exact if_pos hdec
    rw [hbal]
    left
    refine ⟨by omega, a.builder.size :: path, ⟨rfl, hnew rfl, ?_⟩, ?_⟩
    · show a₁.openBrackets + 1 = path.length + 1
      rw [hopen.brackets]
    · rw [List.length_cons]
      omega
  · obtain ⟨extra, hextra, hbal⟩ := exists_extra rfl hbody hleaf hclose
    have hopen := (ho₀.put hput).1
    obtain ⟨-, hle, rfl⟩ := hopen.close_eq_ok_iff.mp hextra
    rw [hbal]
    rcases Nat.lt_or_eq_of_le hle with hlt | heq
    · left
      refine ⟨by omega, path.drop extra.length, hopen.closed hlt, ?_⟩
      rw [List.length_drop]
      omega
    · right
      rw [heq]
      exact ⟨by omega, hopen.openBrackets_closed⟩

/-- The total along lines that close the root with the last one at most. -/
theorem Open.reads (hreads : Reads a ls a') (ho : a.Open k)
    (hne : ∀ p, p <+: ls → p ≠ [] → p ≠ ls → k + balance p ≠ 0) :
    (0 < k + balance ls ∧ a'.Open (k + balance ls).toNat) ∨
      (k + balance ls = 0 ∧ a'.openBrackets = 0) := by
  induction hreads generalizing k with
  | nil a =>
    obtain ⟨path, hopen, rfl⟩ := ho
    have hpos := List.length_pos_of_ne_nil hopen.isPath.ne_nil
    left
    simp only [balance_nil, Int.add_zero, Int.toNat_natCast]
    exact ⟨by omega, path, hopen, rfl⟩
  | @cons a a₁ a' line text rest hline hrest ih =>
    rw [balance_cons]
    rcases ho.addLine hline with ⟨hpos, hopen⟩ | ⟨hzero, hclosed⟩
    · have := ih hopen fun p hp hpne hproper => by
        have := hne (trimBy isBlank text.toList :: p)
          (List.cons_prefix_cons.mpr ⟨rfl, hp⟩) (by simp) (by simpa using hproper)
        rw [balance_cons] at this
        omega
      rwa [Int.toNat_of_nonneg (by omega), Int.add_assoc] at this
    · cases rest with
      | nil =>
        cases hrest
        right
        exact ⟨by rw [balance_nil]; omega, hclosed⟩
      | cons l rest =>
        -- the root was closed before the last line
        exfalso
        refine hne [trimBy isBlank text.toList] ⟨l :: rest, rfl⟩ (by simp) (by simp) ?_
        rw [balance_cons, balance_nil]
        omega

/-- The first line opens the root, or is the whole tree. -/
theorem Counted.addLine_first (h : a.Counted 0) (hline : a.addLine line text = .ok a') :
    (lineBalance (trimBy isBlank text.toList) = 1 ∧ a'.Open 1) ∨
      (lineBalance (trimBy isBlank text.toList) = 0 ∧ a'.openBrackets = 0 ∧ a'.cursor = none ∧
        a'.hasRoot = true) := by
  have hfresh : a.hasRoot = false := by
    by_contra hne
    have := h.counted (by simpa using hne)
    omega
  obtain ⟨-, hcursor, hopen, hroot, -⟩ := h.first hfresh
  have hcursor₀ : { a with lastLine := line }.cursor = none := hcursor
  obtain ⟨body, hbody, ⟨hdec, d, a₁, -, hput, rfl⟩ | ⟨hleaf, x, a₁, -, hput, hclose⟩⟩ :=
    addLine_cases rfl hline
  · obtain ⟨-, rfl⟩ := (put_first_eq_ok_iff hcursor₀).mp hput
    left
    refine ⟨?_, [a.builder.size], ⟨rfl, .root (m := none) ?_, ?_⟩, rfl⟩
    · rw [lineBalance, hbody]
      exact if_pos hdec
    · show ((a.builder.grown _).setRoot a.builder.size).parentLink? a.builder.size = _
      have hroot' : (a.builder.grown (some (.decision d))).root = none := hroot
      rw [Builder.parentLink?_setRoot _ hroot', if_pos rfl]
      rw [Builder.grown, Builder.size_add]
      exact Nat.lt_succ_self _
    · show a.openBrackets + 1 = 1
      omega
  · obtain ⟨extra, hextra, hbal⟩ := exists_extra rfl hbody hleaf hclose
    obtain ⟨-, rfl⟩ := (put_first_eq_ok_iff hcursor₀).mp hput
    obtain ⟨-, -, -, hsame, hnil⟩ := close_keeps hextra
    obtain rfl := hsame hcursor
    have hextra : extra = [] := (hnil hcursor).resolve_right fun hne => hne hcursor
    right
    refine ⟨?_, hopen, hcursor, rfl⟩
    rw [hbal, hextra]
    rfl

/-- From the first line on, the total is the number of open decisions as long as
the root is closed with the last line at most. -/
theorem Counted.reads_closedLast (h : a.Counted 0) (hreads : Reads a ls a') (hne : ls ≠ [])
    (hlast : ClosedLast ls) :
    (0 < balance ls ∧ a'.Open (balance ls).toNat) ∨ (balance ls = 0 ∧ a'.openBrackets = 0) := by
  cases hreads with
  | nil => exact absurd rfl hne
  | @cons _ a₁ _ line text rest hline hrest =>
    rw [balance_cons]
    rcases h.addLine_first hline with ⟨hone, hopen⟩ | ⟨hzero, hclosed, hcursor, hroot⟩
    · rw [hone]
      refine Open.reads hrest hopen fun p hp hpne hproper => ?_
      have := hlast (trimBy isBlank text.toList :: p)
        (List.cons_prefix_cons.mpr ⟨rfl, hp⟩) (by simp) (by simpa using hproper)
      rwa [balance_cons, hone] at this
    · cases hrest with
      | nil =>
        right
        exact ⟨by rw [hzero, balance_nil]; rfl, hclosed⟩
      | @cons _ a₂ _ line' text' rest hline' hrest =>
        -- after a root that is a leaf no node can be put
        exfalso
        have hput : ∀ x a₃, { a₁ with lastLine := line' }.put line' x ≠ .ok a₃ := by
          intro x a₃ hput
          have hcursor' : { a₁ with lastLine := line' }.cursor = none := hcursor
          obtain ⟨hfalse, -⟩ := (put_first_eq_ok_iff hcursor').mp hput
          have hfalse : a₁.hasRoot = false := hfalse
          rw [hroot] at hfalse
          simp at hfalse
        obtain ⟨-, -, ⟨-, d, a₃, -, hput', -⟩ | ⟨-, x, a₃, -, hput', -⟩⟩ :=
          addLine_cases rfl hline'
        · exact hput _ _ hput'
        · exact hput _ _ hput'

theorem counted_start {s : Schema} {o : Options} (h : start s o = .ok a) : a.Counted 0 := by
  obtain ⟨symbolFeature, -, rfl⟩ := start_eq_ok_iff.mp h
  exact ⟨.empty s, fun _ => ⟨rfl, rfl, rfl, rfl, rfl⟩, by simp⟩

end Assembly

/-! ### Accepted texts -/

variable {s : Schema} {o : Options} {bytes : List UInt8} {t : Cart} {a : Assembly}

/-- If the root is closed with the last line at most, an accepted text is balanced. -/
theorem balanced_of_closedLast (hrun : assembled s o bytes = .ok a) (hopen : a.openBrackets = 0)
    (hlast : ClosedLast (nodeLines bytes)) : Balanced (nodeLines bytes) := by
  obtain ⟨a₀, hstart, hreads⟩ := reads_of_assembled hrun
  have hcounted := Assembly.counted_start hstart
  by_cases hne : nodeLines bytes = []
  · rw [hne]
    refine ⟨fun p hp hpne _ => absurd (List.prefix_nil.mp hp) hpne, rfl⟩
  · constructor
    · intro p hp hpne hproper
      obtain ⟨q, hq⟩ := hp
      obtain ⟨a₁, hfront, -⟩ := (hq ▸ hreads).exists_of_append
      -- the lines up to here do not close the root before their end either
      have hlast' : ClosedLast p := by
        intro r hr hrne hrp
        refine hlast r (hr.trans ⟨q, hq⟩) hrne ?_
        rintro rfl
        refine hrp (hr.eq_of_length_le ?_)
        rw [← hq, List.length_append]
        omega
      have hnz := hlast p ⟨q, hq⟩ hpne hproper
      rcases hcounted.reads_closedLast hfront hpne hlast' with ⟨hpos, -⟩ | ⟨hzero, -⟩
      · omega
      · exact absurd hzero hnz
    · rcases hcounted.reads_closedLast hreads hne hlast with ⟨hpos, path, hpath, hk⟩ | ⟨hzero, -⟩
      · have := hpath.brackets
        omega
      · exact hzero

/-- The builder has as many filled slots as there are lines after the first one. -/
theorem filledCount_of_assembled (hrun : assembled s o bytes = .ok a)
    (hne : nodeLines bytes ≠ []) :
    a.builder.InOrder ∧ a.builder.filledCount + 1 = (nodeLines bytes).length := by
  obtain ⟨a₀, hstart, hreads⟩ := reads_of_assembled hrun
  have hcounted := (Assembly.counted_start hstart).reads hreads
  rw [Nat.zero_add] at hcounted
  refine ⟨hcounted.inOrder, hcounted.counted ?_⟩
  by_contra hroot
  have := (hcounted.first (by simpa using hroot)).1
  exact hne (List.length_eq_zero_iff.mp this)

/-- The nodes of the tree are those that the lines have built. -/
theorem content?_of_finish (h : a.finish = .ok t) (u : NodeId) :
    t.arena.content? u = a.builder.content? u := by
  obtain ⟨count, harena⟩ := Cart.arena_of_ofBuilder? (Assembly.finish_eq_ok_iff.mp h).2
  rw [harena, Arena.content?_recount]

/-- An accepted text is balanced, with a line for every slot of every decision,
exactly if no line comes after the one that closes the root and there is one line
more than the tree has slots. -/
theorem balanced_iff_closedLast (h : ofText s o bytes = .ok t) :
    ∃ a, assembled s o bytes = .ok a ∧ a.finish = .ok t ∧
      ((Balanced (nodeLines bytes) ∧
          ∀ u d, t.arena.content? u = some (.decision d) →
            a.builder.filledSlots u = d.children.size) ↔
        (ClosedLast (nodeLines bytes) ∧
          (nodeLines bytes = [] ∨ (nodeLines bytes).length = t.arena.slotCount + 1))) := by
  obtain ⟨a, hrun, hfinish⟩ := ofText_eq_ok_iff.mp h
  have hcontent := content?_of_finish hfinish
  have hslots : t.arena.slotCount = a.builder.slotCount := Arena.slotCount_eq_of_content hcontent
  refine ⟨a, hrun, hfinish, ?_, ?_⟩
  · rintro ⟨hbalanced, hfilled⟩
    refine ⟨hbalanced.closedLast, ?_⟩
    by_cases hne : nodeLines bytes = []
    · exact .inl hne
    · obtain ⟨horder, hcount⟩ := filledCount_of_assembled hrun hne
      right
      rw [← hcount, hslots, Builder.filledCount, Arena.slotCount]
      -- slot by slot: the lines fill what the nodes have
      refine congrArg (· + 1) (Finset.sum_congr rfl fun u hu => ?_)
      obtain ⟨x, hx⟩ := Arena.exists_content? (Finset.mem_range.mp hu)
      have hle := horder.filled_le u
      rw [Arena.slotsOf, hx] at hle ⊢
      cases x with
      | decision d =>
        rw [hfilled u d ((hcontent u).trans hx)]
        exact Array.length_toList.symm
      | leaf p => exact Nat.le_zero.mp hle
      | graph g => exact absurd ((hcontent u).trans hx) (t.content?_ne_graph u g)
  · rintro ⟨hlast, hcount⟩
    have hopen := (Assembly.finish_eq_ok_iff.mp hfinish).1
    refine ⟨balanced_of_closedLast hrun hopen hlast, ?_⟩
    intro u d hd
    have hd' := (hcontent u).symm.trans hd
    by_cases hne : nodeLines bytes = []
    · obtain ⟨a₀, hstart, hreads⟩ := reads_of_assembled hrun
      obtain ⟨symbolFeature, -, rfl⟩ := Assembly.start_eq_ok_iff.mp hstart
      rw [hne] at hreads
      cases hreads
      simp at hd'
    · obtain ⟨horder, hlines⟩ := filledCount_of_assembled hrun hne
      -- no node has more filled slots than slots, so equal sums leave none free
      have hfull : a.builder.filledCount = a.builder.slotCount := by
        have := hcount.resolve_left hne
        omega
      rw [horder.filledSlots_eq hfull (Arena.lt_size_of_content? hd'), Arena.slotsOf, hd']
      exact Array.length_toList

/-- Both slots of a decision in two lines after its own. -/
def closedText : List UInt8 :=
  Utf8.encode "((phone is a)\n((((1 0)) 0))\n((((2 0)) 0)))\n"

theorem balanced_closedText :
    ∃ t, ofText Sample.schema {} closedText = .ok t ∧ Balanced (nodeLines closedText) := by
  obtain ⟨t, ht, hslots⟩ : ∃ t, ofText Sample.schema {} closedText = .ok t ∧
      t.arena.slotCount = 2 := by
    have h : (ofText Sample.schema {} closedText).toOption.map (·.arena.slotCount) = some 2 := by
      decide +kernel
    cases ht : ofText Sample.schema {} closedText with
    | error e => simp [ht, Except.toOption] at h
    | ok t => exact ⟨t, rfl, by simpa [ht, Except.toOption] using h⟩
  have hlines : nodeLines closedText =
      ["((phone is a)".toList, "((((1 0)) 0))".toList, "((((2 0)) 0)))".toList] := by
    decide +kernel
  obtain ⟨a, -, -, hiff⟩ := balanced_iff_closedLast ht
  refine ⟨t, ht, (hiff.mpr ⟨?_, .inr (by rw [hlines, hslots]; rfl)⟩).1⟩
  have hall : ∀ p ∈ (nodeLines closedText).inits,
      p ≠ [] → p ≠ nodeLines closedText → balance p ≠ 0 := by
    rw [hlines]
    decide +kernel
  exact fun p hp => hall p ((List.mem_inits p _).mpr hp)

/-- The root is closed by its first child, and gets a second one. -/
def reopenedText : List UInt8 :=
  Utf8.encode "((phone is a)\n((((1 0)) 0)))\n((((2 0)) 0)))\n"

theorem not_balanced_reopenedText :
    ∃ t, ofText Sample.schema {} reopenedText = .ok t ∧ ¬ Balanced (nodeLines reopenedText) := by
  have hok : (ofText Sample.schema {} reopenedText).toOption.isSome = true := by decide +kernel
  have hlines : nodeLines reopenedText =
      ["((phone is a)".toList, "((((1 0)) 0)))".toList, "((((2 0)) 0)))".toList] := by
    decide +kernel
  cases ht : ofText Sample.schema {} reopenedText with
  | error e => simp [ht, Except.toOption] at hok
  | ok t =>
    refine ⟨t, rfl, fun h => ?_⟩
    -- after the second line the total is zero already
    refine h.closedLast ["((phone is a)".toList, "((((1 0)) 0)))".toList] ?_ (by simp) ?_
      (by decide +kernel)
    · rw [hlines]
      exact ⟨["((((2 0)) 0)))".toList], rfl⟩
    · rw [hlines]
      simp

end Wagon

end FeatureTree
