/-
What a line does to the tree read so far.

A line adds a node, or nothing, below the decision that gets the next child, and
then either opens a decision or closes some.

* `Wagon.Assembly.put` — the node of a line put in its place, with
  `put_below_eq_ok_iff` and `put_first_eq_ok_iff` for what that means;
* `Wagon.Assembly.OpenAt` — the path of open decisions, with `OpenAt.put` and
  `OpenAt.close_eq_ok_iff` for what becomes of it;
* `Wagon.Assembly.addLine_cases` — the two kinds of lines;
* `Wagon.Assembly.Reads` — a run over several lines;
* `Wagon.ofText_eq_ok_iff`, `Wagon.reads_of_assembled` — the tree of a text is that at
  the end of such a run.
-/
import FeatureTree.Format.Wagon.Reader
import FeatureTree.Proofs.Stream.Reads
import FeatureTree.Proofs.Text.Words
import FeatureTree.Proofs.Tree.GrownOutline
import FeatureTree.Tree.Cart

namespace FeatureTree

open Text

theorem FormatError.ofGraph_eq_ok_iff {α : Type} {r : Except GraphError α} {x : α} :
    FormatError.ofGraph r = .ok x ↔ r = .ok x :=
  mapError_eq_ok_iff

namespace Wagon

namespace Assembly

variable {a a₁ a' : Assembly} {line n : Nat} {x : Option NodeContent} {p : NodeId}
  {path : List NodeId}

/-! ### A node in its place -/

/-- The node with a content, or an empty slot, put in its place. -/
def put (a : Assembly) (line : Nat) (x : Option NodeContent) : Except FormatError Assembly :=
  { a with builder := a.builder.grown x }.attach line (a.builder.newId? x)

/-- Below a decision the next slot is filled. -/
theorem put_below_eq_ok_iff (h : a.cursor = some p) :
    a.put line x = .ok a' ↔
      ∃ d, (a.builder.grown x).content? p = some (.decision d) ∧
        a.builder.filledSlots p < d.children.size ∧
        a' = { a with builder := a.builder.extend p d x } := by
  rw [put, attach.eq_def]
  simp only [h, bind, Except.bind, pure, Except.pure]
  constructor
  · intro hok
    cases hpush : FormatError.ofGraph
        ((a.builder.grown x).pushChild p (a.builder.newId? x)) with
    | error e => simp [hpush] at hok
    | ok r =>
      obtain ⟨b', slot⟩ := r
      obtain ⟨d, hd, -, hfree, -, rfl⟩ :=
        (Builder.pushChild_eq_ok_iff _).mp (FormatError.ofGraph_eq_ok_iff.mp hpush)
      rw [Builder.filledSlots_grown] at hfree
      simp only [hpush, Except.ok.injEq] at hok
      exact ⟨d, hd, hfree, hok.symm⟩
  · rintro ⟨d, hd, hfree, rfl⟩
    have hpush : (a.builder.grown x).pushChild p (a.builder.newId? x) =
        .ok ((a.builder.grown x).push p d (a.builder.newId? x), a.builder.filledSlots p) := by
      refine (Builder.pushChild_eq_ok_iff _).mpr ⟨d, hd, Builder.newId?_lt_size, ?_, ?_, rfl⟩
      · rwa [Builder.filledSlots_grown]
      · rw [Builder.filledSlots_grown]
    rw [FormatError.ofGraph_eq_ok_iff.mpr hpush, Builder.extend]

/-- Without an open decision the node becomes the root, unless there is one. -/
theorem put_first_eq_ok_iff (h : a.cursor = none) :
    a.put line x = .ok a' ↔
      a.hasRoot = false ∧
        a' = { a with
          hasRoot := true
          builder := (a.builder.newId? x).elim a.builder (a.builder.grown x).setRoot } := by
  rw [put, attach.eq_def]
  simp only [h]
  cases hroot : a.hasRoot <;> cases x <;>
    simp [Builder.newId?, Builder.grown, eq_comm (a := a')]

/-! ### Closing brackets -/

theorem atRoot_eq_true_iff {u : NodeId} :
    a.atRoot u = true ↔ ∃ m, a.builder.parentLink? u = some (m, true) := by
  rw [atRoot, Arena.parentLink?, Arena.node?]
  cases a.builder.nodes[u]? <;> simp

/-- A closing bracket below the root moves on to the parent. -/
theorem close_cons_below {u : NodeId} {m : Option NodeId} (rest : List Char)
    (hcursor : a.cursor = some u) (hlink : a.builder.parentLink? u = some (m, false)) :
    close line a (')' :: rest) =
      close line { a with openBrackets := a.openBrackets - 1, cursor := m } rest := by
  obtain ⟨n, hn, hm⟩ := Option.map_eq_some_iff.mp hlink
  have hroot : n.isRoot = false := congrArg Prod.snd hm
  have hmother : n.mother = m := congrArg Prod.fst hm
  have hn' : a.builder.nodes[u]? = some n := hn
  rw [close, if_neg (by simp)]
  simp [hcursor, atRoot, hn', hroot, hmother]

/-- A closing bracket at the root has to be the last one. -/
theorem close_cons_root {u : NodeId} {m : Option NodeId} (rest : List Char)
    (hcursor : a.cursor = some u) (hlink : a.builder.parentLink? u = some (m, true)) :
    close line a (')' :: rest) =
      if rest.isEmpty then .ok { a with openBrackets := a.openBrackets - 1 }
      else .error (.bracketMismatch line .tooManyClosing) := by
  have hroot : a.atRoot u = true := atRoot_eq_true_iff.mpr ⟨m, hlink⟩
  rw [close, if_neg (by simp)]
  simp [hcursor, hroot]

/-- Closing decisions has no effect on the nodes. -/
theorem close_keeps {cs : List Char} (h : close line a cs = .ok a') :
    (∀ c ∈ cs, c = ')') ∧ a'.builder = a.builder ∧ a'.hasRoot = a.hasRoot ∧
      (a.cursor = none → a' = a) ∧ (a'.cursor = none → cs = [] ∨ a.cursor ≠ none) := by
  induction cs generalizing a with
  | nil =>
    obtain rfl : a = a' := Except.ok.inj h
    exact ⟨by simp, rfl, rfl, fun _ => rfl, fun _ => .inl rfl⟩
  | cons c rest ih =>
    rw [close] at h
    split at h
    · simp at h
    · next hc =>
      have hc : c = ')' := by simpa using hc
      cases hcursor : a.cursor with
      | none => simp [hcursor] at h
      | some u =>
        simp only [hcursor] at h
        split at h
        · split at h
          · next hrest =>
            obtain rfl := Except.ok.inj h
            rw [List.isEmpty_iff.mp hrest]
            exact ⟨by simp [hc], rfl, rfl, by simp, by simp⟩
          · simp at h
        · obtain ⟨hall, hb, hr, -, -⟩ := ih h
          refine ⟨?_, hb, hr, by simp, by simp⟩
          intro d hd
          rcases List.mem_cons.mp hd with rfl | hd
          · exact hc
          · exact hall d hd

/-- The brackets after those of a leaf are all but two of the brackets at the end of
its line. -/
theorem closeAfterLeaf_cases {cs : List Char} (hne : cs ≠ [])
    (hlast : ∀ c, cs.getLast? = some c → isBlank c = false)
    (h : a.closeAfterLeaf line cs = .ok a') :
    ∃ extra, close line a extra = .ok a' ∧ runLength ')' cs = extra.length + 2 := by
  obtain ⟨front, w, hcut, -, hsolid, hfront, hword⟩ := exists_last_word hne hlast
  rw [closeAfterLeaf, hword] at h
  split at h
  · next extra hextra =>
    refine ⟨extra, h, ?_⟩
    obtain ⟨hall, -⟩ := close_keeps h
    -- the last word ends in these brackets and nothing else does
    have hrep : ')' :: ')' :: extra = List.replicate (extra.length + 2) ')' := by
      refine List.eq_replicate_iff.mpr ⟨rfl, ?_⟩
      simpa using hall
    have hw : w = w.takeWhile (· != ')') ++ List.replicate (extra.length + 2) ')' := by
      rw [← hrep, ← hextra, List.takeWhile_append_dropWhile]
    rw [hcut, hw, ← List.append_assoc]
    refine runLength_append_replicate _ fun hend => ?_
    rw [List.getLast?_append] at hend
    cases htake : (w.takeWhile (· != ')')).getLast? with
    | some c =>
      have hmem := List.mem_takeWhile_imp (List.mem_of_getLast? htake)
      rw [htake] at hend
      simp only [Option.some_or, Option.some_inj] at hend
      simp [hend] at hmem
    | none =>
      rw [htake, Option.none_or] at hend
      exact absurd (hfront _ hend) (by decide)
  · simp at h

/-! ### Open decisions -/

/-- The decisions of a path are open, the first of them gets the next child. -/
structure OpenAt (a : Assembly) (path : List NodeId) : Prop where
  cursor : a.cursor = path.head?
  isPath : a.builder.Path path
  brackets : a.openBrackets = path.length

/-- The state after this many decisions of a path were closed.  The root is not left
when it is closed. -/
def closed (a : Assembly) (path : List NodeId) (n : Nat) : Assembly :=
  { a with
    openBrackets := a.openBrackets - n
    cursor := (path.drop n).head?.or path.getLast? }

theorem OpenAt.closed_zero (h : a.OpenAt path) : a.closed path 0 = a := by
  obtain ⟨u, rest, rfl⟩ := List.exists_cons_of_ne_nil h.isPath.ne_nil
  have hcursor : a.cursor = some u := h.cursor
  show { a with cursor := some u } = a
  rw [← hcursor]

/-- Brackets close the decisions of the path one by one, and there are no more of them
than decisions. -/
theorem OpenAt.close_eq_ok_iff {cs : List Char} (h : a.OpenAt path) :
    close line a cs = .ok a' ↔
      cs = List.replicate cs.length ')' ∧ cs.length ≤ path.length ∧
        a' = a.closed path cs.length := by
  induction cs generalizing a path with
  | nil =>
    rw [List.length_nil, h.closed_zero]
    simp [close, eq_comm (a := a')]
  | cons c cs ih =>
    by_cases hc : c = ')'
    · subst hc
      obtain ⟨hcursor, hpath, hbrackets⟩ := h
      -- the root stays in place, any other decision gives way to its parent
      cases hpath with
      | @root u m hlink =>
        have hclosed : a.closed [u] 1 = { a with openBrackets := a.openBrackets - 1 } := by
          have hcursor : a.cursor = some u := hcursor
          show { a with openBrackets := a.openBrackets - 1, cursor := some u } = _
          rw [← hcursor]
        rw [close_cons_root cs hcursor hlink]
        cases cs with
        | nil =>
          rw [List.length_singleton, hclosed]
          simp [eq_comm (a := a')]
        | cons c' cs => simp
      | @child u p rest hlink hrest =>
        have hopen : { a with openBrackets := a.openBrackets - 1, cursor := some p }.OpenAt
            (p :: rest) := by
          refine ⟨rfl, hrest, ?_⟩
          show a.openBrackets - 1 = _
          rw [hbrackets]
          rfl
        have hclosed : { a with openBrackets := a.openBrackets - 1, cursor := some p }.closed
            (p :: rest) cs.length = a.closed (u :: p :: rest) (cs.length + 1) := by
          rw [closed, closed, List.drop_succ_cons, List.getLast?_cons_cons, Nat.sub_sub,
            Nat.add_comm 1]
        rw [close_cons_below cs hcursor hlink, ih hopen, hclosed]
        simp only [List.length_cons, List.replicate_succ, List.cons_inj_right,
          Nat.add_le_add_iff_right]
    · rw [close, if_pos hc]
      simp [List.replicate_succ, hc]

theorem OpenAt.closed (h : a.OpenAt path) (hn : n < path.length) :
    (a.closed path n).OpenAt (path.drop n) := by
  have hcons := List.drop_eq_getElem_cons hn
  refine ⟨?_, h.isPath.drop hn, ?_⟩
  · show (path.drop n).head?.or _ = _
    rw [hcons, List.head?_cons, Option.some_or]
  · show a.openBrackets - n = _
    rw [h.brackets, List.length_drop]

/-- With the root closed nothing is open. -/
theorem OpenAt.openBrackets_closed (h : a.OpenAt path) :
    (a.closed path path.length).openBrackets = 0 := by
  show a.openBrackets - path.length = 0
  rw [h.brackets, Nat.sub_self]

/-- A node put below an open decision leaves the decision open, and could be opened
itself. -/
theorem OpenAt.put (h : a.OpenAt path) (hput : a.put line x = .ok a') :
    a'.OpenAt path ∧ (x.isSome → a'.builder.Path (a.builder.size :: path)) := by
  obtain ⟨u, rest, rfl⟩ := List.exists_cons_of_ne_nil h.isPath.ne_nil
  obtain ⟨d, -, -, rfl⟩ := (put_below_eq_ok_iff h.cursor).mp hput
  have hpath : (a.builder.extend u d x).Path (u :: rest) := by
    refine h.isPath.of_links fun v y hv => ?_
    obtain ⟨m, hm, -⟩ := Option.map_eq_some_iff.mp hv
    rw [Builder.parentLink?_extend (Arena.lt_of_node? hm), hv]
  refine ⟨⟨h.cursor, hpath, h.brackets⟩, fun hx => ?_⟩
  obtain ⟨y, rfl⟩ := Option.isSome_iff_exists.mp hx
  exact .child Builder.parentLink?_extend_new hpath

/-! ### A line -/

/-- What a leaf line holds: a leaf, or in a regression tree perhaps an empty slot. -/
def leafContent? (a : Assembly) (line : Nat) (cs : List Char) :
    Except FormatError (Option NodeContent) :=
  if a.kind = .regression ∧ startsWith emptyLeaf.toList cs then .ok none
  else do return some (.leaf (← parseLeaf a.kind a.symbolFeature line cs))

theorem leafContent?_cases {x : Option NodeContent} {cs : List Char}
    (h : a.leafContent? line cs = .ok x) :
    x = none ∨ ∃ p, parseLeaf a.kind a.symbolFeature line cs = .ok p ∧ x = some (.leaf p) := by
  rw [leafContent?] at h
  split at h
  · exact .inl (Except.ok.inj h).symm
  · cases hp : parseLeaf a.kind a.symbolFeature line cs with
    | error e =>
      rw [hp] at h
      cases h
    | ok p =>
      rw [hp] at h
      exact .inr ⟨p, rfl, (Except.ok.inj h).symm⟩

theorem addDecisionLine_eq (body : List Char) :
    a.addDecisionLine line body = (do
      let d ← parseDecision a.schema line body
      let a₁ ← a.put line (some (.decision d))
      return { a₁ with cursor := some a.builder.size, openBrackets := a₁.openBrackets + 1 }) :=
  rfl

theorem addLeafLine_eq (cs : List Char) :
    a.addLeafLine line cs = (do
      let x ← a.leafContent? line cs
      (← a.put line x).closeAfterLeaf line cs) := by
  rw [addLeafLine, leafContent?]
  split
  · rfl
  · cases parseLeaf a.kind a.symbolFeature line cs <;> rfl

/-- A line adds a decision and opens it, or adds a leaf or an empty slot and
closes the decisions whose brackets follow. -/
theorem addLine_cases {text : String} {cs : List Char} (hcs : trimBy isBlank text.toList = cs)
    (h : a.addLine line text = .ok a') :
    ∃ body, startsWith? ['(', '('] cs = some body ∧
      ((isDecision body = true ∧ ∃ d a₁, parseDecision a.schema line body = .ok d ∧
          { a with lastLine := line }.put line (some (.decision d)) = .ok a₁ ∧
          a' = { a₁ with
            cursor := some a.builder.size, openBrackets := a₁.openBrackets + 1 }) ∨
        (isDecision body = false ∧ ∃ x a₁, a.leafContent? line cs = .ok x ∧
          { a with lastLine := line }.put line x = .ok a₁ ∧
          a₁.closeAfterLeaf line cs = .ok a')) := by
  rw [addLine, hcs] at h
  cases hbody : startsWith? ['(', '('] cs with
  | none => simp [hbody] at h
  | some body =>
    simp only [hbody] at h
    refine ⟨body, rfl, ?_⟩
    by_cases hd : isDecision body = true
    · rw [if_pos hd, addDecisionLine_eq] at h
      left
      refine ⟨hd, ?_⟩
      simp only [bind, Except.bind, pure, Except.pure] at h
      cases hparse : parseDecision a.schema line body with
      | error e => simp [hparse] at h
      | ok d =>
        simp only [hparse] at h
        cases hput : { a with lastLine := line }.put line (some (.decision d)) with
        | error e => simp [hput] at h
        | ok a₁ =>
          simp only [hput, Except.ok.injEq] at h
          exact ⟨d, a₁, rfl, hput, h.symm⟩
    · rw [if_neg hd, addLeafLine_eq] at h
      right
      refine ⟨by simpa using hd, ?_⟩
      simp only [bind, Except.bind] at h
      cases hx : { a with lastLine := line }.leafContent? line cs with
      | error e => simp [hx] at h
      | ok x =>
        simp only [hx] at h
        cases hput : { a with lastLine := line }.put line x with
        | error e => simp [hput] at h
        | ok a₁ =>
          simp only [hput] at h
          exact ⟨x, a₁, hx, hput, h⟩

/-! ### Several lines -/

/-- The node lines, without the blanks around them, that lead from one state to
another. -/
inductive Reads : Assembly → List (List Char) → Assembly → Prop
  | nil (a : Assembly) : Reads a [] a
  | cons {a a₁ a' : Assembly} {line : Nat} {text : String} {rest : List (List Char)} :
      a.addLine line text = .ok a₁ → Reads a₁ rest a' →
        Reads a (trimBy isBlank text.toList :: rest) a'

theorem Reads.exists_of_append {ls ls' : List (List Char)} (h : Reads a (ls ++ ls') a') :
    ∃ a₁, Reads a ls a₁ ∧ Reads a₁ ls' a' := by
  induction ls generalizing a with
  | nil => exact ⟨a, .nil a, h⟩
  | cons l ls ih =>
    cases h with
    | cons hline hrest =>
      obtain ⟨a₁, h1, h2⟩ := ih hrest
      exact ⟨a₁, .cons hline h1, h2⟩

end Assembly

/-! ### The node lines of a text -/

/-- The node line in an encoded line, without the blanks around it. -/
def nodeLine? (bytes : List UInt8) : Option (List Char) :=
  (Utf8.decode? bytes).bind fun text =>
    if isSkipped text then none else some (trimBy isBlank text.toList)

/-- The node lines of an encoded text: blank lines and comments are left out. -/
def nodeLines (bytes : List UInt8) : List (List Char) := (byteLines bytes).filterMap nodeLine?

theorem reads_of_foldlM {lines : List (List UInt8 × Nat)} {a a' : Assembly}
    (h : lines.foldlM addEncodedLine a = .ok a') :
    Assembly.Reads a (lines.filterMap fun l => nodeLine? l.1) a' := by
  induction lines generalizing a with
  | nil =>
    obtain rfl : a = a' := Except.ok.inj h
    exact .nil a
  | cons l lines ih =>
    rw [List.foldlM_cons] at h
    simp only [bind, Except.bind, addEncodedLine, decodeLine] at h
    rw [List.filterMap_cons, nodeLine?]
    cases htext : Utf8.decode? l.1 with
    | none => simp [htext] at h
    | some text =>
      simp only [htext] at h
      by_cases hskip : isSkipped text = true
      · rw [if_pos hskip] at h
        rw [Option.bind_some, if_pos hskip]
        exact ih h
      · rw [if_neg hskip] at h
        rw [Option.bind_some, if_neg hskip]
        cases hline : a.addLine l.2 text with
        | error e => simp [hline] at h
        | ok a₁ =>
          simp only [hline] at h
          exact .cons hline (ih h)

theorem Assembly.start_eq_ok_iff {s : Schema} {o : Options} {a : Assembly} :
    Assembly.start s o = .ok a ↔
      ∃ symbolFeature, FormatError.ofSchema (o.symbolFeature.mapM s.featureIndex) =
          .ok symbolFeature ∧
        a = { schema := s, kind := o.kind, symbolFeature, builder := Builder.empty s } := by
  rw [Assembly.start]
  simp only [bind, Except.bind, pure, Except.pure]
  cases FormatError.ofSchema (o.symbolFeature.mapM s.featureIndex) with
  | error e => simp
  | ok symbolFeature => simp [eq_comm (a := a)]

/-- The state after the lines of an encoded text. -/
def assembled (s : Schema) (o : Options) (bytes : List UInt8) : Except FormatError Assembly := do
  ((byteLines bytes).zipIdx 1).foldlM addEncodedLine (← Assembly.start s o)

theorem ofText_eq_ok_iff {s : Schema} {o : Options} {bytes : List UInt8} {t : Cart} :
    ofText s o bytes = .ok t ↔ ∃ a, assembled s o bytes = .ok a ∧ a.finish = .ok t := by
  rw [ofText, ofLines, assembled]
  simp only [bind, Except.bind]
  cases Assembly.start s o with
  | error e => simp
  | ok a₀ =>
    simp only
    cases ((byteLines bytes).zipIdx 1).foldlM addEncodedLine a₀ <;> simp

/-- The state after a text is reached line by line. -/
theorem reads_of_assembled {s : Schema} {o : Options} {bytes : List UInt8} {a : Assembly}
    (h : assembled s o bytes = .ok a) :
    ∃ a₀, Assembly.start s o = .ok a₀ ∧ a₀.Reads (nodeLines bytes) a := by
  rw [assembled] at h
  simp only [bind, Except.bind] at h
  cases hstart : Assembly.start s o with
  | error e => simp [hstart] at h
  | ok a₀ =>
    simp only [hstart] at h
    refine ⟨a₀, rfl, ?_⟩
    have hreads := reads_of_foldlM h
    rwa [show (fun l : List UInt8 × Nat => nodeLine? l.1) = nodeLine? ∘ Prod.fst from rfl,
      ← List.filterMap_map, List.zipIdx_map_fst] at hreads

theorem Assembly.finish_eq_ok_iff {a : Assembly} {t : Cart} :
    a.finish = .ok t ↔ a.openBrackets = 0 ∧ Cart.ofBuilder? a.builder = .ok t := by
  rw [finish]
  by_cases h : a.openBrackets = 0
  · rw [if_neg fun hne => hne h, FormatError.ofGraph_eq_ok_iff]
    simp [h]
  · rw [if_pos h]
    simp [h]

end Wagon

end FeatureTree
