/-
Entries of list leaves.

The reader tells from the number of words how many entries a list leaf has.  Its first
words come in pairs, one pair for every entry, and one word is left over to close the list;
with an even number of words there are two of them.  Lines of two words are taken for the
record without entries, whatever stands in them.

* `WagonKind.isList`, `Wagon.listPayload` — the trees whose leaves are lists;
* `Wagon.ReadsPairs`, `Wagon.parseEntries_cases` — the entries of a line and its words;
* `Wagon.Assembly.Adds`, `Wagon.Assembly.Reads.exists_leaf` — the leaf of a line among those
  of a run;
* `Wagon.ReadFrom`, `Wagon.reads_of_addRecords` — the trees that are read, from a text or from
  records;
* `Wagon.KeepsEntries`, `Wagon.listLeaf_keeps_iff` — which lines keep all their entries.
-/
import FeatureTree.Proofs.Format.Wagon.Balance
import FeatureTree.Proofs.Format.Wagon.Packing

namespace FeatureTree

open Text

/-- Whether the leaves of a tree are lists of entries. -/
def WagonKind.isList : WagonKind → Bool
  | regression => false
  | topLevel => false
  | _ => true

namespace Wagon

variable {kind : WagonKind} {symbol : Option Nat} {line : Nat} {cs : List Char}
  {ws : List (List Char)} {es : List (Int32 × Single)}

/-! ### One entry -/

/-- The weight that a word stands for; infinity is another number in the last entry than in
the others. -/
inductive Weighs (isLast : Bool) : String → Single → Prop
  | nan : Weighs isLast "nan" (Floating.ofInt (-1))
  | infinity : Weighs isLast "inf" (Floating.ofInt (if isLast then 10000 else 1000000))
  | number {text : String} {weight : Single} : text ≠ "nan" → text ≠ "inf" →
      Floating.parse? text = some weight → Weighs isLast text weight

theorem weighs_of_parseWeight {isLast : Bool} {token : List Char} {weight : Single}
    (h : parseWeight line isLast token = .ok weight) :
    Weighs isLast (String.ofList token) weight := by
  rw [parseWeight] at h
  split at h
  · next hnan =>
    obtain rfl := Except.ok.inj h
    rw [hnan]
    exact .nan
  · next hnan =>
    split at h
    · next hinf =>
      obtain rfl := Except.ok.inj h
      rw [hinf]
      exact .infinity
    · next hinf =>
      split at h
      · next weight' hparse =>
        obtain rfl := Except.ok.inj h
        exact .number hnan hinf hparse
      · cases h

/-- An entry is what two words write, without the brackets before and after them. -/
structure ReadsPair (isLast : Bool) (first second : List Char) (e : Int32 × Single) : Prop where
  index : Numeral.int32? (String.ofList (first.dropWhile (· == '('))) = some e.1
  weight : Weighs isLast (String.ofList (trimEndBy (· == ')') second)) e.2

/-! ### All entries -/

/-- The entries are those of the first pairs of words. -/
def ReadsPairs (ws : List (List Char)) (es : List (Int32 × Single)) : Prop :=
  ∀ k e, es[k]? = some e → ∃ first second, ws[2 * k]? = some first ∧
    ws[2 * k + 1]? = some second ∧ ReadsPair (k + 1 == es.length) first second e

theorem ReadsPairs.cons {first second : List Char} {e : Int32 × Single}
    (he : ReadsPair es.isEmpty first second e) (h : ReadsPairs ws es) :
    ReadsPairs (first :: second :: ws) (e :: es) := by
  intro k x hx
  cases k with
  | zero =>
    obtain rfl := Option.some_inj.mp hx
    refine ⟨first, second, rfl, rfl, ?_⟩
    cases es <;> exact he
  | succ k =>
    obtain ⟨first', second', hfirst, hsecond, hpair⟩ := h k x hx
    refine ⟨first', second', hfirst, hsecond, ?_⟩
    have hlast : (k + 1 + 1 == (e :: es).length) = (k + 1 == es.length) := by
      rw [List.length_cons, Bool.eq_iff_iff, beq_iff_eq, beq_iff_eq]
      omega
    rwa [hlast]

theorem parsePairs_cases {n : Nat} (h : parsePairs line n ws = .ok es)
    (hn : 2 * n ≤ ws.length) : es.length = n ∧ ReadsPairs ws es := by
  induction n generalizing ws es with
  | zero =>
    obtain rfl : [] = es := by cases ws <;> exact Except.ok.inj h
    exact ⟨rfl, fun k e he => by simp at he⟩
  | succ n ih =>
    obtain ⟨first, second, ws, rfl⟩ : ∃ first second rest, ws = first :: second :: rest := by
      match ws, hn with
      | first :: second :: rest, _ => exact ⟨first, second, rest, rfl⟩
      | [_], hn => simp at hn; omega
      | [], hn => simp at hn
    rw [parsePairs] at h
    split at h
    · cases h
    · next index hindex =>
      obtain ⟨weight, hweight, h⟩ := bind_eq_ok_iff.mp h
      obtain ⟨rest, hrest, h⟩ := bind_eq_ok_iff.mp h
      obtain rfl := Except.ok.inj h
      obtain ⟨hlength, hpairs⟩ := ih hrest (by simp at hn; omega)
      have hlast : (n == 0) = rest.isEmpty := by
        rw [← hlength]
        cases rest <;> rfl
      rw [hlast] at hweight
      exact ⟨congrArg (· + 1) hlength,
        .cons ⟨hindex, weighs_of_parseWeight hweight⟩ hpairs⟩

/-- A line has half as many entries as words besides one. -/
theorem parseEntries_cases {w : WeightedIndices} (h : parseEntries line ws = .ok w) :
    w.entries.length = (ws.length - 1) / 2 ∧ ReadsPairs ws w.entries := by
  rw [parseEntries] at h
  split at h
  · next hshort =>
    obtain rfl := Except.ok.inj h
    refine ⟨?_, fun k e he => by simp [WeightedIndices.empty] at he⟩
    show 0 = _
    omega
  · obtain ⟨es, hes, h⟩ := bind_eq_ok_iff.mp h
    obtain rfl := Except.ok.inj h
    exact parsePairs_cases hes (by omega)

/-! ### The leaf of a line -/

/-- The words of a leaf, with a blank between every two entries. -/
def leafWords (cs : List Char) : List (List Char) :=
  words (replaceAll [')', '('] [')', ' ', '('] cs)

/-- The payload with these entries in a tree of lists; the leaves of a classification tree
have no weights. -/
def listPayload (kind : WagonKind) (symbol : Option Nat) (w : WeightedIndices) : Payload :=
  match kind with
  | .classification => .indices w.indices
  | .stringCart => .weightedSymbols ⟨w, symbol⟩
  | _ => .weightedIndices w

theorem exists_listPayload {p : Payload} (hkind : kind.isList = true)
    (h : parseLeaf kind symbol line cs = .ok p) :
    ∃ w, parseEntries line (leafWords cs) = .ok w ∧ p = listPayload kind symbol w := by
  cases kind with
  | regression => cases hkind
  | topLevel => cases hkind
  | _ =>
    obtain ⟨w, hw, h⟩ := bind_eq_ok_iff.mp h
    exact ⟨w, hw, (Except.ok.inj h).symm⟩

/-- A line holds a leaf: it does not begin like a decision. -/
def IsLeafLine (cs : List Char) : Prop :=
  ∃ body, startsWith? ['(', '('] cs = some body ∧ Assembly.isDecision body = false

namespace Assembly

variable {a a₁ a' : Assembly} {x : NodeContent} {u : NodeId} {k : Nat} {ls : List (List Char)}

/-- A node was added, and the leaves before it are as they were. -/
structure Adds (a a' : Assembly) : Prop where
  kind : a'.kind = a.kind
  symbolFeature : a'.symbolFeature = a.symbolFeature
  size : a'.builder.size = a.builder.size + 1
  leaves : ∀ u p, a.builder.content? u = some (.leaf p) → a'.builder.content? u = some (.leaf p)

theorem content?_put {p : Payload} {y : Option NodeContent} (hput : a.put line y = .ok a')
    (hu : (a.builder.grown y).content? u = some (.leaf p)) :
    a'.builder.content? u = some (.leaf p) := by
  cases hcursor : a.cursor with
  | none =>
    obtain ⟨-, rfl⟩ := (put_first_eq_ok_iff hcursor).mp hput
    cases y with
    | none => exact hu
    | some y => exact (Builder.content?_setRoot _).trans hu
  | some q =>
    obtain ⟨d, hd, -, rfl⟩ := (put_below_eq_ok_iff hcursor).mp hput
    have hne : u ≠ q := by
      rintro rfl
      simp [hu] at hd
    show ((a.builder.grown y).push q d _).content? u = _
    rw [Builder.content?_push _ (Arena.lt_size_of_content? hd), if_neg hne, hu]

theorem adds_put (hput : a.put line (some x) = .ok a') : a.Adds a' := by
  refine ⟨?_, ?_, ?_, fun u p hu => content?_put hput ?_⟩
  · cases hcursor : a.cursor with
    | none => obtain ⟨-, rfl⟩ := (put_first_eq_ok_iff hcursor).mp hput; rfl
    | some q => obtain ⟨d, -, -, rfl⟩ := (put_below_eq_ok_iff hcursor).mp hput; rfl
  · cases hcursor : a.cursor with
    | none => obtain ⟨-, rfl⟩ := (put_first_eq_ok_iff hcursor).mp hput; rfl
    | some q => obtain ⟨d, -, -, rfl⟩ := (put_below_eq_ok_iff hcursor).mp hput; rfl
  · cases hcursor : a.cursor with
    | none =>
      obtain ⟨-, rfl⟩ := (put_first_eq_ok_iff hcursor).mp hput
      exact (Builder.size_setRoot _).trans (Builder.size_add _)
    | some q =>
      obtain ⟨d, -, -, rfl⟩ := (put_below_eq_ok_iff hcursor).mp hput
      exact Builder.size_extend.trans (Builder.size_add _)
  · rw [Builder.content?_grown (Arena.lt_size_of_content? hu), hu]

/-- Closing decisions leaves the kind of tree alone. -/
theorem close_sameFrame (h : close line a cs = .ok a') : a.SameFrame a' := by
  induction cs generalizing a with
  | nil =>
    obtain rfl := Except.ok.inj h
    exact ⟨rfl, rfl, rfl, rfl⟩
  | cons c rest ih =>
    rw [close] at h
    split at h
    · cases h
    · split at h
      · cases h
      · split at h
        · split at h
          · obtain rfl := Except.ok.inj h
            exact ⟨rfl, rfl, rfl, rfl⟩
          · cases h
        · obtain ⟨hschema, hkind, hsymbol, hroot⟩ := ih h
          exact ⟨hschema, hkind, hsymbol, hroot⟩

theorem closeAfterLeaf_keeps (h : a.closeAfterLeaf line cs = .ok a') :
    a.SameFrame a' ∧ a'.builder = a.builder := by
  rw [closeAfterLeaf] at h
  split at h
  · exact ⟨close_sameFrame h, (close_keeps h).2.1⟩
  · cases h

theorem Adds.of_same (h : a.Adds a₁) (hframe : a₁.SameFrame a')
    (hbuilder : a'.builder = a₁.builder) : a.Adds a' :=
  ⟨hframe.kind.trans h.kind, hframe.symbolFeature.trans h.symbolFeature, hbuilder ▸ h.size,
    hbuilder ▸ h.leaves⟩

/-- In a tree of lists every line adds a node, and the leaf of a leaf line has the entries that
are read from the line. -/
theorem adds_addLine {text : String} (hkind : a.kind.isList = true)
    (h : a.addLine line text = .ok a') :
    a.Adds a' ∧ (IsLeafLine (trimBy isBlank text.toList) →
      ∃ w, parseEntries line (leafWords (trimBy isBlank text.toList)) = .ok w ∧
        a'.builder.content? a.builder.size =
          some (.leaf (listPayload a.kind a.symbolFeature w))) := by
  obtain ⟨body, hbody, ⟨hdec, d, a₁, -, hput, rfl⟩ | ⟨-, x, a₁, hx, hput, hclose⟩⟩ :=
    addLine_cases rfl h
  · obtain ⟨hkind, hsymbol, hsize, hleaves⟩ := adds_put hput
    refine ⟨⟨hkind, hsymbol, hsize, hleaves⟩, ?_⟩
    rintro ⟨body', hbody', hleaf⟩
    obtain rfl := Option.some_inj.mp (hbody.symm.trans hbody')
    simp [hdec] at hleaf
  · -- the record without entries is a leaf too
    have hne : ¬ (a.kind = .regression ∧
        startsWith emptyLeaf.toList (trimBy isBlank text.toList) = true) := by
      rintro ⟨hregression, -⟩
      rw [hregression] at hkind
      cases hkind
    rw [leafContent?, if_neg hne] at hx
    obtain ⟨p, hp, hx⟩ := bind_eq_ok_iff.mp hx
    obtain rfl := Except.ok.inj hx
    obtain ⟨w, hw, rfl⟩ := exists_listPayload hkind hp
    obtain ⟨hframe, hbuilder⟩ := closeAfterLeaf_keeps hclose
    obtain ⟨hkind, hsymbol, hsize, hleaves⟩ := adds_put hput
    refine ⟨Adds.of_same ⟨hkind, hsymbol, hsize, hleaves⟩ hframe hbuilder, fun _ => ⟨w, hw, ?_⟩⟩
    rw [hbuilder]
    refine content?_put hput ?_
    show (a.builder.grown _).content? a.builder.size = _
    rw [Builder.content?_grown_eq, if_pos rfl]

theorem Reads.leaf_stays (h : a.Reads ls a') (hkind : a.kind.isList = true) {p : Payload}
    (hu : a.builder.content? u = some (.leaf p)) : a'.builder.content? u = some (.leaf p) := by
  induction h with
  | nil a => exact hu
  | cons hline _ ih =>
    obtain ⟨hadds, -⟩ := adds_addLine hkind hline
    exact ih (hadds.kind ▸ hkind) (hadds.leaves u p hu)

/-- The leaf of each leaf line of a run: lines and nodes come in the same order. -/
theorem Reads.exists_leaf (h : a.Reads ls a') (hkind : a.kind.isList = true)
    (hk : ls[k]? = some cs) (hleaf : IsLeafLine cs) :
    ∃ line w, parseEntries line (leafWords cs) = .ok w ∧
      a'.builder.content? (a.builder.size + k) =
        some (.leaf (listPayload a.kind a.symbolFeature w)) := by
  induction h generalizing k with
  | nil a => simp at hk
  | @cons a a₁ a' line text rest hline hrest ih =>
    obtain ⟨hadds, hnew⟩ := adds_addLine hkind hline
    have hkind₁ : a₁.kind.isList = true := hadds.kind ▸ hkind
    cases k with
    | zero =>
      obtain rfl := Option.some_inj.mp hk
      obtain ⟨w, hw, hcontent⟩ := hnew hleaf
      exact ⟨line, w, hw, hrest.leaf_stays hkind₁ hcontent⟩
    | succ k =>
      obtain ⟨line', w, hw, hcontent⟩ := ih hkind₁ hk
      rw [hadds.size, hadds.kind, hadds.symbolFeature, Nat.add_assoc, Nat.add_comm 1] at hcontent
      exact ⟨line', w, hw, hcontent⟩

end Assembly

/-! ### The lines that a tree is read from -/

/-- The texts of records up to the end of the stream, at most this many. -/
def recordTexts : Nat → Reader (List String)
  | 0 => pure []
  | fuel + 1 => do
    match ← Reader.int32? with
    | none => return []
    | some length =>
      if length.toInt < 0 then
        Reader.fail (.invalidValue "record length" (toString length.toInt))
      else
        let text ← Reader.chars length.toInt.toNat
        return text :: (← recordTexts fuel)

/-- The texts of the records behind a header, a count and a name. -/
def readTexts (fuel : Nat) : Reader (List String) := do
  Header.expect .carts
  let _ ← Reader.int32
  let _ ← Reader.string
  recordTexts fuel

/-- The lines in a byte sequence of records, without the blanks around them. -/
def recordLines (bytes : List UInt8) : List (List Char) :=
  match readTexts (bytes.length + 1) bytes with
  | .ok (texts, _) => texts.map fun text => trimBy isBlank text.toList
  | .error _ => []

/-- A tree and the lines that it was read from, as a text or as records. -/
inductive ReadFrom (s : Schema) (o : Options) (t : Cart) : List (List Char) → Prop
  | text {bytes : List UInt8} : ofText s o bytes = .ok t → ReadFrom s o t (nodeLines bytes)
  | records {bytes : List UInt8} : ofPacked s o bytes = .ok t → ReadFrom s o t (recordLines bytes)

variable {s : Schema} {o : Options} {t : Cart} {ls : List (List Char)} {k : Nat}

/-- Records are read line by line. -/
theorem reads_of_addRecords {fuel number : Nat} {a a' : Assembly} {bytes rest : List UInt8}
    (h : addRecords fuel number a bytes = .ok (a', rest)) :
    ∃ texts, recordTexts fuel bytes = .ok (texts, rest) ∧
      a.Reads (texts.map fun text => trimBy isBlank text.toList) a' := by
  induction fuel generalizing number a bytes with
  | zero =>
    obtain ⟨rfl, rfl⟩ := Prod.mk.inj (Except.ok.inj h)
    exact ⟨[], rfl, .nil _⟩
  | succ fuel ih =>
    rw [addRecords] at h
    obtain ⟨length?, bytes₁, hlength, h⟩ := Reader.bind_apply_eq_ok_iff.mp h
    rw [recordTexts, Reader.bind_apply, hlength]
    cases length? with
    | none =>
      obtain ⟨rfl, rfl⟩ := Prod.mk.inj (Except.ok.inj h)
      exact ⟨[], rfl, .nil _⟩
    | some length =>
      simp only [] at h
      split at h
      · cases h
      · next hsign =>
        obtain ⟨text, bytes₂, htext, h⟩ := Reader.bind_apply_eq_ok_iff.mp h
        obtain ⟨a₁, hline, h⟩ := Reader.ofExcept_bind_eq_ok_iff.mp h
        obtain ⟨texts, htexts, hreads⟩ := ih h
        refine ⟨text :: texts, ?_, .cons hline hreads⟩
        show (if length.toInt < 0 then Reader.fail _ else _ : Reader (List String)) bytes₁ = _
        rw [if_neg hsign]
        exact Reader.bind_apply_eq_ok_iff.mpr ⟨text, bytes₂, htext,
          Reader.bind_apply_eq_ok_iff.mpr ⟨texts, rest, htexts, rfl⟩⟩

theorem exists_run_of_ofPacked {bytes : List UInt8} (h : ofPacked s o bytes = .ok t) :
    ∃ a₀ a, Assembly.start s o = .ok a₀ ∧ a₀.Reads (recordLines bytes) a ∧ a.finish = .ok t := by
  obtain ⟨⟨t', rest⟩, hread, rfl⟩ :
      ∃ r, readPacked s o (bytes.length + 1) bytes = .ok r ∧ r.1 = t := by
    rw [ofPacked] at h
    cases hr : readPacked s o (bytes.length + 1) bytes with
    | error e => simp [hr, Except.map] at h
    | ok r => exact ⟨r, rfl, by simpa [hr, Except.map] using h⟩
  -- both readers take the header, the count and the name first
  rw [readPacked] at hread
  obtain ⟨_, bytes₁, hheader, hread⟩ := Reader.bind_apply_eq_ok_iff.mp hread
  obtain ⟨count, bytes₂, hcount, hread⟩ := Reader.bind_apply_eq_ok_iff.mp hread
  obtain ⟨name, bytes₃, hname, hread⟩ := Reader.bind_apply_eq_ok_iff.mp hread
  have htexts : ∀ p, recordTexts (bytes.length + 1) bytes₃ = .ok p →
      readTexts (bytes.length + 1) bytes = .ok p := fun p hp => by
    rw [readTexts]
    exact Reader.bind_apply_eq_ok_iff.mpr ⟨_, _, hheader, Reader.bind_apply_eq_ok_iff.mpr
      ⟨_, _, hcount, Reader.bind_apply_eq_ok_iff.mpr ⟨_, _, hname, hp⟩⟩⟩
  obtain ⟨a₀, hstart, hread⟩ := Reader.ofExcept_bind_eq_ok_iff.mp hread
  obtain ⟨a, bytes₄, hrecords, hread⟩ := Reader.bind_apply_eq_ok_iff.mp hread
  obtain ⟨texts, hrest, hreads⟩ := reads_of_addRecords hrecords
  have hlines : recordLines bytes = texts.map fun text => trimBy isBlank text.toList := by
    rw [recordLines, htexts _ hrest]
  exact ⟨a₀, a, hstart, hlines ▸ hreads, (Reader.ofExcept_apply_eq_ok_iff.mp hread).1⟩

/-- A tree that is read is the end of a run over its lines. -/
theorem ReadFrom.exists_run (h : ReadFrom s o t ls) :
    ∃ a₀ a, Assembly.start s o = .ok a₀ ∧ a₀.Reads ls a ∧ a.finish = .ok t := by
  cases h with
  | text h =>
    obtain ⟨a, hrun, hfinish⟩ := ofText_eq_ok_iff.mp h
    obtain ⟨a₀, hstart, hreads⟩ := reads_of_assembled hrun
    exact ⟨a₀, a, hstart, hreads, hfinish⟩
  | records h => exact exists_run_of_ofPacked h

/-! ### Lines that keep their entries -/

/-- A line is the record without entries, with brackets after it that close decisions. -/
def IsEmptyRecord (cs : List Char) : Prop :=
  ∃ n, cs = emptyLeaf.toList ++ List.replicate n ')'

/-- No entry of a line is lost: the words are the pairs of the entries and one more, or the
line is the record without entries. -/
inductive KeepsEntries (cs : List Char) (es : List (Int32 × Single)) : Prop
  | pairs : (leafWords cs).length = 2 * es.length + 1 → ReadsPairs (leafWords cs) es →
      KeepsEntries cs es
  | none : IsEmptyRecord cs → es = [] → KeepsEntries cs es

theorem length_leafWords_emptyRecord (h : IsEmptyRecord cs) : (leafWords cs).length = 2 := by
  obtain ⟨n, rfl⟩ := h
  have hl : (Payload.indices []).Legible := legible_empty .indices
  have hwritten : leafText (.indices []) = .ok emptyLeaf := rfl
  have hrecord := toList_leafText hwritten n
  rw [String.toList_append, closing, String.toList_ofList] at hrecord
  rw [leafWords, hrecord, replaceAll_record hl, words_record hl]
  rfl

theorem keepsEntries_iff (hlength : es.length = ((leafWords cs).length - 1) / 2)
    (hpairs : ReadsPairs (leafWords cs) es) :
    KeepsEntries cs es ↔ (leafWords cs).length % 2 = 1 ∨ IsEmptyRecord cs := by
  constructor
  · rintro (⟨hodd, -⟩ | ⟨hempty, -⟩)
    · left
      omega
    · exact .inr hempty
  · rintro (hodd | hempty)
    · exact .pairs (by omega) hpairs
    · refine .none hempty (List.eq_nil_of_length_eq_zero ?_)
      rw [hlength, length_leafWords_emptyRecord hempty]

/-- Each leaf line of a tree of lists makes the leaf of the same number, with the entries of its
first pairs of words.  No entry is lost exactly if the number of words is odd or the line is the
record without entries; with an even number of words the last two are dropped. -/
theorem listLeaf_keeps_iff {s : Schema} {o : Options} {t : Cart} {ls : List (List Char)}
    {k : Nat} {cs : List Char} (h : ReadFrom s o t ls) (hkind : o.kind.isList = true)
    (hk : ls[k]? = some cs) (hleaf : IsLeafLine cs) :
    ∃ symbol w, FormatError.ofSchema (o.symbolFeature.mapM s.featureIndex) = .ok symbol ∧
      t.arena.content? k = some (.leaf (listPayload o.kind symbol w)) ∧
      w.entries.length = ((leafWords cs).length - 1) / 2 ∧ ReadsPairs (leafWords cs) w.entries ∧
      (KeepsEntries cs w.entries ↔ (leafWords cs).length % 2 = 1 ∨ IsEmptyRecord cs) := by
  obtain ⟨a₀, a, hstart, hreads, hfinish⟩ := h.exists_run
  obtain ⟨symbol, hsymbol, rfl⟩ := Assembly.start_eq_ok_iff.mp hstart
  obtain ⟨line, w, hw, hcontent⟩ := hreads.exists_leaf hkind hk hleaf
  obtain ⟨hlength, hpairs⟩ := parseEntries_cases hw
  refine ⟨symbol, w, hsymbol, ?_, hlength, hpairs, keepsEntries_iff hlength hpairs⟩
  rw [content?_of_finish hfinish, ← hcontent, Builder.size_empty, Nat.zero_add]

/-- A leaf with two weighted entries and no blank between them. -/
def joinedText : List UInt8 := Utf8.encode "((0 1.0)(1 2.0) 0))\n"

theorem listLeaf_keeps_iff_sample :
    ∃ t symbol w, ofText Sample.schema { kind := .extendedClassification } joinedText = .ok t ∧
      WagonKind.extendedClassification.isList = true ∧
      (nodeLines joinedText)[0]? = some "((0 1.0)(1 2.0) 0))".toList ∧
      IsLeafLine "((0 1.0)(1 2.0) 0))".toList ∧
      t.arena.content? 0 = some (.leaf (listPayload .extendedClassification symbol w)) ∧
      w.entries.length = 2 ∧ KeepsEntries "((0 1.0)(1 2.0) 0))".toList w.entries := by
  have hread : (ofText Sample.schema { kind := .extendedClassification } joinedText).isOk =
      true := by decide +kernel
  have hline : (nodeLines joinedText)[0]? = some "((0 1.0)(1 2.0) 0))".toList := by
    decide +kernel
  have hleaf : IsLeafLine "((0 1.0)(1 2.0) 0))".toList :=
    ⟨"0 1.0)(1 2.0) 0))".toList, by decide +kernel, by decide +kernel⟩
  have hwords : (leafWords "((0 1.0)(1 2.0) 0))".toList).length = 5 := by decide +kernel
  cases ht : ofText Sample.schema { kind := .extendedClassification } joinedText with
  | error e => simp [ht, Except.isOk, Except.toBool] at hread
  | ok t =>
    obtain ⟨symbol, w, -, hcontent, hlength, -, hiff⟩ :=
      listLeaf_keeps_iff (.text ht) rfl hline hleaf
    rw [hwords] at hlength hiff
    exact ⟨t, symbol, w, rfl, rfl, hline, hleaf, hcontent, hlength, hiff.mpr (.inl rfl)⟩

/-- A leaf with two entries and no word after them. -/
def unclosedText : List UInt8 := Utf8.encode "(((1 0) (2 0))\n"

/-- The second entry is taken for the end of the list. -/
theorem not_keepsEntries_unclosedText :
    ∃ t, ofText Sample.schema {} unclosedText = .ok t ∧
      nodeLines unclosedText = ["(((1 0) (2 0))".toList] ∧
      IsLeafLine "(((1 0) (2 0))".toList ∧
      t.arena.content? 0 = some (.leaf (.indices [1])) ∧
      ∀ w : WeightedIndices, w.indices = [1] →
        ¬ KeepsEntries "(((1 0) (2 0))".toList w.entries := by
  have hread : (ofText Sample.schema {} unclosedText).toOption.bind (·.arena.content? 0) =
      some (.leaf (.indices [1])) := by decide +kernel
  have hlines : nodeLines unclosedText = ["(((1 0) (2 0))".toList] := by decide +kernel
  have hleaf : IsLeafLine "(((1 0) (2 0))".toList :=
    ⟨"(1 0) (2 0))".toList, by decide +kernel, by decide +kernel⟩
  have hwords : (leafWords "(((1 0) (2 0))".toList).length = 4 := by decide +kernel
  cases ht : ofText Sample.schema {} unclosedText with
  | error e => simp [ht, Except.toOption] at hread
  | ok t =>
    refine ⟨t, rfl, hlines, hleaf, by simpa [ht, Except.toOption] using hread, fun w hw => ?_⟩
    have hlength : w.entries.length = 1 := by
      have hlength := congrArg List.length hw
      rwa [WeightedIndices.indices, List.length_map] at hlength
    rintro (⟨hodd, -⟩ | ⟨-, hnil⟩)
    · rw [hwords, hlength] at hodd
      cases hodd
    · rw [hnil] at hlength
      cases hlength

end Wagon

end FeatureTree
