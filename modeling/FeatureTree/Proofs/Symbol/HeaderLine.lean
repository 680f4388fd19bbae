/-
Symbol tables and their header lines.

Symbols stand in a header line as they are, between quotes, so a symbol of quotes, commas,
digits and colons looks much like what separates two of them.  But a separator holds no
quote.  One that begins within a symbol would end within it, and such symbols are not
written; and the pieces of a line that is cut at its separators hold none.

Of the digits no more is used than that those of ASCII are among them, and that the comma,
the colon and the quote are not.

* `SymbolTable.Cut` — a line cut at its separators, from the left and without overlap;
* `SymbolTable.cut_entries`, `SymbolTable.Cut.entries_eq` — `entries` cuts in this way, and
  there is no other;
* `SymbolTable.Cut.quoted`, `SymbolTable.cut_renderFrom` — symbols in quotes are pieces;
* `SymbolTable.Cut.holdsSeparator_eq_false` — pieces hold no separator;
* `StringTree.header_and_parse` — a table is recovered from its header line, and the table
  of a header line has one.
-/
import FeatureTree.Proofs.Numeric.Digits
import FeatureTree.Proofs.Stream.Reads
import FeatureTree.Proofs.Text.Search
import FeatureTree.Symbol.StringTree

namespace FeatureTree

namespace SymbolTable

open Text

variable {c : Char} {cs ds rest piece symbol : List Char} {pieces : List (List Char)}

/-! ### Digits -/

theorem isDecimalDigit_of_isDigit (h : Decimal.isDigit c = true) : isDecimalDigit c = true := by
  have hc := Decimal.toNat_of_isDigit h
  rw [isDecimalDigit, inRanges, decimalDigitRanges, List.any_cons]
  simp [hc]

theorem isDecimalDigit_colon : isDecimalDigit ':' = false := by decide

theorem isDecimalDigit_quote : isDecimalDigit '"' = false := by decide

/-! ### Separators -/

/-- An index before a colon is read to its end, whatever follows. -/
theorem afterIndex?_digits (hne : ds ≠ []) (hds : ∀ d ∈ ds, isDecimalDigit d = true)
    (rest : List Char) : afterIndex? (ds ++ ':' :: rest) = some rest := by
  have htake : (ds ++ ':' :: rest).takeWhile isDecimalDigit = ds := by
    rw [List.takeWhile_append_of_pos hds, List.takeWhile_cons, isDecimalDigit_colon]
    simp
  have hdrop : (ds ++ ':' :: rest).dropWhile isDecimalDigit = ':' :: rest := by
    rw [List.dropWhile_append_of_pos hds, List.dropWhile_cons, isDecimalDigit_colon]
    simp
  rw [afterIndex?, htake, if_neg (by simpa using hne), hdrop]
  rfl

theorem exists_of_afterIndex? (h : afterIndex? cs = some rest) :
    ∃ ds, ds ≠ [] ∧ (∀ d ∈ ds, isDecimalDigit d = true) ∧ cs = ds ++ ':' :: rest := by
  rw [afterIndex?] at h
  split at h
  · cases h
  · next hne =>
    split at h
    · next rest' hdrop =>
      obtain rfl := Option.some_inj.mp h
      refine ⟨_, by simpa using hne, fun d hd => List.mem_takeWhile_imp hd, ?_⟩
      rw [← hdrop, List.takeWhile_append_dropWhile]
    · cases h

theorem afterSeparator?_eq_some_iff :
    afterSeparator? cs = some rest ↔
      ∃ ds, ds ≠ [] ∧ (∀ d ∈ ds, isDecimalDigit d = true) ∧ cs = ',' :: (ds ++ ':' :: rest) := by
  constructor
  · intro h
    rw [afterSeparator?.eq_def] at h
    split at h
    · obtain ⟨ds, hne, hds, rfl⟩ := exists_of_afterIndex? h
      exact ⟨ds, hne, hds, rfl⟩
    · cases h
  · rintro ⟨ds, hne, hds, rfl⟩
    exact afterIndex?_digits hne hds rest

theorem afterSeparator?_append (h : afterSeparator? cs = some rest) (more : List Char) :
    afterSeparator? (cs ++ more) = some (rest ++ more) := by
  obtain ⟨ds, hne, hds, rfl⟩ := afterSeparator?_eq_some_iff.mp h
  exact afterSeparator?_eq_some_iff.mpr ⟨ds, hne, hds, by simp⟩

/-- A separator that begins before a quote ends before it. -/
theorem afterSeparator?_quote (h : afterSeparator? (c :: cs) = none) (more : List Char) :
    afterSeparator? (c :: (cs ++ '"' :: more)) = none := by
  rw [Option.eq_none_iff_forall_ne_some]
  intro rest hrest
  obtain ⟨ds, hne, hds, heq⟩ := afterSeparator?_eq_some_iff.mp hrest
  obtain ⟨rfl, hcs⟩ := List.cons.inj heq
  -- the quote is neither among the digits nor the colon
  rcases List.append_eq_append_iff.mp hcs with ⟨as, hds', hmore⟩ | ⟨as, hcs', hrest'⟩
  · cases as with
    | nil => exact absurd (List.cons.inj hmore).1 (by decide)
    | cons a as =>
      obtain ⟨rfl, -⟩ := List.cons.inj hmore
      have := hds '"' (by simp [hds'])
      rw [isDecimalDigit_quote] at this
      cases this
  · cases as with
    | nil => exact absurd (List.cons.inj hrest').1 (by decide)
    | cons a as =>
      obtain ⟨rfl, hrest'⟩ := List.cons.inj hrest'
      have hsome : afterSeparator? (',' :: cs) = some as :=
        afterSeparator?_eq_some_iff.mpr ⟨ds, hne, hds, by rw [hcs']⟩
      rw [hsome] at h
      cases h

theorem afterSeparator?_eq_none (h : c ≠ ',') : afterSeparator? (c :: cs) = none := by
  rw [afterSeparator?.eq_def]
  split
  · next heq => exact absurd (List.cons.inj heq).1 h
  · rfl

/-! ### Cutting a line -/

/-- The pieces of a line that is cut at its separators: each separator that is met from the
left, behind the last one, is cut out. -/
inductive Cut : List Char → List (List Char) → Prop
  | nil : Cut [] [[]]
  | separator {cs rest : List Char} {pieces : List (List Char)} :
      afterSeparator? cs = some rest → Cut rest pieces → Cut cs ([] :: pieces)
  | char {c : Char} {cs piece : List Char} {pieces : List (List Char)} :
      afterSeparator? (c :: cs) = none → Cut cs (piece :: pieces) →
        Cut (c :: cs) ((c :: piece) :: pieces)

theorem Cut.exists_cons (h : Cut cs pieces) : ∃ piece rest, pieces = piece :: rest := by
  cases h <;> exact ⟨_, _, rfl⟩

theorem exists_cut (cs : List Char) : ∃ piece pieces, Cut cs (piece :: pieces) := by
  induction hn : cs.length using Nat.strong_induction_on generalizing cs with
  | _ n ih =>
    cases cs with
    | nil => exact ⟨[], [], .nil⟩
    | cons c cs =>
      cases hsep : afterSeparator? (c :: cs) with
      | none =>
        obtain ⟨piece, pieces, hcut⟩ := ih cs.length (by simp [← hn]) cs rfl
        exact ⟨c :: piece, pieces, .char hsep hcut⟩
      | some rest =>
        obtain ⟨ds, -, -, heq⟩ := afterSeparator?_eq_some_iff.mp hsep
        have hlt : rest.length < n := by
          rw [← hn, heq]
          simp
          omega
        obtain ⟨piece, pieces, hcut⟩ := ih rest.length hlt rest rfl
        exact ⟨[], piece :: pieces, .separator hsep hcut⟩

/-- The pieces go on the current entry one after the other. -/
theorem Cut.entriesLoop_eq (h : Cut cs (piece :: pieces)) {fuel : Nat} (hfuel : cs.length < fuel)
    (entry : List Char) (done : List (List Char)) :
    entriesLoop fuel cs entry done = done.reverse ++ (entry.reverse ++ piece) :: pieces := by
  generalize hps : piece :: pieces = ps at h
  induction h generalizing piece pieces fuel entry done with
  | nil =>
    obtain ⟨rfl, rfl⟩ := List.cons.inj hps
    cases fuel <;> simp [entriesLoop]
  | @separator cs rest ps hsep hcut ih =>
    obtain ⟨rfl, rfl⟩ := List.cons.inj hps
    obtain ⟨ds, -, -, rfl⟩ := afterSeparator?_eq_some_iff.mp hsep
    obtain ⟨fuel, rfl⟩ := Nat.exists_eq_add_one.mpr (Nat.zero_lt_of_lt hfuel)
    obtain ⟨p, ps, rfl⟩ := hcut.exists_cons
    rw [entriesLoop, hsep]
    simp only
    rw [ih (by simp at hfuel; omega) _ _ rfl]
    simp
  | @char c cs p ps hsep _ ih =>
    obtain ⟨rfl, rfl⟩ := List.cons.inj hps
    obtain ⟨fuel, rfl⟩ := Nat.exists_eq_add_one.mpr (Nat.zero_lt_of_lt hfuel)
    rw [entriesLoop, hsep]
    simp only
    rw [ih (by simpa using hfuel) _ _ rfl]
    simp

theorem Cut.entries_eq (h : Cut cs pieces) : entries cs = pieces := by
  obtain ⟨p, ps, rfl⟩ := h.exists_cons
  rw [entries, h.entriesLoop_eq (Nat.lt_succ_self _)]
  rfl

theorem cut_entries (cs : List Char) : Cut cs (entries cs) := by
  obtain ⟨piece, pieces, hcut⟩ := exists_cut cs
  rw [hcut.entries_eq]
  exact hcut

/-! ### Pieces hold no separator -/

theorem holdsSeparator_cons_eq_false :
    holdsSeparator (c :: cs) = false ↔
      afterSeparator? (c :: cs) = none ∧ holdsSeparator cs = false := by
  rw [holdsSeparator, Bool.or_eq_false_iff, Option.isSome_eq_false_iff, Option.isNone_iff_eq_none]

theorem holdsSeparator_of_append (h : holdsSeparator (cs ++ rest) = false) :
    holdsSeparator cs = false := by
  induction cs with
  | nil => rfl
  | cons c cs ih =>
    rw [List.cons_append] at h
    obtain ⟨hhead, htail⟩ := holdsSeparator_cons_eq_false.mp h
    refine holdsSeparator_cons_eq_false.mpr ⟨?_, ih htail⟩
    rw [Option.eq_none_iff_forall_ne_some]
    intro more hmore
    have hsome := afterSeparator?_append hmore rest
    rw [List.cons_append, hhead] at hsome
    cases hsome

/-- The first piece is where the line begins. -/
theorem Cut.exists_append (h : Cut cs (piece :: pieces)) : ∃ more, cs = piece ++ more := by
  generalize hps : piece :: pieces = ps at h
  induction h generalizing piece pieces with
  | nil =>
    obtain ⟨rfl, -⟩ := List.cons.inj hps
    exact ⟨[], rfl⟩
  | @separator cs _ _ _ _ _ =>
    obtain ⟨rfl, -⟩ := List.cons.inj hps
    exact ⟨cs, rfl⟩
  | @char c cs p ps _ _ ih =>
    obtain ⟨rfl, -⟩ := List.cons.inj hps
    obtain ⟨more, rfl⟩ := ih rfl
    exact ⟨more, rfl⟩

/-- A separator in a piece would have been cut out. -/
theorem Cut.holdsSeparator_eq_false (h : Cut cs pieces) :
    ∀ piece ∈ pieces, holdsSeparator piece = false := by
  induction h with
  | nil =>
    intro piece hpiece
    rw [List.mem_singleton.mp hpiece]
    rfl
  | separator _ _ ih =>
    intro piece hpiece
    rcases List.mem_cons.mp hpiece with rfl | hpiece
    · rfl
    · exact ih piece hpiece
  | @char c cs p ps hsep hcut ih =>
    intro piece hpiece
    rcases List.mem_cons.mp hpiece with rfl | hpiece
    · refine holdsSeparator_cons_eq_false.mpr ⟨?_, ih p List.mem_cons_self⟩
      obtain ⟨more, rfl⟩ := hcut.exists_append
      rw [Option.eq_none_iff_forall_ne_some]
      intro rest hrest
      have hsome := afterSeparator?_append hrest more
      rw [List.cons_append, hsep] at hsome
      cases hsome
    · exact ih piece (List.mem_cons_of_mem _ hpiece)

theorem Cut.mem_of_mem (h : Cut cs pieces) : ∀ piece ∈ pieces, ∀ c ∈ piece, c ∈ cs := by
  induction h with
  | nil => simp
  | @separator cs rest pieces hsep _ ih =>
    intro piece hpiece c hc
    rcases List.mem_cons.mp hpiece with rfl | hpiece
    · simp at hc
    · obtain ⟨ds, -, -, rfl⟩ := afterSeparator?_eq_some_iff.mp hsep
      simp [ih piece hpiece c hc]
  | @char d cs p ps _ _ ih =>
    intro piece hpiece c hc
    rcases List.mem_cons.mp hpiece with rfl | hpiece
    · rcases List.mem_cons.mp hc with rfl | hc
      · exact List.mem_cons_self
      · exact List.mem_cons_of_mem _ (ih p List.mem_cons_self c hc)
    · exact List.mem_cons_of_mem _ (ih piece (List.mem_cons_of_mem _ hpiece) c hc)

/-! ### Symbols in quotes -/

/-- A symbol as it stands in a line. -/
def quoted (symbol : List Char) : List Char := '"' :: (symbol ++ ['"'])

theorem unquote?_eq_some_iff : unquote? piece = some symbol ↔ piece = quoted symbol := by
  constructor
  · intro h
    rw [unquote?.eq_def] at h
    split at h
    · next rest =>
      split at h
      · next hlast =>
        obtain rfl := Option.some_inj.mp h
        rw [quoted, List.dropLast_append_getLast? _ hlast]
      · cases h
    · cases h
  · rintro rfl
    simp [quoted, unquote?]

theorem Cut.append_quote (h : holdsSeparator symbol = false) (hcut : Cut cs (piece :: pieces)) :
    Cut (symbol ++ '"' :: cs) ((symbol ++ '"' :: piece) :: pieces) := by
  induction symbol with
  | nil => exact .char (afterSeparator?_eq_none (by decide)) hcut
  | cons c symbol ih =>
    obtain ⟨hhead, htail⟩ := holdsSeparator_cons_eq_false.mp h
    exact .char (afterSeparator?_quote hhead cs) (ih htail)

/-- A symbol in quotes is a piece, up to the separator that follows. -/
theorem Cut.quoted (h : holdsSeparator symbol = false) (hcut : Cut cs ([] :: pieces)) :
    Cut ('"' :: (symbol ++ '"' :: cs)) (quoted symbol :: pieces) :=
  .char (afterSeparator?_eq_none (by decide)) (hcut.append_quote h)

theorem isWritable_iff {symbol : String} :
    isWritable symbol = true ↔
      (∀ c ∈ symbol.toList, c ≠ '\n' ∧ c ≠ '\r') ∧ holdsSeparator symbol.toList = false := by
  simp only [isWritable, Bool.and_eq_true, Bool.not_eq_true', List.contains_eq_mem,
    decide_eq_false_iff_not]
  refine and_congr_left fun _ => ⟨fun h c hc => ?_, fun h => ?_⟩
  · exact ⟨fun hn => h.1 (hn ▸ hc), fun hr => h.2 (hr ▸ hc)⟩
  · exact ⟨fun hn => (h _ hn).1 rfl, fun hr => (h _ hr).2 rfl⟩

/-! ### Rendered lines -/

/-- What stands before a symbol: nothing before the first one. -/
def mark (index : Nat) : List Char :=
  if index = 0 then [] else ',' :: ((toString index).toList ++ [':'])

theorem isDigit_of_mem_toString {index : Nat} (h : c ∈ (toString index).toList) :
    Decimal.isDigit c = true := by
  rw [Nat.toString_eq_ofList_toDigits, String.toList_ofList] at h
  exact Decimal.isDigit_of_mem_toDigits h

theorem afterSeparator?_mark (index : Nat) (rest : List Char) :
    afterSeparator? (mark (index + 1) ++ rest) = some rest := by
  refine afterSeparator?_eq_some_iff.mpr ⟨(toString (index + 1)).toList, ?_, fun d hd => ?_, ?_⟩
  · rw [Nat.toString_eq_ofList_toDigits, String.toList_ofList]
    exact Nat.toDigits_ne_nil
  · exact isDecimalDigit_of_isDigit (isDigit_of_mem_toString hd)
  · simp [mark]

theorem renderFrom_cons_eq_ok_iff {index : Nat} {symbol : String} {symbols : List String} :
    renderFrom index (symbol :: symbols) = .ok cs ↔
      isWritable symbol = true ∧ ∃ rest, renderFrom (index + 1) symbols = .ok rest ∧
        cs = mark index ++ '"' :: (symbol.toList ++ '"' :: rest) := by
  rw [renderFrom]
  cases isWritable symbol with
  | false => simp
  | true =>
    rw [if_neg (by decide), bind_eq_ok_iff]
    simp only [true_and]
    refine exists_congr fun rest => and_congr_right fun _ => ?_
    exact ⟨fun h => (Except.ok.inj h).symm, fun h => congrArg _ h.symm⟩

/-- The line is cut before each symbol but the first one. -/
theorem cut_renderFrom {index : Nat} {symbols : List String}
    (h : renderFrom (index + 1) symbols = .ok cs) :
    Cut cs ([] :: symbols.map fun symbol => quoted symbol.toList) := by
  induction symbols generalizing index cs with
  | nil =>
    obtain rfl := Except.ok.inj h
    exact .nil
  | cons symbol symbols ih =>
    obtain ⟨hwritable, rest, hrest, rfl⟩ := renderFrom_cons_eq_ok_iff.mp h
    exact .separator (afterSeparator?_mark index _)
      (.quoted (isWritable_iff.mp hwritable).2 (ih hrest))

theorem getLast?_renderFrom {index : Nat} {symbols : List String}
    (h : renderFrom index symbols = .ok cs) : ('"' :: cs).getLast? = some '"' := by
  induction symbols generalizing index cs with
  | nil =>
    obtain rfl := Except.ok.inj h
    rfl
  | cons symbol symbols ih =>
    obtain ⟨-, rest, hrest, rfl⟩ := renderFrom_cons_eq_ok_iff.mp h
    rw [← List.cons_append, ← List.cons_append, ← List.append_assoc, List.getLast?_append, ih hrest]
    rfl

/-- Digits and separators hold no line break, and the symbols are checked. -/
theorem ne_break_of_mem_renderFrom {index : Nat} {symbols : List String}
    (h : renderFrom index symbols = .ok cs) : ∀ c ∈ cs, c ≠ '\n' ∧ c ≠ '\r' := by
  induction symbols generalizing index cs with
  | nil =>
    obtain rfl := Except.ok.inj h
    simp
  | cons symbol symbols ih =>
    obtain ⟨hwritable, rest, hrest, rfl⟩ := renderFrom_cons_eq_ok_iff.mp h
    have hmark : ∀ c ∈ mark index, c ≠ '\n' ∧ c ≠ '\r' := by
      intro c hc
      rw [mark] at hc
      split at hc
      · simp at hc
      · simp only [List.mem_cons, List.mem_append, List.not_mem_nil, or_false] at hc
        rcases hc with rfl | hc | rfl
        · decide
        · exact ⟨Decimal.ne_of_isDigit (isDigit_of_mem_toString hc) (by decide),
            Decimal.ne_of_isDigit (isDigit_of_mem_toString hc) (by decide)⟩
        · decide
    intro c hc
    simp only [List.mem_append, List.mem_cons] at hc
    rcases hc with hc | rfl | hc | rfl | hc
    · exact hmark c hc
    · decide
    · exact (isWritable_iff.mp hwritable).1 c hc
    · decide
    · exact ih hrest c hc

theorem exists_renderFrom {symbols : List String} (h : ∀ s ∈ symbols, isWritable s = true)
    (index : Nat) : ∃ cs, renderFrom index symbols = .ok cs := by
  induction symbols generalizing index with
  | nil => exact ⟨[], rfl⟩
  | cons symbol symbols ih =>
    obtain ⟨rest, hrest⟩ := ih (fun s hs => h s (List.mem_cons_of_mem _ hs)) (index + 1)
    exact ⟨_, renderFrom_cons_eq_ok_iff.mpr ⟨h symbol List.mem_cons_self, rest, hrest, rfl⟩⟩

theorem render_eq_ok_iff {symbols : List String} {line : String} :
    render symbols = .ok line ↔
      symbols ≠ [] ∧ ∃ cs, renderFrom 0 symbols = .ok cs ∧ line = String.ofList cs := by
  rw [render]
  cases symbols with
  | nil => simp
  | cons symbol symbols =>
    rw [List.isEmpty_cons, if_neg (by decide), map_eq_ok_iff]
    simp [eq_comm]

/-! ### Parsed lines -/

theorem readEntries_cons_eq_ok_iff {index : Nat} {symbols : List String} :
    readEntries index (piece :: pieces) = .ok symbols ↔
      ∃ symbol rest, piece = quoted symbol ∧ readEntries (index + 1) pieces = .ok rest ∧
        symbols = String.ofList symbol :: rest := by
  rw [readEntries]
  cases hpiece : unquote? piece with
  | none =>
    have : ∀ symbol, piece ≠ quoted symbol := fun symbol h => by
      rw [unquote?_eq_some_iff.mpr h] at hpiece
      cases hpiece
    simp [this]
  | some symbol =>
    obtain rfl := unquote?_eq_some_iff.mp hpiece
    simp only [bind_eq_ok_iff]
    constructor
    · rintro ⟨rest, hrest, h⟩
      exact ⟨symbol, rest, rfl, hrest, (Except.ok.inj h).symm⟩
    · rintro ⟨symbol', rest, heq, hrest, rfl⟩
      obtain rfl : symbol' = symbol := by
        rw [unquote?_eq_some_iff.mpr heq] at hpiece
        exact Option.some_inj.mp hpiece
      exact ⟨rest, hrest, rfl⟩

theorem readEntries_quoted (index : Nat) (symbols : List String) :
    readEntries index (symbols.map fun symbol => quoted symbol.toList) = .ok symbols := by
  induction symbols generalizing index with
  | nil => rfl
  | cons symbol symbols ih =>
    exact readEntries_cons_eq_ok_iff.mpr
      ⟨symbol.toList, symbols, rfl, ih _, by rw [String.ofList_toList]⟩

/-- What is read stands in quotes. -/
theorem eq_map_quoted_of_readEntries {index : Nat} {symbols : List String}
    (h : readEntries index pieces = .ok symbols) :
    pieces = symbols.map fun symbol => quoted symbol.toList := by
  induction pieces generalizing index symbols with
  | nil =>
    obtain rfl := Except.ok.inj h
    rfl
  | cons piece pieces ih =>
    obtain ⟨symbol, rest, rfl, hrest, rfl⟩ := readEntries_cons_eq_ok_iff.mp h
    rw [List.map_cons, String.toList_ofList, ← ih hrest]

/-- A line that begins and ends with a quote is cut as it stands: nothing is stripped, and no
index is in front. -/
theorem parse_of_cut {symbols : List String} (hhead : cs.head? = some '"')
    (hlast : cs.getLast? = some '"')
    (hcut : Cut cs (symbols.map fun symbol => quoted symbol.toList)) :
    parse (String.ofList cs) = .ok symbols := by
  obtain ⟨rest, rfl⟩ : ∃ rest, cs = '"' :: rest := by
    cases cs with
    | nil => cases hhead
    | cons c rest =>
      obtain rfl := Option.some_inj.mp hhead
      exact ⟨rest, rfl⟩
  have hquote : ∀ c, some '"' = some c → isBlank c = false := by
    intro c hc
    obtain rfl := Option.some_inj.mp hc
    decide
  have htrim : trimBy isBlank ('"' :: rest) = '"' :: rest :=
    trimBy_eq_self hquote fun c hc => hquote c (hlast.symm.trans hc)
  have hindex : afterIndex? ('"' :: rest) = none := by
    rw [afterIndex?, List.takeWhile_cons, isDecimalDigit_quote]
    rfl
  rw [parse, String.toList_ofList]
  simp only [htrim, hindex, Option.getD_none, hcut.entries_eq, readEntries_quoted]
  rfl

theorem parse_render {symbols : List String} {line : String} (h : render symbols = .ok line) :
    parse line = .ok symbols := by
  obtain ⟨hne, cs, hcs, rfl⟩ := render_eq_ok_iff.mp h
  obtain ⟨symbol, symbols, rfl⟩ := List.exists_cons_of_ne_nil hne
  obtain ⟨hwritable, rest, hrest, heq⟩ := renderFrom_cons_eq_ok_iff.mp hcs
  replace heq : cs = '"' :: (symbol.toList ++ '"' :: rest) := heq
  subst heq
  refine parse_of_cut rfl ?_ (.quoted (isWritable_iff.mp hwritable).2 (cut_renderFrom hrest))
  rw [← List.cons_append, List.getLast?_append, getLast?_renderFrom hrest]
  rfl

theorem mem_of_mem_afterIndex? (h : c ∈ (afterIndex? cs).getD cs) : c ∈ cs := by
  cases hindex : afterIndex? cs with
  | none => rwa [hindex] at h
  | some rest =>
    rw [hindex, Option.getD_some] at h
    obtain ⟨ds, -, -, rfl⟩ := exists_of_afterIndex? hindex
    simp [h]

/-- What stands in quotes between separators can be written. -/
theorem Cut.isWritable (h : Cut cs pieces) (hcs : ∀ c ∈ cs, c ≠ '\n' ∧ c ≠ '\r')
    {symbol : String} (hpiece : SymbolTable.quoted symbol.toList ∈ pieces) :
    isWritable symbol = true := by
  refine isWritable_iff.mpr ⟨fun c hc => hcs c (h.mem_of_mem _ hpiece c ?_), ?_⟩
  · simp [SymbolTable.quoted, hc]
  · have hsep := h.holdsSeparator_eq_false _ hpiece
    exact holdsSeparator_of_append (holdsSeparator_cons_eq_false.mp hsep).2

theorem exists_render_of_parse {symbols : List String} {line : String}
    (hline : ∀ c ∈ line.toList, c ≠ '\n' ∧ c ≠ '\r') (h : parse line = .ok symbols) :
    ∃ header, render symbols = .ok header := by
  rw [parse] at h
  split at h
  · cases h
  · have hpieces := eq_map_quoted_of_readEntries h
    have hcut := cut_entries
      ((afterIndex? (trimBy isBlank line.toList)).getD (trimBy isBlank line.toList))
    have hwritable : ∀ s ∈ symbols, isWritable s = true := by
      intro s hs
      refine hcut.isWritable (fun c hc => hline c ?_) (hpieces ▸ List.mem_map_of_mem hs)
      exact mem_of_mem_trimBy (mem_of_mem_afterIndex? hc)
    have hne : symbols ≠ [] := by
      rintro rfl
      obtain ⟨piece, rest, hcons⟩ := hcut.exists_cons
      rw [hpieces] at hcons
      cases hcons
    obtain ⟨out, hout⟩ := exists_renderFrom hwritable 0
    exact ⟨String.ofList out, render_eq_ok_iff.mpr ⟨hne, out, hout, rfl⟩⟩

end SymbolTable

namespace StringTree

open SymbolTable

/-- A header line has no line break and gives the table back, and the table of a line
without line breaks has a header line. -/
theorem header_and_parse :
    (∀ (t : StringTree) (line : String), t.header = .ok line →
      (∀ c ∈ line.toList, c ≠ '\n' ∧ c ≠ '\r') ∧ parse line = .ok t.symbols) ∧
    ∀ (line : String) (symbols : List String), (∀ c ∈ line.toList, c ≠ '\n' ∧ c ≠ '\r') →
      parse line = .ok symbols →
        ∀ tree : Cart, ∃ header, (⟨tree, symbols⟩ : StringTree).header = .ok header := by
  refine ⟨fun t line h => ⟨?_, parse_render h⟩, fun line symbols hline h _ => ?_⟩
  · obtain ⟨-, cs, hcs, rfl⟩ := render_eq_ok_iff.mp h
    rw [String.toList_ofList]
    exact ne_break_of_mem_renderFrom hcs
  · exact exists_render_of_parse hline h

/-- Symbols that look like what stands between two of them: quotes, a separator without its
digits, one without its colon, and a quote with an index behind it. -/
def nearSeparators : StringTree :=
  ⟨Cart.empty Schema.empty, ["", "\"", "\",", ",:", "a,1", "1:\"b\",x", "\"\",2"]⟩

theorem header_and_parse_nearSeparators :
    (∃ line, nearSeparators.header = .ok line ∧
      line = "\"\",1:\"\"\",2:\"\",\",3:\",:\",4:\"a,1\",5:\"1:\"b\",x\",6:\"\"\",2\"" ∧
      (∀ c ∈ line.toList, c ≠ '\n' ∧ c ≠ '\r') ∧ parse line = .ok nearSeparators.symbols) ∧
    parse " 07:\"a,\",٣:\"\"0:\",12:\"\"\t" = .ok ["a,", "\"0:", ""] ∧
    ∃ header, (⟨nearSeparators.tree, ["a,", "\"0:", ""]⟩ : StringTree).header = .ok header := by
  have hheader : nearSeparators.header =
      .ok "\"\",1:\"\"\",2:\"\",\",3:\",:\",4:\"a,1\",5:\"1:\"b\",x\",6:\"\"\",2\"" := by
    decide +kernel
  have hparse : parse " 07:\"a,\",٣:\"\"0:\",12:\"\"\t" = .ok ["a,", "\"0:", ""] := by
    decide +kernel
  have hline : " 07:\"a,\",٣:\"\"0:\",12:\"\"\t".toList.all
      (fun c => c != '\n' && c != '\r') = true := by
    decide +kernel
  have hbreaks : ∀ c ∈ " 07:\"a,\",٣:\"\"0:\",12:\"\"\t".toList, c ≠ '\n' ∧ c ≠ '\r' := by
    intro c hc
    simpa using List.all_eq_true.mp hline c hc
  exact ⟨⟨_, hheader, rfl, header_and_parse.1 _ _ hheader⟩, hparse,
    header_and_parse.2 _ _ hbreaks hparse nearSeparators.tree⟩

end StringTree

end FeatureTree
