/-
Leaves can be read back from their records.

A record is a list of tokens with brackets around them, whatever the leaf holds, and
the brackets that close decisions come after its last token.

* `Payload.reread` — what a record keeps of a payload;
* `Payload.Legible` — weights and deviations that can be read back;
* `Wagon.recordTokens`, `Wagon.toList_leafText` — the tokens of a record;
* `Wagon.parseLeaf_record` — the payload of a record;
* `Wagon.closeAfterLeaf_record`, `Wagon.exists_body` — the decisions that it closes, and
  how it begins.
-/
import FeatureTree.Format.Wagon.Writer
import FeatureTree.Proofs.Text.Tokens

namespace FeatureTree

open Text

/-- The distribution with one NaN for all. -/
def Gaussian.canonical (g : Gaussian) : Gaussian := ⟨g.stddev.canonical, g.mean.canonical⟩

namespace Payload

/-- What a record keeps of a payload: no feature vectors, and no feature of symbols. -/
def reread (symbol : Option Nat) : Payload → Payload
  | gaussian g => gaussian g.canonical
  | weightedSymbols s => weightedSymbols ⟨s.entries, symbol⟩
  | featureVectors _ => featureVectors []
  | p => p

@[simp] theorem kind_reread (symbol : Option Nat) (p : Payload) :
    (p.reread symbol).kind = p.kind := by
  cases p <;> rfl

/-- No weight is NaN or plus infinity, and no standard deviation is plus infinity. -/
structure Legible (p : Payload) : Prop where
  weights : ∀ w, p.weighted? = some w → ∀ e ∈ w.entries,
    e.2.isNaN = false ∧ e.2 ≠ Floating.infinity false
  stddev : ∀ g, p = .gaussian g → g.stddev ≠ Floating.infinity false

end Payload

namespace WagonKind

theorem leafKind_injective : Function.Injective leafKind := by
  intro k l h
  cases k <;> cases l <;> first | rfl | exact absurd h (by decide)

theorem leafKind_ne_pdf (k : WagonKind) : k.leafKind ≠ .pdf := by
  cases k <;> decide

end WagonKind

namespace Wagon

open Assembly

variable {line n k : Nat} {symbol : Option Nat} {kind : WagonKind} {p : Payload}
  {written : String}

/-! ### Entries -/

/-- An entry of a list: the index, and the weight as it is written and as it is read. -/
structure Entry where
  index : Int32
  token : String
  weight : Single

namespace Entry

/-- The text of an entry. -/
def text (e : Entry) : String := "(" ++ toString e.index.toInt ++ " " ++ e.token ++ ")"

/-- The weight is read as what it is, wherever the entry stands. -/
structure Reads (e : Entry) : Prop where
  token : IsToken e.token.toList
  weight : ∀ line isLast, parseWeight line isLast e.token.toList = .ok e.weight

/-- An entry whose weight does not matter. -/
def ofIndex (i : Int32) : Entry := ⟨i, "0", Floating.zero⟩

/-- An entry with its weight. -/
def ofPair (e : Int32 × Single) : Entry := ⟨e.1, e.2.renderLower, e.2⟩

theorem reads_ofIndex (i : Int32) : (ofIndex i).Reads where
  token := ⟨by simp [ofIndex]; decide, by simp [ofIndex]⟩
  weight := by
    intro line isLast
    have hzero : (Floating.parse? "0" : Option Single) = some Floating.zero := by decide +kernel
    simp only [ofIndex, parseWeight, String.ofList_toList, hzero]
    rfl

theorem reads_ofPair {e : Int32 × Single} (hnan : e.2.isNaN = false)
    (hinf : e.2 ≠ Floating.infinity false) : (ofPair e).Reads where
  token := isToken_renderLower e.2
  weight := by
    intro line isLast
    have hhead : e.2.renderLower ≠ "nan" ∧ e.2.renderLower ≠ "inf" := by
      rcases Floating.exists_renderLower_head hinf with ⟨h, -⟩ | ⟨-, c, cs, hcs, hc⟩
      · rw [hnan] at h
        simp at h
      · have hne : c ≠ 'n' ∧ c ≠ 'i' := by
          rcases hc with hc | rfl
          · exact ⟨Decimal.ne_of_isDigit hc (by decide), Decimal.ne_of_isDigit hc (by decide)⟩
          · decide
        constructor
        · intro heq
          rw [heq] at hcs
          exact hne.1 (List.cons.inj hcs).1.symm
        · intro heq
          rw [heq] at hcs
          exact hne.2 (List.cons.inj hcs).1.symm
    rw [ofPair, parseWeight]
    simp only [String.ofList_toList, if_neg hhead.1, if_neg hhead.2, Floating.parse?_renderLower,
      Floating.canonical, hnan, Bool.false_eq_true, if_false]

end Entry

/-- The tokens of entries after this many opening brackets; the last entry also closes
the list. -/
def entryTokens : Nat → List Entry → List (List Char)
  | k, [] => [bracketed k [] 1]
  | k, [e] => [bracketed (k + 1) (toString e.index.toInt).toList 0, bracketed 0 e.token.toList 2]
  | k, e :: e' :: es =>
    bracketed (k + 1) (toString e.index.toInt).toList 0 :: bracketed 0 e.token.toList 1 ::
      entryTokens 0 (e' :: es)

theorem Entry.toList_text (e : Entry) :
    e.text.toList = '(' :: (toString e.index.toInt).toList ++ ' ' :: e.token.toList ++ [')'] := by
  simp only [Entry.text, String.toList_append, List.append_assoc]
  rfl

theorem entryTokens_cons_cons (k : Nat) (e : Entry) {es : List Entry} (hne : es ≠ []) :
    entryTokens k (e :: es) =
      bracketed (k + 1) (toString e.index.toInt).toList 0 :: bracketed 0 e.token.toList 1 ::
        entryTokens 0 es := by
  obtain ⟨e', es, rfl⟩ := List.exists_cons_of_ne_nil hne
  rw [entryTokens]

theorem entryTokens_ne_nil (k : Nat) (es : List Entry) : entryTokens k es ≠ [] := by
  cases es with
  | nil => simp [entryTokens]
  | cons e es => cases es <;> simp [entryTokens]

theorem toList_entries (k : Nat) (es : List Entry) :
    List.replicate k '(' ++ (joinWith " " (es.map Entry.text)).toList ++ [')'] =
      [' '].intercalate (entryTokens k es) := by
  have hopen : ∀ (k : Nat) (cs : List Char),
      List.replicate k '(' ++ '(' :: cs = List.replicate (k + 1) '(' ++ cs := by
    intro k cs
    rw [List.replicate_succ', List.append_assoc]
    rfl
  rw [joinWith, String.toList_intercalate, List.map_map]
  show List.replicate k '(' ++ [' '].intercalate _ ++ _ = _
  -- the brackets that open the list belong to its first entry
  induction es generalizing k with
  | nil =>
    rw [entryTokens, List.map_nil, List.intercalate_nil, List.intercalate_singleton]
    rfl
  | cons e es ih =>
    cases es with
    | nil =>
      rw [entryTokens, List.map_cons, List.map_nil, List.intercalate_singleton,
        List.intercalate_cons_cons, List.intercalate_singleton, Function.comp, e.toList_text]
      simp only [List.append_assoc, List.cons_append, hopen, bracketed]
      rfl
    | cons e' es =>
      have hrest := ih 0
      rw [List.map_cons, List.replicate_zero, List.nil_append] at hrest
      rw [entryTokens_cons_cons k e (by simp), List.map_cons, List.map_cons,
        List.intercalate_cons_cons, List.intercalate_cons_cons,
        List.intercalate_cons_of_ne_nil (entryTokens_ne_nil 0 _), ← hrest, Function.comp,
        e.toList_text]
      simp only [List.append_assoc, List.cons_append, hopen, bracketed]
      rfl

theorem parsePairs_cons {e : Entry} (h : e.Reads) (m : Nat) (rest : List (List Char)) :
    parsePairs line (m + 1) (bracketed (k + 1) (toString e.index.toInt).toList 0 ::
        bracketed 0 e.token.toList n :: rest) =
      (parsePairs line m rest).map fun pairs => (e.index, e.weight) :: pairs := by
  have hindex := dropOpening_bracketed (k := k + 1) (isToken_int e.index.toInt)
  rw [parsePairs, hindex, String.ofList_toList, Numeral.int32?_toString]
  simp only [trimClosing_bracketed h.token, h.weight, bind, Except.bind, pure, Except.pure]
  cases parsePairs line m rest <;> rfl

/-- The entries are read off their tokens. -/
theorem parsePairs_entryTokens {es : List Entry} (h : ∀ e ∈ es, e.Reads) (hne : es ≠ [])
    (rest : List (List Char)) :
    parsePairs line es.length (entryTokens k es ++ rest) =
      .ok (es.map fun e => (e.index, e.weight)) := by
  induction es generalizing k with
  | nil => exact absurd rfl hne
  | cons e es ih =>
    have he := h e List.mem_cons_self
    cases es with
    | nil =>
      show parsePairs line (0 + 1) (_ :: _ :: rest) = _
      rw [parsePairs_cons he, parsePairs]
      · rfl
      · simp
    | cons e' es =>
      have hrest := ih (k := 0) (fun x hx => h x (List.mem_cons_of_mem _ hx)) (by simp)
      rw [entryTokens_cons_cons k e (by simp)]
      show parsePairs line ((e' :: es).length + 1) (_ :: _ :: (_ ++ rest)) = _
      rw [parsePairs_cons he, hrest]
      rfl

theorem length_entryTokens {es : List Entry} (hne : es ≠ []) :
    (entryTokens k es).length = 2 * es.length := by
  induction es generalizing k with
  | nil => exact absurd rfl hne
  | cons e es ih =>
    cases es with
    | nil => rfl
    | cons e' es =>
      rw [entryTokens_cons_cons k e (by simp), List.length_cons, List.length_cons,
        ih (by simp), List.length_cons (a := e)]
      omega

/-! ### Records -/

/-- The tokens of a list that closes this many decisions. -/
def listTokens (n : Nat) (es : List Entry) : List (List Char) :=
  entryTokens 3 es ++ [bracketed 0 ['0'] (n + 2)]

/-- The tokens of a record that closes this many decisions. -/
def recordTokens (n : Nat) : Payload → List (List Char)
  | .indices data => listTokens n (data.map .ofIndex)
  | .gaussian g =>
    [bracketed 2 g.stddev.renderLower.toList 0, bracketed 0 g.mean.renderLower.toList (n + 2)]
  | .weightedIndices w => listTokens n (w.entries.map .ofPair)
  | .weightedSymbols s => listTokens n (s.entries.entries.map .ofPair)
  | .featureVectors _ => listTokens n []
  | .pdf _ => []

theorem toList_pairsText (es : List Entry) (n : Nat) :
    (pairsText (es.map Entry.text)).toList ++ List.replicate n ')' =
      [' '].intercalate (listTokens n es) := by
  rw [listTokens, intercalate_concat (entryTokens_ne_nil 3 es), ← toList_entries, pairsText]
  simp only [String.toList_append, List.append_assoc]
  rfl

theorem toList_leafText (h : leafText p = .ok written) (n : Nat) :
    (written ++ closing n).toList = [' '].intercalate (recordTokens n p) := by
  have hclosing : (closing n).toList = List.replicate n ')' := String.toList_ofList
  rw [String.toList_append, hclosing]
  cases p with
  | indices data =>
    have htext : data.map (fun i => "(" ++ toString i.toInt ++ " 0)") =
        (data.map Entry.ofIndex).map Entry.text := by
      rw [List.map_map]
      refine List.map_congr_left fun i _ => ?_
      rw [Function.comp, Entry.text, String.append_assoc, String.append_assoc,
        String.append_assoc]
      rfl
    obtain rfl := Except.ok.inj h
    rw [recordTokens, ← toList_pairsText, htext]
  | gaussian g =>
    obtain rfl := Except.ok.inj h
    rw [recordTokens, List.intercalate_cons_cons, List.intercalate_singleton]
    simp only [String.toList_append, List.append_assoc, bracketed, List.replicate_zero,
      List.nil_append]
    rfl
  | weightedIndices w =>
    obtain rfl := Except.ok.inj h
    rw [recordTokens, ← toList_pairsText, List.map_map]
    rfl
  | weightedSymbols s =>
    obtain rfl := Except.ok.inj h
    rw [recordTokens, ← toList_pairsText, List.map_map]
    rfl
  | featureVectors vectors =>
    obtain rfl := Except.ok.inj h
    rw [recordTokens, ← toList_pairsText]
    rfl
  | pdf p => simp [leafText] at h

/-- A leaf of the right kind has a record. -/
theorem exists_leafText (hkind : p.kind = kind.leafKind) : ∃ written, leafText p = .ok written := by
  cases p with
  | pdf p => exact absurd hkind (kind.leafKind_ne_pdf ·.symm)
  | _ => exact ⟨_, rfl⟩

/-! ### The tokens of a record -/

theorem reads_of_index {data : List Int32} : ∀ e ∈ data.map Entry.ofIndex, e.Reads := by
  intro e he
  obtain ⟨i, -, rfl⟩ := List.mem_map.mp he
  exact Entry.reads_ofIndex i

theorem reads_of_weighted {w : WeightedIndices} (hl : p.Legible) (hw : p.weighted? = some w) :
    ∀ e ∈ w.entries.map Entry.ofPair, e.Reads := by
  intro e he
  obtain ⟨x, hx, rfl⟩ := List.mem_map.mp he
  obtain ⟨hnan, hinf⟩ := hl.weights w hw x hx
  exact Entry.reads_ofPair hnan hinf

/-- A token with some bracket around it. -/
def IsBracketed (t : List Char) : Prop :=
  ∃ k w n, t = bracketed k w n ∧ IsToken w ∧ 0 < k + n

theorem isBracketed_entryTokens {es : List Entry} (h : ∀ e ∈ es, e.Reads) :
    ∀ t ∈ entryTokens k es, IsBracketed t := by
  induction es generalizing k with
  | nil =>
    intro t ht
    rw [entryTokens, List.mem_singleton] at ht
    exact ⟨k, [], 1, ht, ⟨by simp, by simp⟩, Nat.succ_pos k⟩
  | cons e es ih =>
    have he := h e List.mem_cons_self
    have hrest := ih (k := 0) fun x hx => h x (List.mem_cons_of_mem _ hx)
    have hindex := isToken_int e.index.toInt
    cases es with
    | nil =>
      intro t ht
      rcases List.mem_cons.mp ht with rfl | ht
      · exact ⟨_, _, _, rfl, hindex, Nat.succ_pos k⟩
      · rw [List.mem_singleton.mp ht]
        exact ⟨_, _, _, rfl, he.token, by decide⟩
    | cons e' es =>
      rw [entryTokens_cons_cons k e (by simp)]
      intro t ht
      rcases List.mem_cons.mp ht with rfl | ht
      · exact ⟨_, _, _, rfl, hindex, Nat.succ_pos k⟩
      · rcases List.mem_cons.mp ht with rfl | ht
        · exact ⟨_, _, _, rfl, he.token, by decide⟩
        · exact hrest t ht

theorem isToken_zero : IsToken ['0'] := ⟨solid_of_all (by decide), by simp⟩

theorem isBracketed_listTokens {es : List Entry} (h : ∀ e ∈ es, e.Reads) :
    ∀ t ∈ listTokens n es, IsBracketed t := by
  intro t ht
  rcases List.mem_append.mp ht with ht | ht
  · exact isBracketed_entryTokens h t ht
  · rw [List.mem_singleton.mp ht]
    exact ⟨_, _, _, rfl, isToken_zero, by omega⟩

theorem isBracketed_gaussian (g : Gaussian) :
    ∀ t ∈ recordTokens n (.gaussian g), IsBracketed t := by
  intro t ht
  rcases List.mem_cons.mp ht with rfl | ht
  · exact ⟨_, _, _, rfl, isToken_renderLower _, by decide⟩
  · rw [List.mem_singleton.mp ht]
    exact ⟨_, _, _, rfl, isToken_renderLower _, by omega⟩

/-- Tokens with brackets around them are one line. -/
theorem lineFeed_not_mem_intercalate {ts : List (List Char)} (h : ∀ t ∈ ts, IsBracketed t) :
    '\n' ∉ [' '].intercalate ts := by
  intro hmem
  rcases mem_intercalate hmem with hmem | ⟨t, ht, hmem⟩
  · exact absurd hmem (by decide)
  · obtain ⟨k, w, m, rfl, hw, -⟩ := h t ht
    exact absurd (solid_bracketed hw _ hmem) (by decide)

section

variable (hl : p.Legible)
include hl

theorem isBracketed_recordTokens : ∀ t ∈ recordTokens n p, IsBracketed t := by
  cases p with
  | indices data => exact isBracketed_listTokens reads_of_index
  | gaussian g => exact isBracketed_gaussian g
  | weightedIndices w => exact isBracketed_listTokens (reads_of_weighted hl rfl)
  | weightedSymbols s => exact isBracketed_listTokens (reads_of_weighted hl rfl)
  | featureVectors vectors => exact isBracketed_listTokens (by simp)
  | pdf p => simp [recordTokens]

theorem words_record : words ([' '].intercalate (recordTokens n p)) = recordTokens n p := by
  refine words_intercalate fun t ht => ?_
  obtain ⟨k, w, m, rfl, hw, hpos⟩ := isBracketed_recordTokens hl t ht
  exact ⟨bracketed_ne_nil hpos, solid_bracketed hw⟩

theorem replaceAll_record :
    replaceAll [')', '('] [')', ' ', '('] ([' '].intercalate (recordTokens n p)) =
      [' '].intercalate (recordTokens n p) := by
  refine (noReopening_intercalate fun t ht => ?_).replaceAll_eq
  obtain ⟨k, w, m, rfl, hw, -⟩ := isBracketed_recordTokens hl t ht
  exact noReopening_bracketed hw

/-- A record is a line by itself. -/
theorem lineFeed_not_mem_record : '\n' ∉ [' '].intercalate (recordTokens n p) :=
  lineFeed_not_mem_intercalate (isBracketed_recordTokens hl)

end

/-! ### The payload of a record -/

/-- The entries of a list are read off its tokens. -/
theorem parseEntries_listTokens {es : List Entry} (h : ∀ e ∈ es, e.Reads) :
    parseEntries line (listTokens n es) = .ok ⟨es.map fun e => (e.index, e.weight)⟩ := by
  cases es with
  | nil => rfl
  | cons e es =>
    have hlength : (listTokens n (e :: es)).length = 2 * (e :: es).length + 1 := by
      rw [listTokens, List.length_append, length_entryTokens (by simp), List.length_singleton]
    have hlong : ¬ 2 * (e :: es).length + 1 ≤ 2 := by
      rw [List.length_cons]
      omega
    have hhalf : (2 * (e :: es).length + 1 - 1) / 2 = (e :: es).length := by omega
    rw [parseEntries, hlength, if_neg hlong, hhalf, listTokens,
      parsePairs_entryTokens h (by simp)]
    rfl

theorem map_ofPair (es : List (Int32 × Single)) :
    ((es.map Entry.ofPair).map fun e => (e.index, e.weight)) = es := by
  rw [List.map_map]
  exact List.map_id es

theorem numberOrZero_renderLower (x : Single) :
    numberOrZero x.renderLower.toList = x.canonical := by
  rw [numberOrZero, String.ofList_toList, Floating.parse?_renderLower]
  rfl

theorem parseGaussian_tokens (g : Gaussian) :
    parseGaussian line [bracketed 2 g.stddev.renderLower.toList 0,
      bracketed 0 g.mean.renderLower.toList (n + 2)] = .ok g.canonical := by
  have hstddev := dropOpening_bracketed (k := 2) (isToken_renderLower g.stddev)
  have hmean := takeWhile_bracketed (n := n + 2) (isToken_renderLower g.mean)
  have hcount : closingCount (bracketed 0 g.mean.renderLower.toList (n + 2)) = n + 2 := by
    refine runLength_append_replicate (n + 2) fun h => ?_
    exact ((isToken_renderLower g.mean).plain _ (List.mem_of_getLast? h)).2.1 rfl
  have hclosed : ¬ n + 2 < 2 := by omega
  simp only [parseGaussian, hcount, if_neg hclosed, hstddev, hmean, numberOrZero_renderLower]
  rfl

/-- The payload of a record. -/
theorem parseLeaf_record (hkind : p.kind = kind.leafKind) (hl : p.Legible) :
    parseLeaf kind symbol line ([' '].intercalate (recordTokens n p)) = .ok (p.reread symbol) := by
  rw [parseLeaf.eq_def, replaceAll_record hl]
  simp only [words_record hl]
  cases p with
  | indices data =>
    obtain rfl : kind = .classification := WagonKind.leafKind_injective hkind.symm
    have hindices : (⟨(data.map Entry.ofIndex).map fun e => (e.index, e.weight)⟩ :
        WeightedIndices).indices = data := by
      rw [WeightedIndices.indices, List.map_map, List.map_map]
      exact List.map_id data
    simp only [recordTokens, parseEntries_listTokens reads_of_index, bind, Except.bind, hindices]
    rfl
  | gaussian g =>
    obtain rfl : kind = .regression := WagonKind.leafKind_injective hkind.symm
    simp only [recordTokens, parseGaussian_tokens, bind, Except.bind]
    rfl
  | weightedIndices w =>
    obtain rfl : kind = .extendedClassification := WagonKind.leafKind_injective hkind.symm
    have hw := reads_of_weighted hl rfl
    simp only [recordTokens, parseEntries_listTokens hw, map_ofPair, bind, Except.bind]
    rfl
  | weightedSymbols s =>
    obtain rfl : kind = .stringCart := WagonKind.leafKind_injective hkind.symm
    have hw := reads_of_weighted hl rfl
    simp only [recordTokens, parseEntries_listTokens hw, map_ofPair, bind, Except.bind]
    rfl
  | featureVectors vectors =>
    obtain rfl : kind = .topLevel := WagonKind.leafKind_injective hkind.symm
    rfl
  | pdf p => exact absurd hkind (kind.leafKind_ne_pdf ·.symm)

/-! ### The line of a record -/

/-- A record ends in a number and the brackets after it. -/
theorem exists_last_token (hkind : p.kind = kind.leafKind) :
    ∃ front w, recordTokens n p = front ++ [bracketed 0 w (n + 2)] ∧ IsToken w := by
  cases p with
  | indices data => exact ⟨_, _, rfl, isToken_zero⟩
  | gaussian g => exact ⟨[_], _, rfl, isToken_renderLower _⟩
  | weightedIndices w => exact ⟨_, _, rfl, isToken_zero⟩
  | weightedSymbols s => exact ⟨_, _, rfl, isToken_zero⟩
  | featureVectors vectors => exact ⟨_, _, rfl, isToken_zero⟩
  | pdf p => exact absurd hkind (kind.leafKind_ne_pdf ·.symm)

/-- The brackets after those of a record close decisions. -/
theorem closeAfterLeaf_record (a : Assembly) (hkind : p.kind = kind.leafKind) (hl : p.Legible) :
    a.closeAfterLeaf line ([' '].intercalate (recordTokens n p)) =
      close line a (List.replicate n ')') := by
  obtain ⟨front, w, hlast, hw⟩ := exists_last_token (n := n) hkind
  rw [closeAfterLeaf, words_record hl, hlast, List.getLastD_concat, dropWhile_bracketed hw]
  rfl

theorem getLast?_record (hkind : p.kind = kind.leafKind) :
    ([' '].intercalate (recordTokens n p)).getLast? = some ')' := by
  obtain ⟨front, w, hlast, -⟩ := exists_last_token (n := n) hkind
  have hend : (bracketed 0 w (n + 2)).getLast? = some ')' := by
    rw [bracketed, List.replicate_succ', ← List.append_assoc, List.getLast?_concat]
  rw [hlast]
  by_cases hne : front = []
  · rw [hne, List.nil_append, List.intercalate_singleton, hend]
  · rw [intercalate_concat hne, List.getLast?_append, List.getLast?_cons, hend]
    rfl

theorem isAlphabetic_eq_false {c : Char} (h : c.toNat < 65) : isAlphabetic c = false := by
  have hlow : ∀ r ∈ alphabeticRanges, 65 ≤ r.1 := by decide +kernel
  refine List.any_eq_false.mpr fun r hr => ?_
  have := hlow r hr
  simp only [Bool.and_eq_true, decide_eq_true_eq, not_and]
  omega

theorem isDecision_eq_false {body : List Char} (h : ∀ c, body.head? = some c → c.toNat < 65) :
    isDecision body = false := by
  cases body with
  | nil => rfl
  | cons c body =>
    rw [isDecision, List.head?_cons, Option.any_some, isAlphabetic_eq_false (h c rfl)]
    rfl

theorem exists_body_list (n : Nat) (es : List Entry) :
    ∃ rest, [' '].intercalate (listTokens n es) = '(' :: '(' :: '(' :: rest := by
  rw [← toList_pairsText, pairsText]
  simp only [String.toList_append, List.append_assoc]
  exact ⟨_, rfl⟩

theorem record_gaussian (g : Gaussian) (n : Nat) :
    [' '].intercalate (recordTokens n (.gaussian g)) = '(' :: '(' ::
      (g.stddev.renderLower.toList ++ ' ' :: bracketed 0 g.mean.renderLower.toList (n + 2)) := by
  rw [recordTokens, List.intercalate_cons_cons, List.intercalate_singleton]
  simp only [bracketed, List.replicate_zero, List.append_nil, List.append_assoc]
  rfl

/-- After its opening brackets a record does not look like a decision, and only the
record of a list has another bracket there. -/
theorem exists_body (hkind : p.kind = kind.leafKind) (hl : p.Legible) (n : Nat) :
    ∃ body, [' '].intercalate (recordTokens n p) = '(' :: '(' :: body ∧
      isDecision body = false ∧ (kind = .regression → body.head? ≠ some '(') := by
  have hlist : ∀ es, kind ≠ .regression → ∃ body,
      [' '].intercalate (listTokens n es) = '(' :: '(' :: body ∧ isDecision body = false ∧
        (kind = .regression → body.head? ≠ some '(') := by
    intro es hne
    obtain ⟨rest, hrest⟩ := exists_body_list n es
    refine ⟨'(' :: rest, hrest, isDecision_eq_false fun c hc => ?_, fun h => absurd h hne⟩
    obtain rfl : '(' = c := by simpa using hc
    decide
  -- only a regression tree has leaves that are not lists
  have hne : p.kind ≠ .gaussian → kind ≠ .regression := by
    rintro h rfl
    exact h hkind
  cases p with
  | indices data => exact hlist _ (hne (by simp [Payload.kind]))
  | gaussian g =>
    refine ⟨_, record_gaussian g n, ?_⟩
    -- `nan` is the one number that begins with a letter, and no decision begins so
    rcases Floating.exists_renderLower_head (hl.stddev g rfl) with ⟨-, hnan⟩ | ⟨-, c, cs, hcs, hc⟩
    · rw [hnan]
      exact ⟨rfl, fun _ h => absurd (Option.some_inj.mp h) (by decide)⟩
    · have hlow : c.toNat < 65 ∧ c ≠ '(' := by
        rcases hc with hc | rfl
        · have := Decimal.toNat_of_isDigit hc
          exact ⟨by omega, Decimal.ne_of_isDigit hc (by decide)⟩
        · decide
      rw [hcs]
      constructor
      · refine isDecision_eq_false fun a ha => ?_
        obtain rfl : c = a := Option.some_inj.mp ha
        exact hlow.1
      · exact fun _ h => hlow.2 (Option.some_inj.mp h)
  | weightedIndices w => exact hlist _ (hne (by simp [Payload.kind]))
  | weightedSymbols s => exact hlist _ (hne (by simp [Payload.kind]))
  | featureVectors vectors => exact hlist _ (hne (by simp [Payload.kind]))
  | pdf p => exact absurd hkind (kind.leafKind_ne_pdf ·.symm)

end Wagon

end FeatureTree
