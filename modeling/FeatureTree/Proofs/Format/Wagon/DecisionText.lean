/-
Decisions can be read back from their lines.

* `Wagon.unquote_quoteValue` — quotes around a value are taken off again;
* `Wagon.OpensDecision`, `Wagon.NamesValue` — the names of features and values that
  can be read back;
* `Wagon.parseDecision_testText` — the decision of a line, with no children yet.
-/
import FeatureTree.Format.Wagon.Writer
import FeatureTree.Proofs.Schema.Names
import FeatureTree.Proofs.Text.Search
import FeatureTree.Proofs.Text.Tokens
import FeatureTree.Proofs.Tree.WellFormed

namespace FeatureTree

open Text

namespace DecisionTest

/-- The ordinal that a test asks for. -/
def ordinal? : DecisionTest → Option Int
  | byteEquals v => some v.toNat
  | shortEquals v => some v.toInt
  | _ => none

/-- The test with one NaN for all. -/
def canonical : DecisionTest → DecisionTest
  | below t => below t.canonical
  | test => test

end DecisionTest

namespace Wagon

open Assembly

variable {s : Schema} {d : Decision} {m : FeatureMeta} {value : String} {cs name op val : List Char}

/-! ### Values in quotes -/

/-- Without quotes in it a value is as it stands. -/
theorem unquote_of_not_mem (h : '"' ∉ cs) : unquote cs = cs := by
  have hhead : (cs.head? == some '"') = false := by
    rw [beq_eq_false_iff_ne]
    exact fun hq => h (List.mem_of_head? hq)
  have hsought : holds (['\\'] ++ ['"']) cs = false := holds_eq_false_of_not_mem h
  rw [unquote]
  simp only [hhead, Bool.and_false, Bool.false_and, Bool.false_eq_true, if_false]
  exact replaceAll_eq_self hsought

theorem unquote_quoted (hne : cs ≠ []) :
    unquote ('"' :: replaceAll ['"'] ['\\', '"'] cs ++ ['"']) = cs := by
  have hlong : 0 < (replaceAll ['"'] ['\\', '"'] cs).length := by
    obtain ⟨c, cs, rfl⟩ := List.exists_cons_of_ne_nil hne
    rw [replaceAll_char, List.flatMap_cons, List.length_append]
    refine Nat.add_pos_left ?_ _
    split <;> simp
  rw [unquote]
  have hquoted : (2 < ('"' :: replaceAll ['"'] ['\\', '"'] cs ++ ['"']).length &&
      ('"' :: replaceAll ['"'] ['\\', '"'] cs ++ ['"']).head? == some '"' &&
      ('"' :: replaceAll ['"'] ['\\', '"'] cs ++ ['"']).getLast? == some '"') = true := by
    rw [List.getLast?_concat]
    simp
    exact hlong
  simp only [hquoted, if_true]
  rw [List.cons_append, List.drop_succ_cons, List.drop_zero, List.dropLast_concat]
  exact unescape_escape (by decide)

theorem toList_quoteValue (value : String) :
    (quoteValue value).toList =
      if needsQuotes value.toList then '"' :: replaceAll ['"'] ['\\', '"'] value.toList ++ ['"']
      else value.toList := by
  rw [quoteValue]
  split
  · simp only [String.toList_append, String.toList_ofList]
    rfl
  · rfl

theorem plain_of_needsQuotes_eq_false (h : needsQuotes cs = false) :
    cs ≠ [] ∧ ∀ c ∈ cs, isBlank c = false ∧ c ≠ '"' := by
  rw [needsQuotes, Bool.or_eq_false_iff, List.any_eq_false] at h
  refine ⟨by simpa using h.1, fun c hc => ?_⟩
  have := h.2 c hc
  simp only [Bool.or_eq_true, not_or, beq_iff_eq] at this
  exact ⟨by simpa using this.1.1.1, this.2⟩

/-- Quotes around a value are taken off again; an empty value is not written in a way
that is read back. -/
theorem unquote_quoteValue (hne : value ≠ "") :
    unquote (quoteValue value).toList = value.toList := by
  rw [toList_quoteValue]
  by_cases hq : needsQuotes value.toList = true
  · rw [if_pos hq]
    exact unquote_quoted (by simpa using hne)
  · rw [if_neg hq]
    obtain ⟨-, hplain⟩ := plain_of_needsQuotes_eq_false (by simpa using hq)
    exact unquote_of_not_mem fun h => (hplain _ h).2 rfl

/-- What is written for a value does not begin with a blank. -/
theorem head?_quoteValue {c : Char} (h : (quoteValue value).toList.head? = some c) :
    isBlank c = false := by
  rw [toList_quoteValue] at h
  by_cases hq : needsQuotes value.toList = true
  · rw [if_pos hq] at h
    obtain rfl : '"' = c := by simpa using h
    decide
  · rw [if_neg hq] at h
    obtain ⟨-, hplain⟩ := plain_of_needsQuotes_eq_false (by simpa using hq)
    exact (hplain c (List.mem_of_head? h)).1

/-- The characters of a value are those written for it, apart from quotes and their
escapes. -/
theorem mem_quoteValue {c : Char} (h : c ∈ (quoteValue value).toList) :
    c ∈ value.toList ∨ c = '"' ∨ c = '\\' := by
  rw [toList_quoteValue] at h
  by_cases hq : needsQuotes value.toList = true
  · rw [if_pos hq, replaceAll_char, List.cons_append, List.mem_cons, List.mem_append,
      List.mem_singleton, List.mem_flatMap] at h
    rcases h with rfl | ⟨a, ha, hc⟩ | rfl
    · exact .inr (.inl rfl)
    · split at hc
      · rcases List.mem_cons.mp hc with rfl | hc
        · exact .inr (.inr rfl)
        · exact .inr (.inl (List.mem_singleton.mp hc))
      · rw [List.mem_singleton.mp hc]
        exact .inl ha
    · exact .inr (.inl rfl)
  · rw [if_neg hq] at h
    exact .inl h

/-! ### The parts of a line -/

theorem parseDecision_parts {feature : Nat} (line : Nat)
    (hname : ∀ c ∈ name, isBlank c = false) (hne : op ≠ []) (hop : ∀ c ∈ op, isBlank c = false)
    (hval : ∀ c, val.head? = some c → isBlank c = false)
    (hfeature : s.featureIndex (String.ofList name) = .ok feature) :
    parseDecision s line (name ++ ' ' :: (op ++ ' ' :: (val ++ [')']))) =
      decisionFor s line feature (String.ofList op) (String.ofList (unquote val)) := by
  have hblank : isBlank ' ' = true := by decide
  have hdrop : (op ++ ' ' :: (val ++ [')'])).dropWhile isBlank = op ++ ' ' :: (val ++ [')']) := by
    obtain ⟨c, rest, rfl⟩ := List.exists_cons_of_ne_nil hne
    rw [List.cons_append, List.dropWhile_cons, if_neg (by simp [hop c List.mem_cons_self])]
  -- the value ends at the bracket, blanks in it stay
  have htrim : trimBy isBlank (val ++ [')']) = val ++ [')'] := by
    refine trimBy_eq_self (fun c hc => ?_) (fun c hc => ?_)
    · cases val with
      | nil =>
        obtain rfl : ')' = c := by simpa using hc
        decide
      | cons a val => exact hval c hc
    · rw [List.getLast?_concat] at hc
      obtain rfl : ')' = c := Option.some_inj.mp hc
      decide
  rw [parseDecision, splitOnce?_append hname hblank]
  simp only [hdrop, splitOnce?_append hop hblank, htrim, dropLast?_append, hfeature]
  rfl

/-! ### The decision of a line -/

/-- A name with which a decision line may begin. -/
structure OpensDecision (name : String) : Prop where
  alphabetic : ∃ c rest, name.toList = c :: rest ∧ isAlphabetic c = true
  solid : ∀ c ∈ name.toList, isBlank c = false
  ne_nan : name ≠ "nan"

/-- An ordinal whose value is not empty and has a name that no lower ordinal has. -/
def NamesValue (m : FeatureMeta) (ordinal : Int) : Prop :=
  ∃ (j : Nat) (value : String), ordinal = j ∧ m.values[j]? = some value ∧ value ≠ "" ∧
    ∀ k < j, m.values[k]? ≠ some value

theorem equalityText_eq {i : Int} (hm : s.get? d.feature = some m)
    (hname : s.valueName d.feature i = .ok value) :
    equalityText s d i = m.name ++ " is " ++ quoteValue value := by
  rw [equalityText, Schema.feature, hm, hname]

/-- A test of a byte-valued feature for a value asks for the ordinal of that value. -/
theorem decisionFor_is_byte {feature : Nat} (line : Nat) (hm : s.get? feature = some m)
    (hkind : m.kind = .byte) :
    decisionFor s line feature "is" value = FormatError.ofSchema
      ((s.valueOrdinal feature value).map fun j => .byteEquals feature (UInt8.ofNat j)) := by
  have hfeature : s.feature feature = .ok m := by rw [Schema.feature, hm]
  have hexpect : s.expectKind feature .byte = .ok () := by
    rw [Schema.expectKind, hfeature]
    exact if_pos hkind
  simp only [decisionFor, hfeature, bind, Except.bind, hkind, if_true, Schema.byteValue, hexpect]
  cases s.valueOrdinal feature value <;> rfl

/-- A test of a short-valued feature for a value asks for the ordinal of that value. -/
theorem decisionFor_is_short {feature : Nat} (line : Nat) (hm : s.get? feature = some m)
    (hkind : m.kind = .short) :
    decisionFor s line feature "is" value = FormatError.ofSchema
      ((s.valueOrdinal feature value).map fun j => .shortEquals feature (Int16.ofNat j)) := by
  have hfeature : s.feature feature = .ok m := by rw [Schema.feature, hm]
  have hexpect : s.expectKind feature .short = .ok () := by
    rw [Schema.expectKind, hfeature]
    exact if_pos hkind
  have hne : FeatureKind.short ≠ .byte := by decide
  simp only [decisionFor, hfeature, bind, Except.bind, hkind, if_neg hne, Schema.shortValue,
    hexpect]
  cases s.valueOrdinal feature value <;> rfl

/-- The number of values of a feature is read back as a number of slots. -/
theorem parseSlots_toString {feature slots : Nat} (hm : s.get? feature = some m)
    (hdiscrete : m.kind.isDiscrete = true) (hslots : slots = m.values.size) :
    parseSlots (toString slots) = .ok slots := by
  have hle : slots ≤ 32767 := by
    have hmem : m ∈ s.features.toList := Array.mem_toList_iff.mpr (Array.mem_of_getElem? hm)
    have hmax := s.faultless.size_le m hmem hdiscrete
    have : m.kind.maxValues ≤ 32767 := by cases m.kind <;> decide
    omega
  have hmax : slots ≤ Decision.maxSlots := Nat.le_trans hle (by decide)
  rw [parseSlots, Numeral.unsigned?_toString (by omega : slots < 0x10000000000000000)]
  simp only [Decision.checkSlots, if_pos hmax]
  rfl

/-- What a test asks for, as it is written and read. -/
structure Operand (s : Schema) (d : Decision) (line : Nat) (op val : List Char) : Prop where
  ne_nil : op ≠ []
  solid : ∀ c ∈ op, isBlank c = false
  head : ∀ c, val.head? = some c → isBlank c = false
  /-- Only a value that holds a line feed is written with one. -/
  lineFeed : '\n' ∈ val → ∃ i value, d.test.ordinal? = some i ∧
    s.valueName d.feature i = .ok value ∧ '\n' ∈ value.toList
  parse : decisionFor s line d.feature (String.ofList op) (String.ofList (unquote val)) =
    .ok (Decision.ofSlots d.feature d.test.canonical d.children.size)

theorem Operand.of_token {line : Nat} (hne : op ≠ []) (hop : ∀ c ∈ op, isBlank c = false)
    (hval : IsToken val)
    (hparse : decisionFor s line d.feature (String.ofList op) (String.ofList val) =
      .ok (Decision.ofSlots d.feature d.test.canonical d.children.size)) :
    Operand s d line op val where
  ne_nil := hne
  solid := hop
  head := fun c hc => hval.solid c (List.mem_of_head? hc)
  lineFeed := fun h => absurd (hval.solid _ h) (by decide)
  parse := by
    rw [unquote_of_not_mem fun h => (hval.plain _ h).2.2 rfl]
    exact hparse

theorem Operand.of_value {line : Nat} {i : Int} (hne : value ≠ "")
    (hi : d.test.ordinal? = some i) (hname : s.valueName d.feature i = .ok value)
    (hparse : decisionFor s line d.feature "is" value =
      .ok (Decision.ofSlots d.feature d.test.canonical d.children.size)) :
    Operand s d line "is".toList (quoteValue value).toList where
  ne_nil := by decide
  solid := solid_of_all (by decide)
  head := fun _ hc => head?_quoteValue hc
  lineFeed := fun h => ⟨i, value, hi, hname,
    (mem_quoteValue h).resolve_right fun hq => absurd hq (by decide)⟩
  parse := by
    rw [unquote_quoteValue hne, String.ofList_toList, String.ofList_toList]
    exact hparse

/-- The line of a decision is the name of its feature and an operand. -/
def SplitsInto (s : Schema) (d : Decision) (line : Nat) (m : FeatureMeta) : Prop :=
  ∃ op val : List Char, (testText s d).toList = m.name.toList ++ ' ' :: (op ++ ' ' :: val) ∧
    Operand s d line op val

/-- A test for one value asks for it by its name. -/
theorem splitsInto_of_ordinal {line : Nat} {i : Int} (hm : s.get? d.feature = some m)
    (hdiscrete : m.kind.isDiscrete = true) (hi : d.test.ordinal? = some i)
    (hvalue : NamesValue m i) (htext : testText s d = equalityText s d i)
    (hparse : ∀ (j : Nat) (value : String), i = j → s.valueOrdinal d.feature value = .ok j →
      decisionFor s line d.feature "is" value =
        .ok (Decision.ofSlots d.feature d.test.canonical d.children.size)) :
    SplitsInto s d line m := by
  obtain ⟨j, value, hj, hval, hne, hfirst⟩ := hvalue
  have hname : s.valueName d.feature i = .ok value := by
    rw [hj]
    exact Schema.valueName_eq hm hdiscrete hval
  refine ⟨"is".toList, (quoteValue value).toList, ?_, .of_value hne hi hname ?_⟩
  · rw [htext, equalityText_eq hm hname]
    simp only [String.toList_append, List.append_assoc]
    rfl
  · exact hparse j value hj (Schema.valueOrdinal_eq hm hdiscrete hval hfirst)

/-- Any other test is described in three words. -/
theorem splitsInto_of_words {line : Nat} (operator operand : String)
    (htext : testText s d = m.name ++ (" " ++ operator ++ " ") ++ operand)
    (hne : operator.toList ≠ []) (hop : (operator.toList.all fun c => !isBlank c) = true)
    (hval : IsToken operand.toList)
    (hparse : decisionFor s line d.feature operator operand =
      .ok (Decision.ofSlots d.feature d.test.canonical d.children.size)) :
    SplitsInto s d line m := by
  refine ⟨operator.toList, operand.toList, ?_, .of_token hne (solid_of_all hop) hval ?_⟩
  · rw [htext]
    simp only [String.toList_append, List.append_assoc]
    rfl
  · rw [String.ofList_toList, String.ofList_toList]
    exact hparse

/-- The parts of a decision line. -/
theorem exists_operand (hd : d.Suits s) (line : Nat)
    (hvalue : ∀ m i, s.get? d.feature = some m → d.test.ordinal? = some i → NamesValue m i) :
    ∃ m, s.get? d.feature = some m ∧ SplitsInto s d line m := by
  obtain ⟨m, hm, hkind, hsize⟩ := hd
  refine ⟨m, hm, ?_⟩
  have hlabel : Decision.featureLabel s d.feature = m.name := by
    rw [Decision.featureLabel, Schema.feature, hm]
  cases ht : d.test with
  | byteEquals v =>
    rw [ht] at hkind hsize
    have hbyte : m.kind = .byte := hkind _ rfl
    have hi : d.test.ordinal? = some v.toNat := by rw [ht]; rfl
    refine splitsInto_of_ordinal hm (by rw [hbyte]; rfl) hi (hvalue m _ hm hi)
      (by rw [testText, ht]) fun j value hj hordinal => ?_
    obtain rfl : v.toNat = j := by omega
    rw [decisionFor_is_byte line hm hbyte, hordinal, ht, hsize]
    simp only [Except.map, UInt8.ofNat_toNat]
    rfl
  | shortEquals v =>
    rw [ht] at hkind hsize
    have hshort : m.kind = .short := hkind _ rfl
    have hi : d.test.ordinal? = some v.toInt := by rw [ht]; rfl
    refine splitsInto_of_ordinal hm (by rw [hshort]; rfl) hi (hvalue m _ hm hi)
      (by rw [testText, ht]) fun j value hj hordinal => ?_
    have hv : Int16.ofNat j = v := by
      rw [← Int16.ofInt_toInt v, hj]
      rfl
    rw [decisionFor_is_short line hm hshort, hordinal, ht, hsize]
    simp only [Except.map, hv]
    rfl
  | below t =>
    rw [ht] at hsize
    refine splitsInto_of_words "<" t.render ?_ (by decide) (by decide)
      (isToken_render t) ?_
    · rw [testText, Decision.describe, hlabel, ht]
      rfl
    · simp only [decisionFor, Floating.parse?_render, ht, hsize]
      rfl
  | byteOf =>
    rw [ht] at hkind hsize
    have hdiscrete : m.kind.isDiscrete = true := by rw [hkind _ rfl]; rfl
    refine splitsInto_of_words "isByteOf" (toString d.children.size) ?_ (by decide)
      (by decide) (isToken_nat _) ?_
    · rw [testText, Decision.describe, hlabel, ht]
      rfl
    · simp only [decisionFor, parseSlots_toString hm hdiscrete hsize, ht, bind, Except.bind]
      rfl
  | shortOf =>
    rw [ht] at hkind hsize
    have hdiscrete : m.kind.isDiscrete = true := by rw [hkind _ rfl]; rfl
    refine splitsInto_of_words "isShortOf" (toString d.children.size) ?_ (by decide)
      (by decide) (isToken_nat _) ?_
    · rw [testText, Decision.describe, hlabel, ht]
      rfl
    · simp only [decisionFor, parseSlots_toString hm hdiscrete hsize, ht, bind, Except.bind]
      rfl

end Wagon

/-- A decision with child slots, whose line can be read back. -/
structure Decision.Legible (s : Schema) (d : Decision) : Prop where
  slots : 0 < d.children.size
  name : ∀ m, s.get? d.feature = some m → Wagon.OpensDecision m.name
  value : ∀ m i, s.get? d.feature = some m → d.test.ordinal? = some i → Wagon.NamesValue m i
  inline : ∀ i value, d.test.ordinal? = some i → s.valueName d.feature i = .ok value →
    '\n' ∉ value.toList

/-- Which children a decision has does not matter. -/
theorem Decision.Suits.ofSlots {s : Schema} {d : Decision} (h : d.Suits s) :
    (Decision.ofSlots d.feature d.test d.children.size).Suits s := by
  obtain ⟨m, hm, hkind, hsize⟩ := h
  exact ⟨m, hm, hkind, Array.size_replicate.trans hsize⟩

/-- Nor does which NaN a threshold is. -/
theorem Decision.Suits.canonical {s : Schema} {feature slots : Nat} {test : DecisionTest}
    (h : (Decision.ofSlots feature test slots).Suits s) :
    (Decision.ofSlots feature test.canonical slots).Suits s := by
  cases test with
  | below t => exact h
  | _ => exact h

theorem Decision.Legible.ofSlots {s : Schema} {d : Decision} (h : d.Legible s) :
    (Decision.ofSlots d.feature d.test d.children.size).Legible s where
  slots := by
    rw [Decision.ofSlots, Array.size_replicate]
    exact h.slots
  name := h.name
  value := h.value
  inline := h.inline

namespace Wagon

open Assembly

variable {s : Schema} {d : Decision} {name : List Char}

/-- The decision of a line, with no children yet. -/
theorem parseDecision_testText (hd : d.Suits s) (line : Nat)
    (hname : ∀ m, s.get? d.feature = some m → ∀ c ∈ m.name.toList, isBlank c = false)
    (hvalue : ∀ m i, s.get? d.feature = some m → d.test.ordinal? = some i → NamesValue m i) :
    parseDecision s line ((testText s d).toList ++ [')']) =
      .ok (Decision.ofSlots d.feature d.test.canonical d.children.size) := by
  obtain ⟨m, hm, op, val, htext, h⟩ := exists_operand hd line hvalue
  have hfeature : s.featureIndex (String.ofList m.name.toList) = .ok d.feature := by
    rw [String.ofList_toList]
    exact Schema.featureIndex_name hm
  rw [htext, ← h.parse,
    ← parseDecision_parts line (hname m hm) h.ne_nil h.solid h.head hfeature]
  simp only [List.append_assoc, List.cons_append]

/-- A decision line is recognized by the name of its feature. -/
theorem isDecision_of_name {rest : List Char} (h : OpensDecision (String.ofList name)) :
    isDecision (name ++ ' ' :: rest) = true := by
  obtain ⟨⟨c, cs, hcs, hc⟩, hsolid, hnan⟩ := h
  rw [String.toList_ofList] at hcs hsolid
  have hhead : (name ++ ' ' :: rest).head?.any isAlphabetic = true := by
    rw [hcs]
    exact hc
  have hstart : startsWith ['n', 'a', 'n', ' '] (name ++ ' ' :: rest) = false := by
    refine startsWith_eq_false fun rest' heq => hnan ?_
    -- both texts are cut at their first blank
    have hleft := splitOnce?_append (p := isBlank) (c := ' ') hsolid (by decide) rest
    have hright : splitOnce? isBlank (['n', 'a', 'n'] ++ ' ' :: rest') =
        some (['n', 'a', 'n'], rest') :=
      splitOnce?_append (solid_of_all (by decide)) (by decide) rest'
    rw [heq] at hleft
    have hsame := Option.some_inj.mp (hleft.symm.trans hright)
    rw [(Prod.mk.inj hsame).1]
  rw [isDecision, hhead, hstart]
  rfl

theorem isDecision_testText (hd : d.Suits s) (h : d.Legible s) :
    isDecision ((testText s d).toList ++ [')']) = true := by
  obtain ⟨m, hm, op, val, htext, -⟩ := exists_operand hd 0 h.value
  rw [htext, List.append_assoc, List.cons_append]
  refine isDecision_of_name ?_
  rw [String.ofList_toList]
  exact h.name m hm

theorem lineFeed_not_mem_testText (hd : d.Suits s) (h : d.Legible s) :
    '\n' ∉ (testText s d).toList := by
  obtain ⟨m, hm, op, val, htext, hoperand⟩ := exists_operand hd 0 h.value
  intro hmem
  rw [htext, List.mem_append, List.mem_cons, List.mem_append, List.mem_cons] at hmem
  rcases hmem with hmem | hmem | hmem | hmem | hmem
  · exact absurd ((h.name m hm).solid _ hmem) (by decide)
  · exact absurd hmem (by decide)
  · exact absurd (hoperand.solid _ hmem) (by decide)
  · exact absurd hmem (by decide)
  · obtain ⟨i, value, hi, hvalue, hlf⟩ := hoperand.lineFeed hmem
    exact h.inline i value hi hvalue hlf

end Wagon

end FeatureTree
