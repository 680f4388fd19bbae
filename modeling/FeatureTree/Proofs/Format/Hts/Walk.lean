/-
What the lines of a state tree say.

A line has an id and asks for the ordinal of a feature; when the answer is yes it refers
to one node, when it is no to another one.  From line 0 the references lead a vector to
the number of a leaf.  Nothing of this mentions nodes of an arena.

* `Hts.Rule`, `Hts.Context.rule?` — a line in its parts, read off its text;
* `Hts.Walks` — the walk of a vector from a line to a leaf;
* `Hts.Context.question_cases`, `Hts.Context.exists_question` — the decision that is read
  from a question asks what the rule asks;
* `Hts.Reference.ofName?_line`, `Hts.Reference.ofName?_leaf` — the references as they are
  written.
-/
import FeatureTree.Format.Hts.Reader
import FeatureTree.Proofs.Numeric.Digits
import FeatureTree.Proofs.Schema.Lookup
import FeatureTree.Proofs.Tree.WellFormed
import Mathlib.Data.List.Nodup

namespace FeatureTree

namespace Hts

open Text

/-! ### Lines in their parts -/

/-- What the answer to a question refers to: another line, or the leaf with a number. -/
inductive Reference where
  | line (id : Nat)
  | leaf (number : Nat)
  deriving DecidableEq, Repr

namespace Reference

/-- The reference that is written as a name: the id of a line after a minus sign, or the
name of a leaf. -/
def ofName? : List Char → Option Reference
  | '-' :: digits => (Numeral.unsigned? 0x100000000 digits).map line
  | name => (leafNumber? name).map leaf

/-- Whether a reference is to a leaf. -/
def isLeaf : Reference → Bool
  | line _ => false
  | leaf _ => true

/-- The line that is referred to, if it is one. -/
def target? : Reference → Option Nat
  | line id => some id
  | leaf _ => none

theorem ofName?_of_head_ne {name : List Char} (h : name.head? ≠ some '-') :
    ofName? name = (leafNumber? name).map leaf := by
  rw [ofName?.eq_def]
  split
  · exact absurd rfl h
  · rfl

/-- The id of a line is written in digits after a minus sign. -/
theorem ofName?_line {n : Nat} (h : n < 0x100000000) :
    ofName? ('-' :: (toString n).toList) = some (line n) := by
  rw [ofName?, Numeral.unsigned?_toString h]
  rfl

/-- The name of a leaf ends in an underscore, its number and a quotation mark. -/
theorem ofName?_leaf {n : Nat} (h : n < 0x100000000) {front : List Char}
    (hfront : front.head? ≠ some '-') :
    ofName? (front ++ '_' :: ((toString n).toList ++ ['"'])) = some (leaf n) := by
  have hhead : (front ++ '_' :: ((toString n).toList ++ ['"'])).head? ≠ some '-' := by
    cases front with
    | nil => simp
    | cons c rest => exact hfront
  have hdigits : ∀ c ∈ (toString n).toList, c ≠ '_' := fun c hc =>
    Decimal.ne_of_isDigit (Decimal.isDigit_of_mem_toDigits (by simpa using hc)) (by decide)
  -- from the end the name is read up to the underscore
  have htail : (front ++ '_' :: ((toString n).toList ++ ['"'])).reverse.takeWhile (· != '_') =
      '"' :: (toString n).toList.reverse := by
    have hreverse : (front ++ '_' :: ((toString n).toList ++ ['"'])).reverse =
        ('"' :: (toString n).toList.reverse) ++ '_' :: front.reverse := by
      simp
    rw [hreverse, List.takeWhile_append_of_pos]
    · simp
    · intro c hc
      rcases List.mem_cons.mp hc with rfl | hc
      · rfl
      · exact bne_iff_ne.mpr (hdigits c (List.mem_reverse.mp hc))
  rw [ofName?_of_head_ne hhead, leafNumber?, htail, List.reverse_cons, List.reverse_reverse,
    List.getLast?_concat, List.dropLast_concat]
  simp only [Numeral.unsigned?_toString h]
  rfl

end Reference

/-- A line of a state tree in its parts: its id, the feature and the ordinal it asks for,
and what it refers to when the answer is no and when it is yes. -/
structure Rule where
  id : Nat
  feature : Nat
  ordinal : Nat
  no : Reference
  yes : Reference
  deriving DecidableEq, Repr

namespace Rule

/-- What a rule refers to, both answers taken together. -/
def references (r : Rule) : List Reference := [r.no, r.yes]

/-- The lines that a rule refers to. -/
def targets (r : Rule) : List Nat := r.references.filterMap Reference.target?

/-- What a rule refers to for a vector. -/
def chosen (r : Rule) (v : FeatureVector) : Reference :=
  if v.ordinal? r.feature = some (r.ordinal : Int) then r.yes else r.no

end Rule

/-- The walk of a vector from the line with an id to the leaf with a number. -/
inductive Walks (rules : List Rule) (v : FeatureVector) : Nat → Nat → Prop
  | leaf {r : Rule} {number : Nat} :
      r ∈ rules → r.chosen v = .leaf number → Walks rules v r.id number
  | line {r : Rule} {id number : Nat} :
      r ∈ rules → r.chosen v = .line id → Walks rules v id number → Walks rules v r.id number

/-- Where every id has one line, a walk ends in one leaf. -/
theorem Walks.unique {rules : List Rule} {v : FeatureVector} {id number number' : Nat}
    (hids : (rules.map Rule.id).Nodup) (h : Walks rules v id number)
    (h' : Walks rules v id number') : number = number' := by
  have hsame : ∀ r ∈ rules, ∀ q ∈ rules, r.id = q.id → r = q :=
    fun r hr q hq => List.inj_on_of_nodup_map hids hr hq
  induction h generalizing number' with
  | @leaf r number hr hchosen =>
    generalize hid : r.id = id at h'
    cases h' with
    | @leaf q number' hq hchosen' =>
      rw [hsame r hr q hq hid, hchosen'] at hchosen
      exact (Reference.leaf.inj hchosen).symm
    | @line q id' number' hq hchosen' _ =>
      rw [hsame r hr q hq hid, hchosen'] at hchosen
      exact absurd hchosen (by simp)
  | @line r id' number hr hchosen _ ih =>
    generalize hid : r.id = id at h'
    cases h' with
    | @leaf q number' hq hchosen' =>
      rw [hsame r hr q hq hid, hchosen'] at hchosen
      exact absurd hchosen (by simp)
    | @line q id'' number' hq hchosen' h' =>
      rw [hsame r hr q hq hid, hchosen'] at hchosen
      obtain rfl := Reference.line.inj hchosen
      exact ih h'

namespace Context

variable (c : Context)

/-- The feature and the ordinal that a question asks for: it names the feature and the
value, which is translated. -/
def asked? (question : List Char) : Option (Nat × Nat) := do
  let (name, value) ← splitOnce? (· == '=') question
  let feature ← c.schema.featureIndex? (String.ofList name)
  let value := c.translator.translate (String.ofList name) (String.ofList value)
  let ordinal ← (c.schema.valueOrdinal feature value).toOption
  return (feature, ordinal)

/-- The payload of the leaf with a number: its density, if there are tables, or the
number alone. -/
def payload? (number : Nat) : Option Payload :=
  match c.tables with
  | none => some (.pdf { id := number })
  | some tables => (tables.leaf? c.state number).map .pdf

/-- The rule that the text of a line states. -/
def rule? (text : String) : Option Rule :=
  match words text.toList with
  | [name, question, no, yes] => do
    let id ← decisionId? name
    let (feature, ordinal) ← c.asked? question
    let no ← Reference.ofName? no
    let yes ← Reference.ofName? yes
    return { id, feature, ordinal, no, yes }
  | _ => none

/-- What the node for a reference holds at first: a test that is chosen when the line is
read, or the payload of the leaf. -/
def seed? : Reference → Option NodeContent
  | .line _ => some (.decision (.byteEquals 0 0))
  | .leaf number => (c.payload? number).map .leaf

/-- The text of a line states a rule, and its question is read as a decision. -/
def Says (line : Nat) (text : String) (r : Rule) (q : Decision) : Prop :=
  ∃ name question no yes, words text.toList = [name, question, no, yes] ∧
    decisionId? name = some r.id ∧ c.question line question = .ok q ∧
    c.asked? question = some (r.feature, r.ordinal) ∧
    Reference.ofName? no = some r.no ∧ Reference.ofName? yes = some r.yes

variable {c} {line : Nat} {cs : List Char}

/-- A question names a feature and one of its values. -/
theorem question_eq_ok_iff {d : Decision} :
    c.question line cs = .ok d ↔ ∃ name value feature,
      splitOnce? (· == '=') cs = some (name, value) ∧
      c.schema.featureIndex? (String.ofList name) = some feature ∧
      ((∃ x, c.schema.shortValue feature
          (c.translator.translate (String.ofList name) (String.ofList value)) = .ok x ∧
          d = .shortEquals feature x) ∨
        ∃ b, c.schema.byteValue feature
          (c.translator.translate (String.ofList name) (String.ofList value)) = .ok b ∧
          d = .byteEquals feature b) := by
  rw [question]
  cases hsplit : splitOnce? (· == '=') cs with
  | none => simp
  | some parts =>
    obtain ⟨name, value⟩ := parts
    dsimp only
    rw [FormatError.ofSchema, mapError_eq_ok_iff]
    constructor
    · intro h
      obtain ⟨feature, hfeature, h⟩ := bind_eq_ok_iff.mp h
      obtain ⟨m, -, h⟩ := bind_eq_ok_iff.mp h
      refine ⟨name, value, feature, rfl, Schema.featureIndex_eq_ok_iff.mp hfeature, ?_⟩
      split at h
      · obtain ⟨x, hx, h⟩ := bind_eq_ok_iff.mp h
        exact .inl ⟨x, hx, (Except.ok.inj h).symm⟩
      · obtain ⟨b, hb, h⟩ := bind_eq_ok_iff.mp h
        exact .inr ⟨b, hb, (Except.ok.inj h).symm⟩
    · rintro ⟨_, _, feature, heq, hindex, h⟩
      obtain ⟨rfl, rfl⟩ := Prod.mk.inj (Option.some_inj.mp heq)
      refine bind_eq_ok_iff.mpr ⟨feature, Schema.featureIndex_eq_ok_iff.mpr hindex, ?_⟩
      -- a value of the one kind is none of the other, so that the branch is taken
      rcases h with ⟨x, hx, rfl⟩ | ⟨b, hb, rfl⟩
      · obtain ⟨m, n, hm, hshort, -, -⟩ := Schema.shortValue_eq_ok_iff.mp hx
        refine bind_eq_ok_iff.mpr ⟨m, Schema.feature_eq_ok_iff.mpr hm, ?_⟩
        rw [if_pos hshort]
        exact bind_eq_ok_iff.mpr ⟨x, hx, rfl⟩
      · obtain ⟨m, n, hm, hbyte, -, -⟩ := Schema.byteValue_eq_ok_iff.mp hb
        refine bind_eq_ok_iff.mpr ⟨m, Schema.feature_eq_ok_iff.mpr hm, ?_⟩
        rw [if_neg (by rw [hbyte]; decide)]
        exact bind_eq_ok_iff.mpr ⟨b, hb, rfl⟩

theorem asked?_eq_some_iff {feature ordinal : Nat} :
    c.asked? cs = some (feature, ordinal) ↔ ∃ name value,
      splitOnce? (· == '=') cs = some (name, value) ∧
      c.schema.featureIndex? (String.ofList name) = some feature ∧
      c.schema.valueOrdinal feature
        (c.translator.translate (String.ofList name) (String.ofList value)) = .ok ordinal := by
  rw [asked?]
  constructor
  · intro h
    obtain ⟨⟨name, value⟩, hsplit, h⟩ := Option.bind_eq_some_iff.mp h
    obtain ⟨feature', hindex, h⟩ := Option.bind_eq_some_iff.mp h
    obtain ⟨n, hn, h⟩ := Option.bind_eq_some_iff.mp h
    obtain ⟨rfl, rfl⟩ := Prod.mk.inj (Option.some_inj.mp h)
    exact ⟨name, value, hsplit, hindex, toOption_eq_some_iff.mp hn⟩
  · rintro ⟨name, value, hsplit, hindex, hn⟩
    simp [hsplit, hindex, hn, Except.toOption]

/-- What is read from a question asks for the ordinal that the question asks for, and suits
the schema. -/
theorem question_cases {d : Decision} (h : c.question line cs = .ok d) :
    ∃ feature ordinal test, c.asked? cs = some (feature, ordinal) ∧
      d = .ofSlots feature test 2 ∧ c.schema.Asks feature ordinal test ∧ d.Suits c.schema := by
  obtain ⟨name, value, feature, hsplit, hindex, ⟨x, hx, rfl⟩ | ⟨b, hb, rfl⟩⟩ :=
    question_eq_ok_iff.mp h
  · obtain ⟨n, hn, hasks⟩ := Schema.asks_of_shortValue hx
    exact ⟨feature, n, _, asked?_eq_some_iff.mpr ⟨name, value, hsplit, hindex, hn⟩, rfl, hasks,
      Schema.suits_of_shortValue hx⟩
  · obtain ⟨n, hn, hasks⟩ := Schema.asks_of_byteValue hb
    exact ⟨feature, n, _, asked?_eq_some_iff.mpr ⟨name, value, hsplit, hindex, hn⟩, rfl, hasks,
      Schema.suits_of_byteValue hb⟩

/-- A question that asks for an ordinal is read, since the kinds whose values have ordinals
are those for which there is a test. -/
theorem exists_question (line : Nat) {feature ordinal : Nat}
    (h : c.asked? cs = some (feature, ordinal)) :
    ∃ d, c.question line cs = .ok d := by
  obtain ⟨name, value, hsplit, hindex, hn⟩ := asked?_eq_some_iff.mp h
  obtain ⟨m, hm, hdiscrete, -⟩ := Schema.exists_of_valueOrdinal hn
  cases hkind : m.kind with
  | byte =>
    have hvalue := Schema.byteValue_eq_ok_iff.mpr ⟨m, ordinal, hm, hkind, hn, rfl⟩
    exact ⟨_, question_eq_ok_iff.mpr ⟨name, value, feature, hsplit, hindex, .inr ⟨_, hvalue, rfl⟩⟩⟩
  | short =>
    have hvalue := Schema.shortValue_eq_ok_iff.mpr ⟨m, ordinal, hm, hkind, hn, rfl⟩
    exact ⟨_, question_eq_ok_iff.mpr ⟨name, value, feature, hsplit, hindex, .inl ⟨_, hvalue, rfl⟩⟩⟩
  | continuous =>
    rw [hkind] at hdiscrete
    exact absurd hdiscrete (by decide)

theorem Says.rule? {text : String} {r : Rule} {q : Decision} (h : c.Says line text r q) :
    c.rule? text = some r := by
  obtain ⟨name, question, no, yes, hwords, hid, -, hasked, hno, hyes⟩ := h
  rw [Context.rule?, hwords]
  simp [hid, hasked, hno, hyes]

theorem Says.cases {text : String} {r : Rule} {q : Decision} (h : c.Says line text r q) :
    ∃ test, q = .ofSlots r.feature test 2 ∧ c.schema.Asks r.feature r.ordinal test ∧
      q.Suits c.schema := by
  obtain ⟨name, question, no, yes, -, -, hquestion, hasked, -, -⟩ := h
  obtain ⟨feature, ordinal, test, hasked', hq, hasks, hsuits⟩ := question_cases hquestion
  obtain ⟨rfl, rfl⟩ := Prod.mk.inj (Option.some_inj.mp (hasked.symm.trans hasked'))
  exact ⟨test, hq, hasks, hsuits⟩

/-- What is read as a leaf is the payload of the leaf whose number the name ends in. -/
theorem leaf_eq_ok_iff {p : Payload} : c.leaf line cs = .ok p ↔
    ∃ number, leafNumber? cs = some number ∧ c.payload? number = some p := by
  rw [leaf]
  cases leafNumber? cs with
  | none => simp
  | some number =>
    simp only [Option.some_inj, exists_eq_left', payload?]
    cases c.tables with
    | none => simp
    | some tables =>
      dsimp only
      cases tables.leaf? c.state number <;> simp

end Context

end Hts

end FeatureTree
