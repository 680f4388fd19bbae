/-
Values are found again under their names.

An equality test is written with the name of its value, and the reader takes the lowest
ordinal with this name.  An ordinal without a value is written as a number, which the reader
looks up like any other name.

* `DecisionTest.withOrdinal` — an equality test for another ordinal;
* `Wagon.testText_of_ordinal`, `Wagon.addLine_equality` — what is written for an
  equality test, and what is read;
* `Wagon.Recalls` — how the test that is read compares with the one that was written;
* `Wagon.equality_read_back` — the lines of equality tests in a text and among records.
-/
import FeatureTree.Proofs.Format.Wagon.LineOrder
import FeatureTree.Proofs.Format.Wagon.Packing

namespace FeatureTree

open Text

/-! ### Equality tests -/

namespace DecisionTest

/-- The equality test for another ordinal. -/
def withOrdinal : DecisionTest → Nat → DecisionTest
  | byteEquals _, j => byteEquals (UInt8.ofNat j)
  | shortEquals _, j => shortEquals (Int16.ofNat j)
  | test, _ => test

variable {test : DecisionTest} {i : Int} {j : Nat}

/-- An equality test is one on a feature with named values. -/
theorem exists_neededKind (hi : test.ordinal? = some i) :
    ∃ kind, test.neededKind? = some kind ∧ kind.isDiscrete = true := by
  cases test with
  | byteEquals v => exact ⟨.byte, rfl, rfl⟩
  | shortEquals v => exact ⟨.short, rfl, rfl⟩
  | _ => cases hi

/-- Ordinals of values fit the tests of their kind. -/
theorem ordinal?_withOrdinal {kind : FeatureKind} (hi : test.ordinal? = some i)
    (hkind : test.neededKind? = some kind) (hj : j ≤ kind.maxValues) :
    (test.withOrdinal j).ordinal? = some (j : Int) := by
  cases test with
  | byteEquals v =>
    obtain rfl := Option.some_inj.mp hkind
    have hj : j ≤ 255 := hj
    simp only [withOrdinal, ordinal?, UInt8.toNat_ofNat', Option.some_inj]
    omega
  | shortEquals v =>
    obtain rfl := Option.some_inj.mp hkind
    have hj : j ≤ 32767 := hj
    rw [withOrdinal, ordinal?, Int16.toInt_ofNat', Option.some_inj]
    have hsize : Int16.size = 65536 := rfl
    exact Int.bmod_eq_of_le (by omega) (by omega)
  | _ => cases hi

theorem withOrdinal_self (h : test.ordinal? = some (j : Int)) : test.withOrdinal j = test := by
  cases test with
  | byteEquals v =>
    obtain rfl : v.toNat = j := Int.ofNat_inj.mp (Option.some_inj.mp h)
    rw [withOrdinal, UInt8.ofNat_toNat]
  | shortEquals v =>
    have hv : v.toInt = j := Option.some_inj.mp h
    rw [withOrdinal, ← Int16.ofInt_toInt v, hv]
    rfl
  | _ => cases h

end DecisionTest

namespace Wagon

open Assembly

variable {s : Schema} {d : Decision} {m : FeatureMeta} {i : Int} {value : String}

/-! ### What is written -/

/-- A name that needs no quotes. -/
theorem quoteValue_of_isToken (h : IsToken value.toList) (hne : value ≠ "") :
    quoteValue value = value := by
  have hquotes : needsQuotes value.toList = false := by
    rw [needsQuotes, Bool.or_eq_false_iff, List.any_eq_false]
    refine ⟨by simpa using hne, fun c hc => ?_⟩
    obtain ⟨h₁, h₂, h₃⟩ := h.plain c hc
    simp [h.solid c hc, h₁, h₂, h₃]
  rw [quoteValue]
  simp only [hquotes, Bool.false_eq_true, if_false]

/-- An equality test is written with the name of its value, or with its number. -/
theorem testText_of_ordinal (hm : s.get? d.feature = some m) (hi : d.test.ordinal? = some i)
    (hne : Decision.valueLabel s d.feature i ≠ "") :
    testText s d = m.name ++ " is " ++ quoteValue (Decision.valueLabel s d.feature i) := by
  have hfeature : s.feature d.feature = .ok m := by rw [Schema.feature, hm]
  have htext : testText s d = equalityText s d i := by
    rw [testText]
    cases ht : d.test with
    | byteEquals v => rw [ht] at hi; obtain rfl := Option.some_inj.mp hi; rfl
    | shortEquals v => rw [ht] at hi; obtain rfl := Option.some_inj.mp hi; rfl
    | _ => rw [ht] at hi; cases hi
  have hdescribe : d.describe s = m.name ++ " is " ++ Decision.valueLabel s d.feature i := by
    rw [Decision.describe, Decision.featureLabel, hfeature]
    cases ht : d.test with
    | byteEquals v => rw [ht] at hi; obtain rfl := Option.some_inj.mp hi; rfl
    | shortEquals v => rw [ht] at hi; obtain rfl := Option.some_inj.mp hi; rfl
    | _ => rw [ht] at hi; cases hi
  rw [htext, equalityText, hfeature]
  cases hname : s.valueName d.feature i with
  | ok name => rw [Decision.valueLabel, hname]
  | error e =>
    have hlabel : Decision.valueLabel s d.feature i = toString i := by
      rw [Decision.valueLabel, hname]
    rw [hlabel] at hne hdescribe ⊢
    rw [quoteValue_of_isToken (isToken_int i) hne]
    exact hdescribe

/-! ### What is read -/

/-- The equality test on the feature of a decision for the value with a name. -/
def namedTest (s : Schema) (d : Decision) (value : String) : Except FormatError Decision :=
  FormatError.ofSchema ((s.valueOrdinal d.feature value).map fun j =>
    Decision.ofSlots d.feature (d.test.withOrdinal j) 2)

/-- The state with a decision in its place that gets the next children. -/
def Assembly.openDecision (a : Assembly) (line : Nat) (d : Decision) :
    Except FormatError Assembly := do
  let a₁ ← { a with lastLine := line }.put line (some (.decision d))
  return { a₁ with cursor := some a.builder.size, openBrackets := a₁.openBrackets + 1 }

theorem decisionFor_equality (hd : d.Suits s) (hi : d.test.ordinal? = some i) (line : Nat) :
    decisionFor s line d.feature "is" value = namedTest s d value := by
  obtain ⟨m, hm, hkind, -⟩ := hd
  rw [namedTest]
  cases ht : d.test with
  | byteEquals v =>
    rw [ht] at hkind
    exact decisionFor_is_byte line hm (hkind _ rfl)
  | shortEquals v =>
    rw [ht] at hkind
    exact decisionFor_is_short line hm (hkind _ rfl)
  | _ => rw [ht] at hi; cases hi

/-- The parts of the line of an equality test. -/
theorem toList_decisionLine (hm : s.get? d.feature = some m) (hi : d.test.ordinal? = some i)
    (hne : Decision.valueLabel s d.feature i ≠ "") :
    (decisionLine s d).toList = '(' :: '(' :: (m.name.toList ++ ' ' :: ("is".toList ++ ' ' ::
      ((quoteValue (Decision.valueLabel s d.feature i)).toList ++ [')']))) := by
  rw [decisionLine, testText_of_ordinal hm hi hne]
  simp only [String.toList_append, List.append_assoc]
  rfl

theorem getLast?_decisionLine (s : Schema) (d : Decision) :
    (decisionLine s d).toList.getLast? = some ')' := by
  rw [decisionLine, String.toList_append]
  exact List.getLast?_concat

/-- The line of an equality test adds the test for the value with the name in it. -/
theorem addLine_equality (hd : d.Suits s) (hm : s.get? d.feature = some m)
    (hi : d.test.ordinal? = some i) (hname : OpensDecision m.name)
    (hne : Decision.valueLabel s d.feature i ≠ "") {a : Assembly} (ha : a.schema = s)
    (line : Nat) :
    a.addLine line (decisionLine s d) =
      namedTest s d (Decision.valueLabel s d.feature i) >>= a.openDecision line := by
  have htext := toList_decisionLine hm hi hne
  have hfeature : s.featureIndex (String.ofList m.name.toList) = .ok d.feature := by
    rw [String.ofList_toList]
    exact Schema.featureIndex_name hm
  have hdecision : isDecision (m.name.toList ++ ' ' :: ("is".toList ++ ' ' ::
      ((quoteValue (Decision.valueLabel s d.feature i)).toList ++ [')']))) = true :=
    isDecision_of_name (by rwa [String.ofList_toList])
  subst ha
  rw [addLine_bracketed htext (getLast?_decisionLine a.schema d), if_pos hdecision,
    addDecisionLine_eq]
  show parseDecision a.schema line _ >>= a.openDecision line = _
  rw [parseDecision_parts line hname.solid (by decide) (solid_of_all (by decide))
    (fun _ hc => head?_quoteValue hc) hfeature, unquote_quoteValue hne, String.ofList_toList,
    String.ofList_toList, decisionFor_equality hd hi]

/-- What the reader makes of an equality test that was written with this name: it takes the
lowest ordinal with the name, refuses a name that no value has, and so gets back the same
test just if the name is that of the value and no lower ordinal has it. -/
structure Recalls (m : FeatureMeta) (d : Decision) (i : Int) (value : String)
    (answer : Except FormatError Decision) : Prop where
  first : ∀ j : Nat, m.values[j]? = some value → (∀ k < j, m.values[k]? ≠ some value) →
    answer = .ok (Decision.ofSlots d.feature (d.test.withOrdinal j) 2) ∧
      (d.test.withOrdinal j).ordinal? = some (j : Int)
  unknown : (∀ j : Nat, m.values[j]? ≠ some value) →
    answer = .error (.schema (.unknownValue m.name value))
  same_iff : answer = .ok (Decision.ofSlots d.feature d.test 2) ↔ NamesValue m i

theorem namedTest_eq_ok_iff {e : Decision} :
    namedTest s d value = .ok e ↔ ∃ j, s.valueOrdinal d.feature value = .ok j ∧
      Decision.ofSlots d.feature (d.test.withOrdinal j) 2 = e := by
  rw [namedTest]
  cases s.valueOrdinal d.feature value <;> simp [FormatError.ofSchema, Except.map, Except.mapError]

theorem recalls_namedTest (hd : d.Suits s) (hm : s.get? d.feature = some m)
    (hi : d.test.ordinal? = some i) (hne : Decision.valueLabel s d.feature i ≠ "") :
    Recalls m d i (Decision.valueLabel s d.feature i)
      (namedTest s d (Decision.valueLabel s d.feature i)) := by
  obtain ⟨kind, hkind, hdiscrete⟩ := DecisionTest.exists_neededKind hi
  obtain rfl : m.kind = kind := by
    obtain ⟨m', hm', hneeded, -⟩ := hd
    obtain rfl : m = m' := Option.some_inj.mp (hm.symm.trans hm')
    exact hneeded kind hkind
  have hordinal : ∀ {j : Nat} {name : String}, m.values[j]? = some name →
      (d.test.withOrdinal j).ordinal? = some (j : Int) := by
    intro j name hj
    obtain ⟨hlt, -⟩ := Array.getElem?_eq_some_iff.mp hj
    have hmem : m ∈ s.features.toList := Array.mem_toList_iff.mpr (Array.mem_of_getElem? hm)
    have hsize := s.faultless.size_le m hmem hdiscrete
    exact DecisionTest.ordinal?_withOrdinal hi hkind (by omega)
  refine ⟨fun j hj hfirst => ⟨?_, hordinal hj⟩, fun hnone => ?_, ?_, ?_⟩
  · exact namedTest_eq_ok_iff.mpr ⟨j, Schema.valueOrdinal_eq hm hdiscrete hj hfirst, rfl⟩
  · rw [namedTest, Schema.valueOrdinal_eq_error hm hdiscrete hnone]
    rfl
  · intro hsame
    obtain ⟨j, hj, htest⟩ := namedTest_eq_ok_iff.mp hsame
    obtain ⟨hvalue, hfirst⟩ := Schema.first_of_valueOrdinal hm hj
    have hij := hordinal hvalue
    rw [(Decision.mk.inj htest).2.1, hi] at hij
    exact ⟨j, _, Option.some_inj.mp hij, hvalue, hne, hfirst⟩
  · rintro ⟨j, name, rfl, hj, -, hfirst⟩
    have hlabel : Decision.valueLabel s d.feature (j : Int) = name := by
      rw [Decision.valueLabel, Schema.valueName_eq hm hdiscrete hj]
    rw [hlabel]
    exact namedTest_eq_ok_iff.mpr ⟨j, Schema.valueOrdinal_eq hm hdiscrete hj hfirst, by
      rw [DecisionTest.withOrdinal_self hi]⟩

/-! ### Where the line stands -/

theorem lineFeed_not_mem_decisionLine (hm : s.get? d.feature = some m)
    (hi : d.test.ordinal? = some i) (hname : OpensDecision m.name)
    (hne : Decision.valueLabel s d.feature i ≠ "")
    (hlf : '\n' ∉ (Decision.valueLabel s d.feature i).toList) :
    '\n' ∉ (decisionLine s d).toList := by
  have hvalue : '\n' ∉ (quoteValue (Decision.valueLabel s d.feature i)).toList := fun hmem =>
    (mem_quoteValue hmem).elim hlf (by decide)
  have hfeature : '\n' ∉ m.name.toList := fun hmem =>
    absurd (hname.solid _ hmem) (by decide)
  rw [toList_decisionLine hm hi hne]
  simp [hvalue, hfeature]

/-- Equality tests keep their value under its name.  The line that is written for an equality
test of a tree, whatever the name of the value as long as it is not empty, stands among the
lines of the tree.  It is read, by any assembly over the schema, as the test on the same
feature that the name stands for there: the test for the lowest ordinal with this name.  In
a text the line is found unless there is a line feed in the name, and records are read
line by line in any case. -/
theorem equality_read_back (t : Cart) {kind : Option WagonKind} {ls : List String}
    (hls : lines t kind = .ok ls) {u : NodeId} {d : Decision} {m : FeatureMeta} {i : Int}
    (hu : t.arena.content? u = some (.decision d))
    (hm : t.arena.schema.get? d.feature = some m) (hi : d.test.ordinal? = some i)
    (hname : OpensDecision m.name)
    (hne : Decision.valueLabel t.arena.schema d.feature i ≠ "") :
    ∃ l answer, l ∈ ls ∧ l = decisionLine t.arena.schema d ∧
      Recalls m d i (Decision.valueLabel t.arena.schema d.feature i) answer ∧
      (∀ (a : Assembly) line, a.schema = t.arena.schema →
        a.addLine line l = answer >>= a.openDecision line) ∧
      (∀ text, toText t kind = .ok text →
        '\n' ∉ (Decision.valueLabel t.arena.schema d.feature i).toList →
        Utf8.encode l ∈ byteLines (Utf8.encode text) ∧
          ∀ a line, addEncodedLine a (Utf8.encode l, line) = a.addLine line l) ∧
      ∀ name packed, toPacked t kind name = .ok packed → ∀ o,
        ofPacked t.arena.schema o packed =
          Assembly.start t.arena.schema o >>= fun a => a.addLines 1 ls >>= Assembly.finish := by
  have hd : d.Suits t.arena.schema := by
    obtain ⟨n, hn, hnd⟩ := Arena.content?_eq_some_iff.mp hu
    obtain ⟨root, hroot⟩ := t.exists_root hn
    exact (t.wellFormed hroot).decisions u n d hn hnd
  have hmem := decisionLine_mem_lines hu hls
  refine ⟨_, namedTest t.arena.schema d _, hmem, rfl, recalls_namedTest hd hm hi hne,
    fun a line ha => addLine_equality hd hm hi hname hne ha line, fun text htext hlf => ⟨?_, ?_⟩,
    fun name packed hpacked o => ?_⟩
  · obtain ⟨ls', hls', htext⟩ := bind_eq_ok_iff.mp htext
    obtain rfl := Except.ok.inj (hls.symm.trans hls')
    obtain rfl := Except.ok.inj htext
    refine Utf8.mem_byteLines_encode hmem (lineFeed_not_mem_decisionLine hm hi hname hne hlf) ?_
    rw [getLast?_decisionLine]
    decide
  · exact fun a line => Assembly.addEncodedLine_encode
      (Assembly.isSkipped_bracketed (toList_decisionLine hm hi hne)) line
  · obtain ⟨declared, hrecords⟩ := exists_packLines hls hpacked
    exact ofPacked_packLines hrecords

end Wagon

/-- A tree that tests for the second of two values with one name. -/
def Sample.doubledTree : Except GraphError Cart := do
  let schema : Schema :=
    .ofArranged #[.byte "phone" #["0", "a (b)", "a (b)"]] (by decide) (by decide)
  let b := (Builder.empty schema).addDecision (.byteEquals 0 2) |>.1
  let b := addLeaves b [.indices [1], .indices [2]]
  Cart.ofBuilder? (← wire (b.setRoot 0) [(0, some 1), (0, some 2)])

namespace Wagon

theorem opensDecision_phone : OpensDecision "phone" := opensDecision_sample _ List.mem_cons_self

/-- The line is found in the text, and read as the test for the first of the two values. -/
theorem equality_read_back_sample :
    ∃ t ls text answer, Sample.doubledTree = .ok t ∧
      t.arena.content? 0 = some (.decision ⟨0, .byteEquals 2, #[some 1, some 2]⟩) ∧
      lines t none = .ok ls ∧ "((phone is \"a (b)\")" ∈ ls ∧ toText t none = .ok text ∧
      Utf8.encode "((phone is \"a (b)\")" ∈ byteLines (Utf8.encode text) ∧
      (∀ (a : Assembly) line, a.schema = t.arena.schema →
        a.addLine line "((phone is \"a (b)\")" = answer >>= a.openDecision line) ∧
      answer = .ok (.byteEquals 0 1) := by
  have hsample : (Sample.doubledTree.toOption.any fun t =>
      t.arena.content? 0 == some (.decision ⟨0, .byteEquals 2, #[some 1, some 2]⟩) &&
        t.arena.schema.get? 0 == some (.byte "phone" #["0", "a (b)", "a (b)"]) &&
        Decision.valueLabel t.arena.schema 0 2 == "a (b)" &&
        decisionLine t.arena.schema ⟨0, .byteEquals 2, #[some 1, some 2]⟩ ==
          "((phone is \"a (b)\")" &&
        (lines t none).toOption.isSome && (toText t none).toOption.isSome) = true := by
    decide +kernel
  cases ht : Sample.doubledTree with
  | error e => simp [ht, Except.toOption] at hsample
  | ok t =>
    simp only [ht, Except.toOption, Option.any_some, Bool.and_eq_true, beq_iff_eq] at hsample
    obtain ⟨⟨⟨⟨⟨hroot, hfeature⟩, hlabel⟩, hline⟩, hlines⟩, htext⟩ := hsample
    cases hls : lines t none with
    | error e => simp [hls] at hlines
    | ok ls =>
      cases hwritten : toText t none with
      | error e => simp [hwritten] at htext
      | ok text =>
        obtain ⟨l, answer, hmem, rfl, hrecalls, hread, hfound, -⟩ :=
          equality_read_back t hls hroot hfeature (i := 2) rfl opensDecision_phone
            (by rw [hlabel]; decide)
        rw [hline] at hmem hread hfound
        rw [hlabel] at hrecalls hfound
        obtain ⟨hanswer, -⟩ := hrecalls.first 1 rfl (by decide)
        exact ⟨t, ls, text, answer, rfl, hroot, hls, hmem, hwritten,
          (hfound text hwritten (by decide)).1, hread, hanswer⟩

/-- So the test that comes back is another one. -/
theorem ordinal_changes_doubledTree :
    ∃ t text t', Sample.doubledTree = .ok t ∧
      t.arena.content? 0 = some (.decision ⟨0, .byteEquals 2, #[some 1, some 2]⟩) ∧
      (∃ m, t.arena.schema.get? 0 = some m ∧ OpensDecision m.name) ∧
      toText t none = .ok text ∧ ofText t.arena.schema {} (Utf8.encode text) = .ok t' ∧
      t'.arena.content? 0 = some (.decision ⟨0, .byteEquals 1, #[some 1, some 2]⟩) := by
  have hsample : (Sample.doubledTree.toOption.any fun t =>
      t.arena.content? 0 == some (.decision ⟨0, .byteEquals 2, #[some 1, some 2]⟩) &&
        t.arena.schema.get? 0 == some (.byte "phone" #["0", "a (b)", "a (b)"]) &&
        (toText t none).toOption.any fun text =>
          (ofText t.arena.schema {} (Utf8.encode text)).toOption.any fun t' =>
            t'.arena.content? 0 ==
              some (.decision ⟨0, .byteEquals 1, #[some 1, some 2]⟩)) = true := by
    decide +kernel
  cases ht : Sample.doubledTree with
  | error e => simp [ht, Except.toOption] at hsample
  | ok t =>
    simp only [ht, Except.toOption, Option.any_some, Bool.and_eq_true, beq_iff_eq] at hsample
    obtain ⟨⟨hroot, hfeature⟩, hread⟩ := hsample
    cases htext : toText t none with
    | error e => simp [htext] at hread
    | ok text =>
      cases ht' : ofText t.arena.schema {} (Utf8.encode text) with
      | error e => simp [htext, ht'] at hread
      | ok t' =>
        simp only [htext, ht', Option.any_some, beq_iff_eq] at hread
        exact ⟨t, text, t', rfl, hroot,
          ⟨_, hfeature, opensDecision_phone⟩, htext, ht', hread⟩

end Wagon

end FeatureTree
