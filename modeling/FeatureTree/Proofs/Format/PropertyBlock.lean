/-
What a block of properties gives when it is read again.

The writer escapes the 16-bit code units of a character, the reader takes each
escape for a character by itself.  So a text is read up to the first unit that is
the first half of a surrogate pair, where the reader stops; if there is no such
unit, the text comes back.

* `PropertyText.firstHigh?` — the first half of the first pair in a text;
* `PropertyText.unescape_escapeKey_eq`, `PropertyText.unescape_escapeValue_eq` — an
  escaped text read again;
* `PropertyText.reads_block` — the block of properties without pairs is read back;
* `PropertyText.readBlock_blockBytes` — what is read from any block of properties.
-/
import FeatureTree.Proofs.Format.PropertyText

namespace FeatureTree

namespace PropertyText

open Text

/-! ### Texts -/

/-- The first code unit of a text that is the first half of a surrogate pair. -/
def firstHigh? (s : String) : Option UInt16 := (Utf16.encode s).find? Utf16.isHigh

/-- A value if there is no such unit, and else the error that names its escape. -/
def unlessHigh {α : Type} (a : α) : Option UInt16 → Except FormatError α
  | none => .ok a
  | some u => .error (.invalidValue "property escape" (String.ofList (escapeUnit u)))

/-- Only the Basic Multilingual Plane does without pairs. -/
theorem firstHigh?_eq_none_iff {s : String} :
    firstHigh? s = none ↔ ∀ c ∈ s.toList, c.toNat < 0x10000 := by
  rw [firstHigh?, Utf16.encode, List.find?_eq_none]
  constructor
  · intro h c hc
    by_contra hlarge
    obtain ⟨high, low, hunits, hhigh, -⟩ := Utf16.encodeChar_of_le (Nat.le_of_not_lt hlarge)
    exact h high (List.mem_flatMap.mpr ⟨c, hc, by simp [hunits]⟩) hhigh
  · intro h u hu
    obtain ⟨c, hc, hu⟩ := List.mem_flatMap.mp hu
    obtain ⟨v, hunits, -, hhigh, -⟩ := Utf16.encodeChar_of_lt (h c hc)
    rw [hunits, List.mem_singleton] at hu
    rw [hu, hhigh]
    decide

/-- The reader stops at the first half of a pair. -/
theorem unescapeLoop_escapeUnit {u : UInt16} (hu : Utf16.isHigh u = true) (rest out : List Char) :
    unescapeLoop 0 (escapeUnit u ++ rest) out =
      .error (.invalidValue "property escape" (String.ofList (escapeUnit u))) := by
  have hlt : u.toNat < 2 ^ 16 := u.toNat_lt
  have hvalid : ¬ u.toNat.isValidChar := by
    obtain ⟨hlow, hhigh⟩ := Utf16.isHigh_eq_true_iff.mp hu
    rintro (h | ⟨h, -⟩) <;> omega
  have hchar : escapedChar? (unitDigits u.toNat) = none := by
    rw [escapedChar?, if_neg (by simp [length_unitDigits hlt]), hex?_unitDigits, Option.bind_some,
      dif_neg hvalid]
  have htake : (unitDigits u.toNat ++ rest).take 4 = unitDigits u.toNat :=
    List.take_left' (length_unitDigits hlt)
  show unescapeLoop 0 ('\\' :: 'u' :: (unitDigits u.toNat ++ rest)) out = _
  rw [unescapeLoop.eq_def]
  simp only [ne_eq, not_true_eq_false, if_false, htake, hchar]
  rfl

variable {escapeSpace : Bool}

/-- A character is read again, unless it is written as a pair. -/
theorem unescapeLoop_escapeChar (c : Char) (rest out : List Char) :
    unescapeLoop 0 (escapeChar escapeSpace c ++ rest) out =
      (unlessHigh (c :: out) ((Utf16.encodeChar c).find? Utf16.isHigh)).bind
        (unescapeLoop 0 rest) := by
  by_cases hc : c.toNat < 0x10000
  · obtain ⟨u, hunits, -, hhigh, -⟩ := Utf16.encodeChar_of_lt hc
    rw [(block_escapeChar hc).unescapeLoop_append, hunits, List.find?_cons, hhigh]
    rfl
  · have hc : 0x10000 ≤ c.toNat := Nat.le_of_not_lt hc
    obtain ⟨high, low, hunits, hhigh, -⟩ := Utf16.encodeChar_of_le hc
    rw [escapeChar_of_le hc, hunits, List.find?_cons, hhigh, List.flatMap_cons, List.append_assoc,
      unescapeLoop_escapeUnit hhigh]
    rfl

theorem unescapeLoop_flatMap_eq (cs rest out : List Char) :
    unescapeLoop 0 (cs.flatMap (escapeChar escapeSpace) ++ rest) out =
      (unlessHigh (cs.reverse ++ out) ((cs.flatMap Utf16.encodeChar).find? Utf16.isHigh)).bind
        (unescapeLoop 0 rest) := by
  induction cs generalizing out with
  | nil => rfl
  | cons c cs ih =>
    rw [List.flatMap_cons, List.append_assoc, unescapeLoop_escapeChar, List.flatMap_cons,
      List.find?_append]
    cases (Utf16.encodeChar c).find? Utf16.isHigh with
    | none =>
      show unescapeLoop 0 _ (c :: out) = _
      rw [ih, List.reverse_cons, List.append_assoc]
      rfl
    | some u => rfl

/-- An escaped name is read again up to its first pair. -/
theorem unescape_escapeKey_eq (s : String) :
    unescape (escapeKey s) = unlessHigh s (firstHigh? s) := by
  rw [unescape, escapeKey, ← List.append_nil (s.toList.flatMap _), unescapeLoop_flatMap_eq,
    firstHigh?, Utf16.encode]
  cases (s.toList.flatMap Utf16.encodeChar).find? Utf16.isHigh with
  | none =>
    show Except.ok _ = Except.ok s
    simp
  | some u => rfl

/-- And so is an escaped value, whose first character is escaped like a name. -/
theorem unescape_escapeValue_eq (s : String) :
    unescape (escapeValue s) = unlessHigh s (firstHigh? s) := by
  have hofList : String.ofList s.toList = s := String.ofList_toList
  rw [unescape, escapeValue, firstHigh?, Utf16.encode]
  cases hs : s.toList with
  | nil =>
    rw [hs] at hofList
    rw [← hofList]
    rfl
  | cons c cs =>
    rw [hs] at hofList
    simp only
    rw [unescapeLoop_escapeChar, ← List.append_nil (cs.flatMap _), List.flatMap_cons,
      List.find?_append]
    cases (Utf16.encodeChar c).find? Utf16.isHigh with
    | none =>
      show (unescapeLoop 0 _ [c]).map _ = _
      rw [unescapeLoop_flatMap_eq, Option.none_or]
      cases (cs.flatMap Utf16.encodeChar).find? Utf16.isHigh with
      | none =>
        show Except.ok _ = Except.ok s
        rw [← hofList]
        simp
      | some u => rfl
    | some u => rfl

/-! ### Properties -/

/-- The first half of the first pair in an entry, its name before its value. -/
def entryHigh? (e : String × String) : Option UInt16 := (firstHigh? e.1).or (firstHigh? e.2)

theorem entryHigh?_eq_none_iff {e : String × String} : entryHigh? e = none ↔ Basic e := by
  rw [entryHigh?, Option.or_eq_none_iff, firstHigh?_eq_none_iff, firstHigh?_eq_none_iff, Basic]

theorem reread_eq (e : String × String) : reread e = unlessHigh e (entryHigh? e) := by
  rw [reread, unescape_escapeKey_eq, unescape_escapeValue_eq, entryHigh?]
  cases firstHigh? e.1 <;> cases firstHigh? e.2 <;> rfl

theorem mapM_reread_eq (entries : List (String × String)) :
    entries.mapM reread = unlessHigh entries (entries.findSome? entryHigh?) := by
  induction entries with
  | nil => rfl
  | cons e entries ih =>
    rw [List.mapM_cons, ih, reread_eq, List.findSome?_cons]
    cases entryHigh? e with
    | none =>
      cases entries.findSome? entryHigh? <;> rfl
    | some u => rfl

/-- The text of properties is read again up to its first pair. -/
theorem parse_render_eq (p : Properties) :
    parse (Utf8.encode (render p)) = unlessHigh p (p.entries.findSome? entryHigh?) := by
  rw [parse_render_eq_mapM, mapM_reread_eq]
  cases p.entries.findSome? entryHigh? with
  | none => exact congrArg Except.ok (Properties.ofList_entries p)
  | some u => rfl

/-! ### Blocks -/

/-- What is read from the block of properties, whatever follows it. -/
theorem readBlock_of_blockBytes {p : Properties} {bytes : List UInt8}
    (h : blockBytes p = .ok bytes) (rest : List UInt8) :
    readBlock (bytes ++ rest) =
      (unlessHigh (if p.isEmpty then none else some p) (p.entries.findSome? entryHigh?)).map
        fun q => (q, rest) := by
  rw [blockBytes] at h
  by_cases hempty : p.isEmpty = true
  · rw [if_pos hempty] at h ⊢
    obtain rfl := Except.ok.inj h
    rw [Properties.isEmpty, List.isEmpty_iff] at hempty
    rw [hempty]
    exact ((Reader.reads_int16 (n := 0) (by omega)).last (Reader.Reads.pure none)) rest
  · rw [if_neg hempty] at h ⊢
    simp only at h
    split at h
    · next hlt =>
      obtain rfl := Except.ok.inj h
      rw [Properties.isEmpty, List.isEmpty_iff] at hempty
      rw [readBlock_text (encode_render_ne_nil hempty) hlt, parse_render_eq]
      cases p.entries.findSome? entryHigh? <;> rfl
    · simp at h

/-- Without pairs the block of properties is read back; that of no properties is empty. -/
theorem reads_block {p : Properties} {bytes : List UInt8} (h : ∀ e ∈ p.entries, Basic e)
    (hbytes : blockBytes p = .ok bytes) :
    readBlock.Reads bytes (if p.isEmpty then none else some p) := by
  intro rest
  have hnone : p.entries.findSome? entryHigh? = none :=
    List.findSome?_eq_none_iff.mpr fun e he => entryHigh?_eq_none_iff.mpr (h e he)
  rw [readBlock_of_blockBytes hbytes, hnone]
  rfl

/-- Only properties without pairs are read from their block. -/
theorem basic_of_readBlock {p : Properties} {bytes rest : List UInt8}
    {x : Option Properties × List UInt8} (hbytes : blockBytes p = .ok bytes)
    (h : readBlock (bytes ++ rest) = .ok x) : ∀ e ∈ p.entries, Basic e := by
  rw [readBlock_of_blockBytes hbytes] at h
  cases hhigh : p.entries.findSome? entryHigh? with
  | none => exact fun e he => entryHigh?_eq_none_iff.mp (List.findSome?_eq_none_iff.mp hhigh e he)
  | some u => simp [hhigh, unlessHigh, Except.map] at h

/-- Properties whose text fits a block are written.  The block gives them back if they
have no surrogate pairs, that is if all their characters lie in the Basic Multilingual
Plane; otherwise the reader refuses the block, whatever follows it, and names the first
half of the first pair. -/
theorem readBlock_blockBytes {p : Properties} (hentries : p.entries ≠ [])
    (hlength : (Utf8.encode (render p)).length ≤ 32767) :
    ∃ bytes, blockBytes p = .ok bytes ∧
      (∀ rest, readBlock (bytes ++ rest) =
        match p.entries.findSome? entryHigh? with
        | none => .ok (some p, rest)
        | some u =>
          .error (.invalidValue "property escape" (String.ofList (escapeUnit u)))) ∧
      (p.entries.findSome? entryHigh? = none ↔ ∀ e ∈ p.entries, Basic e) := by
  have hempty : ¬ p.isEmpty = true := by
    rwa [Properties.isEmpty, List.isEmpty_iff]
  have hlt : (Utf8.encode (render p)).length < 0x8000 := Nat.lt_succ_of_le hlength
  have hbytes : blockBytes p = .ok _ := (if_neg hempty).trans (if_pos hlt)
  refine ⟨_, hbytes, fun rest => ?_, ?_⟩
  · rw [readBlock_of_blockBytes hbytes, if_neg hempty]
    cases p.entries.findSome? entryHigh? <;> rfl
  · rw [List.findSome?_eq_none_iff]
    exact forall₂_congr fun e _ => entryHigh?_eq_none_iff

/-- Names and values with blanks at both ends, separators, control characters and
backslashes at the end. -/
def oddProperties : Properties :=
  Properties.ofList [("", " "), (" #a=\\", "\t!:\x00\r\n é\\"), ("日 ", "")]

theorem readBlock_blockBytes_oddProperties :
    ∃ bytes, blockBytes oddProperties = .ok bytes ∧
      ∀ rest, readBlock (bytes ++ rest) = .ok (some oddProperties, rest) := by
  have hnone : oddProperties.entries.findSome? entryHigh? = none := by decide +kernel
  obtain ⟨bytes, hbytes, hread, -⟩ :=
    readBlock_blockBytes (p := oddProperties) (by decide +kernel) (by decide +kernel)
  refine ⟨bytes, hbytes, fun rest => ?_⟩
  rw [hread, hnone]

/-- One character outside the Basic Multilingual Plane. -/
def pairProperties : Properties := ⟨[("k", "😀")], List.pairwise_singleton ..⟩

/-- The block of these properties is written and refused: its text is
`k=`, the escapes of the two surrogates, and a line feed. -/
theorem not_readBlock_pairProperties :
    pairProperties.entries ≠ [] ∧ (Utf8.encode (render pairProperties)).length ≤ 32767 ∧
      ∃ bytes, blockBytes pairProperties = .ok bytes ∧
        readBlock bytes = .error (.invalidValue "property escape" "\\uD83D") ∧
        readBlock bytes ≠ .ok (some pairProperties, []) := by
  have hbytes : blockBytes pairProperties = .ok (Stream.bigEndian 2 15 ++
      Utf8.encode "k=\\uD83D\\uDE00\n") := by
    decide +kernel
  have hread : (blockBytes pairProperties).toOption.map readBlock =
      some (.error (.invalidValue "property escape" "\\uD83D")) := by
    decide +kernel
  rw [hbytes] at hread
  have hread := Option.some_inj.mp hread
  exact ⟨by decide, by decide +kernel, _, hbytes, hread, by simp [hread]⟩

end PropertyText

end FeatureTree
