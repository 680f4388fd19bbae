/-
Lines that were written one after the other are found again.

* `Text.cutLines_flatMap` — lines with a line feed after each;
* `Text.cutLines_intercalate` — lines with a line feed between them;
* `Text.mem_cutLines_flatMap` — one such line among others;
* `Text.not_mem_of_mem_cutLines` — lines hold no line feed;
* `Text.Utf8.map_encode_ascii` — ASCII text is its own encoding;
* `Text.Utf8.decode?_encode`, `Text.Utf8.encode_of_decode?` — an encoded text is decoded to
  that text, and what is decoded is an encoded text;
* `Text.Utf8.byteLines_eq` — the lines of an encoded text are its encoded lines.
-/
import FeatureTree.Text.Lines
import FeatureTree.Text.Utf8
import Mathlib.Data.List.Forall2

namespace FeatureTree.Text

/-! ### Cutting at line feeds -/

section Cut

variable {α : Type} [DecidableEq α] {lf cr : α} {line : List α}

theorem cutLinesLoop_done (xs line : List α) (done : List (List α)) :
    cutLinesLoop lf cr xs line done = done.reverse ++ cutLinesLoop lf cr xs line [] := by
  induction xs generalizing line done with
  | nil =>
    rw [cutLinesLoop, cutLinesLoop]
    by_cases hline : line.isEmpty = true
    · rw [if_pos hline, if_pos hline, List.reverse_nil, List.append_nil]
    · rw [if_neg hline, if_neg hline, List.reverse_cons]
      rfl
  | cons x xs ih =>
    rw [cutLinesLoop, cutLinesLoop]
    by_cases hx : x = lf
    · rw [if_pos hx, if_pos hx, ih, ih [] [dropReturn cr line.reverse], List.reverse_cons,
        List.append_assoc]
      rfl
    · rw [if_neg hx, if_neg hx, ih]

/-- What holds no line feed goes on the current line. -/
theorem cutLinesLoop_append (hline : lf ∉ line) (rest start : List α) (done : List (List α)) :
    cutLinesLoop lf cr (line ++ rest) start done =
      cutLinesLoop lf cr rest (line.reverse ++ start) done := by
  induction line generalizing start with
  | nil => rfl
  | cons x line ih =>
    obtain ⟨hx, hline⟩ : lf ≠ x ∧ lf ∉ line := by simpa using hline
    rw [List.cons_append, cutLinesLoop, if_neg fun h => hx h.symm, ih hline, List.reverse_cons,
      List.append_assoc]
    rfl

theorem cutLines_line (hline : lf ∉ line) (rest : List α) :
    cutLines lf cr (line ++ lf :: rest) = dropReturn cr line :: cutLines lf cr rest := by
  rw [cutLines, cutLinesLoop_append hline, cutLinesLoop, if_pos rfl, cutLinesLoop_done,
    List.append_nil, List.reverse_reverse]
  rfl

/-- The lines up to a line feed do not depend on what follows. -/
theorem cutLines_append (xs rest : List α) :
    cutLines lf cr (xs ++ lf :: rest) = cutLines lf cr (xs ++ [lf]) ++ cutLines lf cr rest := by
  have hloop : ∀ line, cutLinesLoop lf cr (xs ++ lf :: rest) line [] =
      cutLinesLoop lf cr (xs ++ [lf]) line [] ++ cutLinesLoop lf cr rest [] [] := by
    induction xs with
    | nil =>
      intro line
      rw [List.nil_append, List.nil_append, cutLinesLoop, cutLinesLoop, if_pos rfl, if_pos rfl,
        cutLinesLoop_done, cutLinesLoop]
      rfl
    | cons x xs ih =>
      intro line
      rw [List.cons_append, List.cons_append, cutLinesLoop, cutLinesLoop]
      by_cases hx : x = lf
      · rw [if_pos hx, if_pos hx, cutLinesLoop_done, cutLinesLoop_done (xs ++ [lf]), ih,
          List.append_assoc]
      · rw [if_neg hx, if_neg hx, ih]
  exact hloop []

theorem mem_of_mem_dropReturn {x : α} (h : x ∈ dropReturn cr line) : x ∈ line := by
  rw [dropReturn] at h
  split at h
  · exact List.dropLast_subset line h
  · exact h

/-- Lines hold nothing that the text does not hold. -/
theorem mem_of_mem_cutLines {x : α} {xs : List α} (hline : line ∈ cutLines lf cr xs)
    (hx : x ∈ line) : x ∈ xs := by
  have hloop : ∀ start, line ∈ cutLinesLoop lf cr xs start [] → x ∈ start ∨ x ∈ xs := by
    clear hline
    induction xs with
    | nil =>
      intro start hline
      rw [cutLinesLoop] at hline
      split at hline
      · simp at hline
      · obtain rfl : line = start.reverse := by simpa using hline
        exact .inl (List.mem_reverse.mp hx)
    | cons y xs ih =>
      intro start hline
      rw [cutLinesLoop] at hline
      split at hline
      · rw [cutLinesLoop_done, List.reverse_singleton, List.singleton_append] at hline
        rcases List.mem_cons.mp hline with rfl | hline
        · exact .inl (List.mem_reverse.mp (mem_of_mem_dropReturn hx))
        · exact .inr (List.mem_cons_of_mem _ ((ih [] hline).resolve_left (by simp)))
      · rcases ih _ hline with h | h
        · rcases List.mem_cons.mp h with rfl | h
          · exact .inr List.mem_cons_self
          · exact .inl h
        · exact .inr (List.mem_cons_of_mem _ h)
  exact (hloop [] hline).resolve_left (by simp)

/-- Lines hold no line feed. -/
theorem not_mem_of_mem_cutLines {xs : List α} (hline : line ∈ cutLines lf cr xs) : lf ∉ line := by
  have hloop : ∀ start, lf ∉ start → line ∈ cutLinesLoop lf cr xs start [] → lf ∉ line := by
    clear hline
    induction xs with
    | nil =>
      intro start hstart hline
      rw [cutLinesLoop] at hline
      split at hline
      · simp at hline
      · obtain rfl : line = start.reverse := by simpa using hline
        rwa [List.mem_reverse]
    | cons y xs ih =>
      intro start hstart hline
      rw [cutLinesLoop] at hline
      split at hline
      · rw [cutLinesLoop_done, List.reverse_singleton, List.singleton_append] at hline
        rcases List.mem_cons.mp hline with rfl | hline
        · exact fun h => hstart (List.mem_reverse.mp (mem_of_mem_dropReturn h))
        · exact ih [] (by simp) hline
      · next hy => exact ih _ (by simp [Ne.symm hy, hstart]) hline
  exact hloop [] (by simp) hline

/-- A line without a line feed, and without a carriage return at its end, comes out as it
was, whatever lines stand around it. -/
theorem mem_cutLines_flatMap {lines : List (List α)} (hmem : line ∈ lines) (hlf : lf ∉ line)
    (hcr : line.getLast? ≠ some cr) : line ∈ cutLines lf cr (lines.flatMap (· ++ [lf])) := by
  induction lines with
  | nil => simp at hmem
  | cons l lines ih =>
    rw [List.flatMap_cons, List.append_assoc, List.singleton_append, cutLines_append]
    rcases List.mem_cons.mp hmem with rfl | hmem
    · have hkeep : dropReturn cr line = line := by
        rw [dropReturn, if_neg hcr]
      rw [cutLines_line hlf, hkeep]
      exact List.mem_cons_self
    · exact List.mem_append_right _ (ih hmem)

/-- A last line comes out as it was. -/
theorem cutLines_last (hline : lf ∉ line) (hne : line ≠ []) : cutLines lf cr line = [line] := by
  have hcut : cutLinesLoop lf cr (line ++ []) [] [] =
      cutLinesLoop lf cr [] (line.reverse ++ []) [] :=
    cutLinesLoop_append hline [] [] []
  rw [List.append_nil, List.append_nil] at hcut
  rw [cutLines, hcut, cutLinesLoop, if_neg (by simpa using hne), List.reverse_reverse]
  rfl

/-- Lines without line feeds come out as they were, but for a carriage return at their end. -/
theorem cutLines_flatMap_dropReturn {lines : List (List α)} (hlf : ∀ l ∈ lines, lf ∉ l) :
    cutLines lf cr (lines.flatMap (· ++ [lf])) = lines.map (dropReturn cr) := by
  induction lines with
  | nil => rfl
  | cons l lines ih =>
    rw [List.flatMap_cons, List.append_assoc, List.singleton_append,
      cutLines_line (hlf l List.mem_cons_self), ih fun l hl => hlf l (List.mem_cons_of_mem _ hl),
      List.map_cons]

/-- Lines without line feeds, and without a carriage return at their end, come out
as they were. -/
theorem cutLines_flatMap {lines : List (List α)} (hlf : ∀ l ∈ lines, lf ∉ l)
    (hcr : ∀ l ∈ lines, l.getLast? ≠ some cr) :
    cutLines lf cr (lines.flatMap (· ++ [lf])) = lines := by
  have hkeep : ∀ l ∈ lines, dropReturn cr l = l := fun l hl => by
    rw [dropReturn, if_neg (hcr l hl)]
  rw [cutLines_flatMap_dropReturn hlf, List.map_congr_left hkeep, List.map_id']

/-- Lines without line feeds, none of them empty, come out as they were or without a
carriage return at their end. -/
theorem cutLines_intercalate {lines : List (List α)} (hlf : ∀ l ∈ lines, lf ∉ l)
    (hne : ∀ l ∈ lines, l ≠ []) :
    List.Forall₂ (fun l line => line = l ∨ line = dropReturn cr l) lines
      (cutLines lf cr ([lf].intercalate lines)) := by
  induction lines with
  | nil => exact .nil
  | cons l lines ih =>
    have hl := hlf l List.mem_cons_self
    cases lines with
    | nil =>
      have hjoin : [lf].intercalate [l] = l := by simp [List.intercalate]
      rw [hjoin, cutLines_last hl (hne l List.mem_cons_self)]
      exact .cons (.inl rfl) .nil
    | cons l' lines =>
      have hjoin : [lf].intercalate (l :: l' :: lines) =
          l ++ lf :: [lf].intercalate (l' :: lines) := by
        simp [List.intercalate]
      rw [hjoin, cutLines_line hl]
      exact .cons (.inr rfl) (ih (fun l hl => hlf l (List.mem_cons_of_mem _ hl))
        fun l hl => hne l (List.mem_cons_of_mem _ hl))

end Cut

/-! ### ASCII -/

namespace Utf8

theorem utf8EncodeChar_ascii {c : Char} (h : c.toNat < 128) :
    String.utf8EncodeChar c = [UInt8.ofNat c.toNat] := by
  have hval : c.val.toNat ≤ 127 := Nat.le_of_lt_succ h
  rw [String.utf8EncodeChar]
  simp only [hval, if_true]
  rfl

/-- ASCII text is its own encoding. -/
theorem map_encode_ascii {s : String} (h : ∀ c ∈ s.toList, c.toNat < 128) :
    (encode s).map (fun b => Char.ofNat b.toNat) = s.toList := by
  rw [encode]
  generalize s.toList = cs at h
  induction cs with
  | nil => rfl
  | cons c cs ih =>
    have hc := h c List.mem_cons_self
    have hbyte : (UInt8.ofNat c.toNat).toNat = c.toNat := by
      rw [UInt8.toNat_ofNat']
      exact Nat.mod_eq_of_lt (by omega)
    rw [List.flatMap_cons, utf8EncodeChar_ascii hc, List.map_append, List.map_singleton, hbyte,
      Char.ofNat_toNat, ih fun d hd => h d (List.mem_cons_of_mem _ hd), List.singleton_append]

/-! ### Encoded text -/

theorem toByteArray_encode (s : String) :
    (⟨(encode s).toArray⟩ : ByteArray) = s.toByteArray := by
  rw [← String.utf8Encode_toList, List.utf8Encode]
  refine ByteArray.ext ?_
  rw [List.data_toByteArray]
  rfl

/-- An encoded text is decoded to that text. -/
theorem decode?_encode (s : String) : decode? (encode s) = some s := by
  rw [decode?, toByteArray_encode, String.fromUTF8?, dif_pos s.isValidUTF8]
  rfl

/-- What is decoded is the encoding of the text. -/
theorem encode_of_decode? {bytes : List UInt8} {s : String} (h : decode? bytes = some s) :
    encode s = bytes := by
  rw [decode?, String.fromUTF8?] at h
  split at h
  · next hvalid =>
    obtain rfl := Option.some_inj.mp h
    exact congrArg (fun b : ByteArray => b.data.toList)
      (toByteArray_encode (.fromUTF8 ⟨bytes.toArray⟩ hvalid))
  · simp at h

/-- The byte of an ASCII character of a text is in the encoding. -/
theorem mem_encode_of_ascii {s : String} {c : Char} (hc : c.toNat < 128) (h : c ∈ s.toList) :
    UInt8.ofNat c.toNat ∈ encode s := by
  refine List.mem_flatMap.mpr ⟨c, h, ?_⟩
  rw [utf8EncodeChar_ascii hc]
  exact List.mem_singleton_self _

/-- The bytes of a character beyond ASCII are all above ASCII. -/
theorem le_of_mem_utf8EncodeChar {c : Char} {b : UInt8} (hc : 128 ≤ c.toNat)
    (h : b ∈ String.utf8EncodeChar c) : 128 ≤ b.toNat := by
  -- lead bytes and continuation bytes are remainders with the high bit added
  have high : ∀ v m n : Nat, 0 < m → 128 ≤ n → m + n ≤ 256 →
      128 ≤ (UInt8.ofNat (v % m + n)).toNat := by
    intro v m n hm hn hsum
    have := Nat.mod_lt v hm
    rw [UInt8.toNat_ofNat', Nat.mod_eq_of_lt (by omega)]
    omega
  have hone : ¬ c.val.toNat ≤ 127 := by
    show ¬ c.toNat ≤ 127
    omega
  rw [String.utf8EncodeChar] at h
  simp only [hone, if_false] at h
  split at h
  · simp only [List.mem_cons, List.not_mem_nil, or_false] at h
    rcases h with rfl | rfl <;> exact high _ _ _ (by decide) (by decide) (by decide)
  · split at h
    · simp only [List.mem_cons, List.not_mem_nil, or_false] at h
      rcases h with rfl | rfl | rfl <;> exact high _ _ _ (by decide) (by decide) (by decide)
    · simp only [List.mem_cons, List.not_mem_nil, or_false] at h
      rcases h with rfl | rfl | rfl | rfl <;>
        exact high _ _ _ (by decide) (by decide) (by decide)

/-- A byte of ASCII comes from its own character alone. -/
theorem eq_of_mem_utf8EncodeChar {b : UInt8} {c : Char} (hb : b.toNat < 128)
    (h : b ∈ String.utf8EncodeChar c) : c = Char.ofNat b.toNat := by
  by_cases hascii : c.toNat < 128
  · rw [utf8EncodeChar_ascii hascii, List.mem_singleton] at h
    have hbyte : b.toNat = c.toNat := by
      rw [h, UInt8.toNat_ofNat']
      exact Nat.mod_eq_of_lt (by omega)
    rw [hbyte, Char.ofNat_toNat]
  · have := le_of_mem_utf8EncodeChar (Nat.le_of_not_lt hascii) h
    omega

/-! ### The lines of an encoded text -/

/-- The carriage return at the end of a line is the byte at the end of its encoding. -/
theorem dropReturn_encode (cs : List Char) :
    dropReturn 13 (cs.flatMap String.utf8EncodeChar) =
      (dropReturn '\r' cs).flatMap String.utf8EncodeChar := by
  rcases List.eq_nil_or_concat cs with rfl | ⟨front, c, rfl⟩
  · rfl
  · rw [List.concat_eq_append, List.flatMap_append, List.flatMap_singleton]
    by_cases hc : c = '\r'
    · subst hc
      have hbyte : String.utf8EncodeChar '\r' = [13] := by decide
      rw [dropReturn, dropReturn, hbyte, List.getLast?_concat, List.getLast?_concat, if_pos rfl,
        if_pos rfl, List.dropLast_concat, List.dropLast_concat]
    · have hlast : (front.flatMap String.utf8EncodeChar ++ String.utf8EncodeChar c).getLast? ≠
          some 13 := by
        rw [List.getLast?_append_of_ne_nil _ (by simp)]
        exact fun h => hc (eq_of_mem_utf8EncodeChar (by decide) (List.mem_of_getLast? h))
      rw [dropReturn, dropReturn, List.getLast?_concat, if_neg hlast, if_neg (by simpa using hc),
        List.flatMap_append, List.flatMap_singleton]

theorem cutLinesLoop_encode (cs line : List Char) :
    cutLinesLoop 10 13 (cs.flatMap String.utf8EncodeChar)
        (line.reverse.flatMap String.utf8EncodeChar).reverse [] =
      (cutLinesLoop '\n' '\r' cs line []).map (·.flatMap String.utf8EncodeChar) := by
  induction cs generalizing line with
  | nil =>
    rw [List.flatMap_nil, cutLinesLoop, cutLinesLoop]
    cases line with
    | nil => rfl
    | cons c line =>
      rw [if_neg (by simp), if_neg (by simp), List.reverse_reverse]
      rfl
  | cons c cs ih =>
    rw [List.flatMap_cons, cutLinesLoop]
    by_cases hc : c = '\n'
    · subst hc
      have hbyte : String.utf8EncodeChar '\n' = [10] := by decide
      rw [if_pos rfl, hbyte, List.singleton_append, cutLinesLoop, if_pos rfl, cutLinesLoop_done,
        cutLinesLoop_done _ _ [dropReturn '\r' line.reverse], List.reverse_reverse,
        dropReturn_encode, List.map_append]
      exact congrArg (_ :: ·) (ih [])
    · have hbytes : (10 : UInt8) ∉ String.utf8EncodeChar c := fun h =>
        hc (eq_of_mem_utf8EncodeChar (by decide) h)
      rw [if_neg hc, cutLinesLoop_append hbytes, ← ih (c :: line), List.reverse_cons,
        List.flatMap_append, List.flatMap_singleton, List.reverse_append]

/-- The lines of an encoded text are the encodings of its lines. -/
theorem byteLines_eq (s : String) : byteLines (encode s) = (lines s).map encode := by
  have hcut := cutLinesLoop_encode s.toList []
  rw [byteLines, encode, cutLines]
  refine hcut.trans ?_
  rw [lines, List.map_map, cutLines]
  refine List.map_congr_left fun cs _ => ?_
  rw [Function.comp, encode, String.toList_ofList]

theorem toList_join_lines (ls : List String) :
    (String.join (ls.map (· ++ "\n"))).toList =
      (ls.map String.toList).flatMap (· ++ ['\n']) := by
  rw [String.toList_join, List.flatMap_map, List.flatMap_map]
  exact List.flatMap_congr fun l _ => String.toList_append

/-- A line without a line feed is found in the encoded text among any others. -/
theorem mem_byteLines_encode {ls : List String} {l : String} (hmem : l ∈ ls)
    (hlf : '\n' ∉ l.toList) (hcr : l.toList.getLast? ≠ some '\r') :
    encode l ∈ byteLines (encode (String.join (ls.map (· ++ "\n")))) := by
  have hcut := mem_cutLines_flatMap (List.mem_map_of_mem (f := String.toList) hmem) hlf hcr
  rw [byteLines_eq, lines, toList_join_lines, List.map_map]
  refine List.mem_map.mpr ⟨_, hcut, ?_⟩
  rw [Function.comp, String.ofList_toList]

/-- Lines that hold no line feed and end in another character than a carriage return are
the lines of the text in which each of them is followed by a line feed. -/
theorem byteLines_encode {ls : List String} {c : Char} (hne : c ≠ '\r')
    (hlf : ∀ l ∈ ls, '\n' ∉ l.toList) (hlast : ∀ l ∈ ls, l.toList.getLast? = some c) :
    byteLines (encode (String.join (ls.map (· ++ "\n")))) = ls.map encode := by
  have hcut : cutLines '\n' '\r' ((ls.map String.toList).flatMap (· ++ ['\n'])) =
      ls.map String.toList := by
    refine cutLines_flatMap (fun cs hcs => ?_) fun cs hcs => ?_
    · obtain ⟨l, hl, rfl⟩ := List.mem_map.mp hcs
      exact hlf l hl
    · obtain ⟨l, hl, rfl⟩ := List.mem_map.mp hcs
      rw [hlast l hl]
      simpa using hne
  rw [byteLines_eq, lines, toList_join_lines, hcut, List.map_map, List.map_map]
  refine List.map_congr_left fun l _ => ?_
  simp [String.ofList_toList]

/-- Lines that hold no line feed are the lines of the text in which each of them is followed
by a carriage return and a line feed. -/
theorem byteLines_encode_returns {ls : List String} (hlf : ∀ l ∈ ls, '\n' ∉ l.toList) :
    byteLines (encode (String.join ((ls.map (· ++ "\r")).map (· ++ "\n")))) = ls.map encode := by
  have hdrop : ∀ l : String, dropReturn '\r' (l ++ "\r").toList = l.toList := by
    intro l
    rw [String.toList_append, dropReturn, show "\r".toList = ['\r'] from rfl,
      List.getLast?_concat, if_pos rfl, List.dropLast_concat]
  rw [byteLines_eq, lines, toList_join_lines, cutLines_flatMap_dropReturn]
  · simp only [List.map_map]
    refine List.map_congr_left fun l _ => ?_
    simp only [Function.comp, hdrop, String.ofList_toList]
  · intro cs hcs
    obtain ⟨l', hl', rfl⟩ := List.mem_map.mp hcs
    obtain ⟨l, hl, rfl⟩ := List.mem_map.mp hl'
    rw [String.toList_append, List.mem_append, not_or]
    exact ⟨hlf l hl, by decide⟩

end Utf8

end FeatureTree.Text
