/-
The encodings of text by 16-bit code units can be read back.

Every character is decoded from its own units, and every unit from its own
bytes, whatever follows; so both decoders undo their encoders.

* `Utf16.decode?_encode` — the text of its code units;
* `ModifiedUtf8.decode?_encode` — the text of its modified encoding;
* `ModifiedUtf8.zero_not_mem_encode` — the modified encoding holds no zero byte.
-/
import FeatureTree.Text.ModifiedUtf8
import Mathlib.Algebra.GroupWithZero.Nat
import Mathlib.Data.List.Basic

namespace FeatureTree.Text

namespace Utf16

theorem toNat_ofNat {n : Nat} (h : n < 2 ^ 16) : (UInt16.ofNat n).toNat = n := by
  rw [UInt16.toNat_ofNat']
  exact Nat.mod_eq_of_lt h

theorem isHigh_eq_true_iff {u : UInt16} :
    isHigh u = true ↔ 0xD800 ≤ u.toNat ∧ u.toNat ≤ 0xDBFF := by
  simp [isHigh, UInt16.le_iff_toNat_le]

theorem isLow_eq_true_iff {u : UInt16} :
    isLow u = true ↔ 0xDC00 ≤ u.toNat ∧ u.toNat ≤ 0xDFFF := by
  simp [isLow, UInt16.le_iff_toNat_le]

/-- A character of the first plane is one unit, which is no surrogate. -/
theorem encodeChar_of_lt {c : Char} (h : c.toNat < 0x10000) :
    ∃ u, encodeChar c = [u] ∧ u.toNat = c.toNat ∧ isHigh u = false ∧ isLow u = false := by
  have hvalid : c.toNat < 0xD800 ∨ (0xDFFF < c.toNat ∧ c.toNat < 0x110000) := c.valid
  have hn : (UInt16.ofNat c.toNat).toNat = c.toNat := toNat_ofNat (by omega)
  refine ⟨UInt16.ofNat c.toNat, if_pos h, hn, ?_, ?_⟩
  · rw [Bool.eq_false_iff, Ne, isHigh_eq_true_iff, hn]
    omega
  · rw [Bool.eq_false_iff, Ne, isLow_eq_true_iff, hn]
    omega

/-- Any other character is a pair of surrogates. -/
theorem encodeChar_of_le {c : Char} (h : 0x10000 ≤ c.toNat) :
    ∃ high low, encodeChar c = [high, low] ∧ isHigh high = true ∧ isLow low = true ∧
      joinPair high low = c := by
  have hvalid : c.toNat < 0xD800 ∨ (0xDFFF < c.toNat ∧ c.toNat < 0x110000) := c.valid
  set high := 0xD800 + (c.toNat - 0x10000) / 0x400 with hhigh
  set low := 0xDC00 + (c.toNat - 0x10000) % 0x400 with hlow
  have hh : (UInt16.ofNat high).toNat = high := toNat_ofNat (by omega)
  have hl : (UInt16.ofNat low).toNat = low := toNat_ofNat (by omega)
  refine ⟨UInt16.ofNat high, UInt16.ofNat low, if_neg (by omega), ?_, ?_, ?_⟩
  · rw [isHigh_eq_true_iff, hh]
    omega
  · rw [isLow_eq_true_iff, hl]
    omega
  · rw [joinPair, hh, hl]
    have : 0x10000 + (high - 0xD800) * 0x400 + (low - 0xDC00) = c.toNat := by omega
    rw [this, Char.ofNat_toNat]

/-- The units of a character are decoded to that character. -/
theorem decodeLoop_encodeChar (c : Char) (out : List Char) (rest : List UInt16) :
    decodeLoop out (encodeChar c ++ rest) = decodeLoop (c :: out) rest := by
  by_cases hbmp : c.toNat < 0x10000
  · obtain ⟨u, hu, hn, hhigh, hlow⟩ := encodeChar_of_lt hbmp
    rw [hu, List.singleton_append, decodeLoop.eq_def]
    simp [hhigh, hlow, hn, Char.ofNat_toNat]
  · obtain ⟨high, low, hunits, hhigh, hlow, hjoin⟩ :=
      encodeChar_of_le (by omega : 0x10000 ≤ c.toNat)
    rw [hunits]
    show decodeLoop out (high :: low :: rest) = _
    rw [decodeLoop, if_pos hhigh]
    show (if isLow low = true then _ else _) = _
    rw [if_pos hlow, hjoin]

theorem decodeLoop_flatMap (cs out : List Char) :
    decodeLoop out (cs.flatMap encodeChar) = some (out.reverse ++ cs) := by
  induction cs generalizing out with
  | nil => rw [List.flatMap_nil, decodeLoop, List.append_nil]
  | cons c cs ih =>
    rw [List.flatMap_cons, decodeLoop_encodeChar, ih, List.reverse_cons, List.append_assoc]
    rfl

theorem decode?_encode (s : String) : decode? (encode s) = some s := by
  rw [decode?, encode, decodeLoop_flatMap]
  simp

end Utf16

namespace ModifiedUtf8

/-- The bytes of a code unit are decoded to that unit. -/
theorem decodeLoop_encodeUnit (u : UInt16) (out : List UInt16) (rest : List UInt8) :
    decodeLoop out (encodeUnit u ++ rest) = decodeLoop (u :: out) rest := by
  have hlt : u.toNat < 65536 := u.toNat_lt
  have hbyte : ∀ n, n < 256 → (UInt8.ofNat n).toNat = n := by
    intro n hn
    rw [UInt8.toNat_ofNat']
    exact Nat.mod_eq_of_lt hn
  have hcont : ∀ n, n < 64 → continues (UInt8.ofNat (0x80 + n)) = true := by
    intro n hn
    rw [continues, hbyte _ (by omega)]
    simp only [beq_iff_eq]
    omega
  rw [encodeUnit]
  -- one, two or three bytes; zero takes two
  by_cases h1 : 1 ≤ u.toNat ∧ u.toNat ≤ 0x7F
  · rw [if_pos h1, List.singleton_append, decodeLoop.eq_def]
    simp only
    rw [hbyte _ (by omega), if_pos (by omega), UInt16.ofNat_toNat]
  · by_cases h2 : u.toNat ≤ 0x7FF
    · rw [if_neg h1, if_pos h2]
      show decodeLoop out (_ :: _ :: rest) = _
      rw [decodeLoop, hbyte _ (by omega), if_neg (by omega), if_pos (by omega),
        if_pos (hcont _ (by omega)), hbyte _ (by omega)]
      congr
      rw [← UInt16.toNat_inj, UInt16.toNat_ofNat', Nat.mod_eq_of_lt] <;> omega
    · rw [if_neg h1, if_neg h2]
      show decodeLoop out (_ :: _ :: _ :: rest) = _
      rw [decodeLoop, hbyte _ (by omega), if_neg (by omega), if_neg (by omega),
        if_pos (by omega)]
      simp only [hcont _ (show u.toNat / 64 % 64 < 64 by omega),
        hcont _ (show u.toNat % 64 < 64 by omega), Bool.and_self, if_true]
      rw [hbyte _ (by omega), hbyte _ (by omega)]
      congr
      rw [← UInt16.toNat_inj, UInt16.toNat_ofNat', Nat.mod_eq_of_lt] <;> omega

theorem decodeUnits?_flatMap (units : List UInt16) :
    decodeUnits? (units.flatMap encodeUnit) = some units := by
  have hloop : ∀ out, decodeLoop out (units.flatMap encodeUnit) = some (out.reverse ++ units) := by
    induction units with
    | nil =>
      intro out
      rw [List.flatMap_nil, decodeLoop, List.append_nil]
    | cons u units ih =>
      intro out
      rw [List.flatMap_cons, decodeLoop_encodeUnit, ih, List.reverse_cons, List.append_assoc]
      rfl
  exact hloop []

theorem decode?_encode (s : String) : decode? (encode s) = some s := by
  rw [decode?, encode, decodeUnits?_flatMap]
  exact Utf16.decode?_encode s

/-- The first byte of a group carries a mark of the width or the unit itself, which then is
not zero, and the other bytes carry a mark. -/
theorem ne_zero_of_mem_encodeUnit {u : UInt16} {b : UInt8} (h : b ∈ encodeUnit u) : b ≠ 0 := by
  have hlt : u.toNat < 65536 := u.toNat_lt
  have hbyte : ∀ n, n ≠ 0 → n < 256 → UInt8.ofNat n ≠ 0 := by
    intro n hpos hn hzero
    rw [← UInt8.toNat_inj, UInt8.toNat_ofNat', Nat.mod_eq_of_lt hn] at hzero
    exact hpos hzero
  rw [encodeUnit] at h
  split at h
  · rw [List.mem_singleton.mp h]
    exact hbyte _ (by omega) (by omega)
  · split at h
    · simp only [List.mem_cons, List.not_mem_nil, or_false] at h
      rcases h with rfl | rfl <;> exact hbyte _ (by omega) (by omega)
    · simp only [List.mem_cons, List.not_mem_nil, or_false] at h
      rcases h with rfl | rfl | rfl <;> exact hbyte _ (by omega) (by omega)

theorem zero_not_mem_encode (s : String) : 0 ∉ encode s := by
  intro h
  rw [encode, List.mem_flatMap] at h
  obtain ⟨u, -, hzero⟩ := h
  exact ne_zero_of_mem_encodeUnit hzero rfl

end ModifiedUtf8

end FeatureTree.Text
