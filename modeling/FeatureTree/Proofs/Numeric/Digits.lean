/-
Decimal digits, and integers written with them.

* `Decimal.ofDigits_toDigits` — the digits of a number write that number;
* `Decimal.digitCount_mul_pow` — zeros at the end of a number are digits of it;
* `Numeral.unsigned?_toString`, `Numeral.int32?_toString` — integers are read back.
-/
import FeatureTree.Numeric.Integer
import Mathlib.Algebra.GroupWithZero.Nat

namespace FeatureTree

namespace Decimal

variable {c : Char} {cs ds : List Char} {n k : Nat}

theorem toNat_of_isDigit (h : isDigit c = true) : 48 ≤ c.toNat ∧ c.toNat ≤ 57 := by
  have hrange : 48 ≤ c.val ∧ c.val ≤ 57 := by simpa [isDigit, Char.le_def] using h
  exact ⟨UInt32.le_iff_toNat_le.mp hrange.1, UInt32.le_iff_toNat_le.mp hrange.2⟩

theorem isDigit_of_mem_toDigits (h : c ∈ Nat.toDigits 10 n) : isDigit c = true :=
  Nat.isDigit_of_mem_toDigits (by decide) (by decide) h

theorem ofDigits_eq (cs : List Char) : ofDigits cs = Nat.ofDigitChars 10 cs 0 := by
  rw [ofDigits, Nat.ofDigitChars_eq_foldl]

@[simp] theorem ofDigits_toDigits (n : Nat) : ofDigits (Nat.toDigits 10 n) = n := by
  rw [ofDigits_eq, Nat.ofDigitChars_ten_toDigits]

/-- Zeros after the digits multiply. -/
theorem ofDigits_append_zeros (cs : List Char) (k : Nat) :
    ofDigits (cs ++ List.replicate k '0') = ofDigits cs * 10 ^ k := by
  rw [ofDigits_eq, Nat.ofDigitChars_append, Nat.ofDigitChars_replicate_zero, ofDigits_eq,
    Nat.mul_comm]

/-- Zeros before the digits do nothing. -/
theorem ofDigits_zeros_append (cs : List Char) (k : Nat) :
    ofDigits (List.replicate k '0' ++ cs) = ofDigits cs := by
  rw [ofDigits_eq, Nat.ofDigitChars_append, Nat.ofDigitChars_replicate_zero, Nat.mul_zero,
    ofDigits_eq]

theorem toDigits_mul_pow (h : 0 < n) (k : Nat) :
    Nat.toDigits 10 (n * 10 ^ k) = Nat.toDigits 10 n ++ List.replicate k '0' := by
  induction k with
  | zero => simp
  | succ k ih =>
    have hpos : 0 < n * 10 ^ k := Nat.mul_pos h (Nat.pow_pos (by decide))
    have := Nat.toDigits_append_toDigits (b := 10) (d := 0) (by decide) hpos (by decide)
    rw [Nat.add_zero, Nat.toDigits_zero, ih] at this
    rw [Nat.pow_succ, ← Nat.mul_assoc, Nat.mul_comm _ 10, ← this, List.append_assoc,
      List.replicate_succ']

theorem digitCount_mul_pow (h : 0 < n) (k : Nat) : digitCount (n * 10 ^ k) = digitCount n + k := by
  have hpos : 0 < n * 10 ^ k := Nat.mul_pos h (Nat.pow_pos (by decide))
  rw [digitCount, digitCount, if_neg (Nat.ne_of_gt hpos), if_neg (Nat.ne_of_gt h),
    toDigits_mul_pow h,
    List.length_append, List.length_replicate]

theorem digitCount_le (hk : 0 < k) (h : n < 10 ^ k) : digitCount n ≤ k := by
  rw [digitCount]
  split
  · exact Nat.zero_le k
  · exact (Nat.length_toDigits_le_iff (by decide) hk).mpr h

/-- What is written with digits alone begins with a digit. -/
theorem exists_digit_head (n : Nat) :
    ∃ c cs, Nat.toDigits 10 n = c :: cs ∧ isDigit c = true := by
  cases h : Nat.toDigits 10 n with
  | nil => exact absurd h Nat.toDigits_ne_nil
  | cons c cs => exact ⟨c, cs, rfl, isDigit_of_mem_toDigits (h ▸ List.mem_cons_self)⟩

theorem ne_of_isDigit {d : Char} (h : isDigit c = true) (hd : isDigit d = false) : c ≠ d := by
  rintro rfl
  rw [h] at hd
  exact absurd hd (by decide)

end Decimal

namespace Numeral

open Decimal

theorem digits?_toDigits (n : Nat) : digits? (Nat.toDigits 10 n) = some n := by
  rw [digits?, if_neg, ofDigits_toDigits]
  simp only [Bool.or_eq_true, List.isEmpty_iff, Nat.toDigits_ne_nil, false_or,
    Bool.not_eq_true', Bool.not_eq_false]
  exact List.all_eq_true.mpr fun c hc => isDigit_of_mem_toDigits hc

/-- Digits alone have no sign before them. -/
theorem toDigits_ne_cons {c : Char} (hc : isDigit c = false) (n : Nat) (rest : List Char) :
    Nat.toDigits 10 n ≠ c :: rest := by
  intro h
  have := isDigit_of_mem_toDigits (n := n) (c := c) (h ▸ List.mem_cons_self)
  rw [hc] at this
  exact absurd this (by decide)

theorem unsigned?_toString {bound n : Nat} (h : n < bound) :
    unsigned? bound (toString n).toList = some n := by
  rw [Nat.toString_eq_ofList_toDigits, String.toList_ofList, unsigned?.eq_def]
  split
  · next rest heq => exact absurd heq (toDigits_ne_cons (by decide) n rest)
  · simp only [digits?_toDigits, Option.bind_some, if_pos h]

theorem signed?_toString {low high i : Int} (h : low ≤ i ∧ i ≤ high) :
    signed? low high (toString i).toList = some i := by
  rw [Int.toString_eq_repr, Int.repr_eq_if, signed?.eq_def]
  by_cases hneg : 0 ≤ i
  · rw [if_pos hneg, Nat.toList_repr]
    split
    · next rest heq => exact absurd heq (toDigits_ne_cons (by decide) _ rest)
    · next rest heq => exact absurd heq (toDigits_ne_cons (by decide) _ rest)
    · simp [digits?_toDigits, Int.toNat_of_nonneg hneg, h]
  · have htext : ("-" ++ (-i).toNat.repr).toList = '-' :: Nat.toDigits 10 (-i).toNat := by
      rw [String.toList_append, Nat.toList_repr]
      rfl
    rw [if_neg hneg, htext]
    have hvalue : -max (-i) 0 = i := by omega
    simp [digits?_toDigits, hvalue, h]

/-- An integer of 32 bits is read back. -/
theorem int32?_toString (i : Int32) : int32? (toString i.toInt) = some i := by
  have hlow := i.le_toInt
  have hhigh := i.toInt_lt
  rw [int32?, signed?_toString (by omega), Option.map_some, Int32.ofInt_toInt]

end Numeral

end FeatureTree
