/-
A number that a word stands for rounds to that word.

A ratio is rounded in the binade that holds it, which the logarithm finds; a
number that is a whole number of units there is not changed.

* `FloatFormat.floorLog2_eq` — the binade of a ratio;
* `FloatFormat.roundMagnitude_eq` — a whole number of units stays what it is;
* `Floating.ofRatio_of_datum` — the word of its own number.
-/
import FeatureTree.Numeric.Floating
import Mathlib.Algebra.Order.Field.Power
import Mathlib.Data.Int.Log
import Mathlib.Data.Rat.Floor
import Mathlib.Tactic.FieldSimp
import Mathlib.Tactic.Positivity

namespace FeatureTree

namespace FloatFormat

variable {f : FloatFormat} {num den m : Nat} {e : Int}

/-! ### Whole numbers of units -/

theorem divHalfEven_mul (hden : 0 < den) : divHalfEven (m * den) den = m := by
  rw [divHalfEven]
  simp only [Nat.mul_mod_left, Nat.mul_div_cancel m hden, Nat.mul_zero]
  rw [if_pos hden]

/-- A comparison with a power of two is one of natural numbers. -/
theorem zpow_le_ratio_iff (num : Nat) (hden : 0 < den) (k : Int) :
    ((2 : ℚ) ^ k ≤ (num : ℚ) / den) ↔
      if 0 ≤ k then den * 2 ^ k.toNat ≤ num else den ≤ num * 2 ^ (-k).toNat := by
  have hden' : (0 : ℚ) < den := by exact_mod_cast hden
  rw [le_div_iff₀ hden']
  split
  · next hk =>
    obtain ⟨n, rfl⟩ := Int.eq_ofNat_of_zero_le hk
    rw [zpow_natCast, Int.toNat_natCast, mul_comm]
    exact_mod_cast Iff.rfl
  · next hk =>
    obtain ⟨n, hn⟩ := Int.eq_ofNat_of_zero_le (show 0 ≤ -k by omega)
    obtain rfl : k = -(n : Int) := by omega
    rw [neg_neg, Int.toNat_natCast, zpow_neg, zpow_natCast, inv_mul_le_iff₀ (by positivity),
      mul_comm]
    exact_mod_cast Iff.rfl

/-- The logarithm that the bit lengths give is right up to one. -/
theorem log_sub_log_bounds (hnum : 0 < num) (hden : 0 < den) :
    (2 : ℚ) ^ ((num.log2 : Int) - den.log2 - 1) ≤ (num : ℚ) / den ∧
      (num : ℚ) / den < 2 ^ ((num.log2 : Int) - den.log2 + 1) := by
  have hden' : (0 : ℚ) < den := by exact_mod_cast hden
  have hn1 : (2 : ℚ) ^ num.log2 ≤ num := by exact_mod_cast Nat.log2_self_le (by omega)
  have hn2 : (num : ℚ) < 2 ^ (num.log2 + 1) := by exact_mod_cast Nat.lt_log2_self
  have hd1 : (2 : ℚ) ^ den.log2 ≤ den := by exact_mod_cast Nat.log2_self_le (by omega)
  have hd2 : (den : ℚ) < 2 ^ (den.log2 + 1) := by exact_mod_cast Nat.lt_log2_self
  constructor
  · rw [le_div_iff₀ hden']
    calc (2 : ℚ) ^ ((num.log2 : Int) - den.log2 - 1) * den
        ≤ 2 ^ ((num.log2 : Int) - den.log2 - 1) * 2 ^ (den.log2 + 1) := by gcongr
      _ = 2 ^ num.log2 := by
        rw [← zpow_natCast, ← zpow_add₀ (by norm_num), ← zpow_natCast]
        congr 1
        push_cast
        ring
      _ ≤ num := hn1
  · rw [div_lt_iff₀ hden']
    calc (num : ℚ) < 2 ^ (num.log2 + 1) := hn2
      _ = 2 ^ ((num.log2 : Int) - den.log2 + 1) * 2 ^ den.log2 := by
        rw [← zpow_natCast, ← zpow_natCast, ← zpow_add₀ (by norm_num)]
        congr 1
        push_cast
        ring
      _ ≤ 2 ^ ((num.log2 : Int) - den.log2 + 1) * den := by gcongr

/-- The binade of a ratio. -/
theorem floorLog2_eq (hnum : 0 < num) (hden : 0 < den) :
    floorLog2 num den = Int.log 2 ((num : ℚ) / den) := by
  have hpos : (0 : ℚ) < (num : ℚ) / den := by positivity
  obtain ⟨hlow, hhigh⟩ := log_sub_log_bounds hnum hden
  have hlow' := (Int.zpow_le_iff_le_log (b := 2) (by norm_num) hpos).mp (by rwa [Nat.cast_ofNat])
  have hhigh' := (Int.lt_zpow_iff_log_lt (b := 2) (by norm_num) hpos).mp (by rwa [Nat.cast_ofNat])
  have hreached := zpow_le_ratio_iff num hden ((num.log2 : Int) - den.log2)
  have hlog := Int.zpow_le_iff_le_log (b := 2) (x := (num.log2 : Int) - den.log2)
    (by norm_num) hpos
  rw [Nat.cast_ofNat] at hlog
  rw [hlog] at hreached
  rw [floorLog2]
  simp only [Nat.pow_eq, ← hreached]
  split
  · next h => omega
  · next h => omega

/-- The binade of a whole number of units. -/
theorem log_mul_zpow (hm : 0 < m) (e : Int) :
    Int.log 2 ((m : ℚ) * 2 ^ e) = m.log2 + e := by
  have hpos : (0 : ℚ) < m * 2 ^ e := by
    have : (0 : ℚ) < m := by exact_mod_cast hm
    positivity
  have hlow : (2 : ℚ) ^ m.log2 ≤ m := by exact_mod_cast Nat.log2_self_le (by omega)
  have hhigh : (m : ℚ) < 2 ^ (m.log2 + 1) := by exact_mod_cast Nat.lt_log2_self
  refine le_antisymm ?_ ?_
  · have : (m : ℚ) * 2 ^ e < ((2 : ℕ) : ℚ) ^ ((m.log2 : Int) + e + 1) := by
      calc (m : ℚ) * 2 ^ e < 2 ^ (m.log2 + 1) * 2 ^ e := by gcongr
        _ = ((2 : ℕ) : ℚ) ^ ((m.log2 : Int) + e + 1) := by
          rw [← zpow_natCast, ← zpow_add₀ (by norm_num)]
          congr 1
          push_cast
          ring
    have := (Int.lt_zpow_iff_log_lt (by norm_num) hpos).mp this
    omega
  · refine (Int.zpow_le_iff_le_log (by norm_num) hpos).mp ?_
    calc ((2 : ℕ) : ℚ) ^ ((m.log2 : Int) + e) = 2 ^ m.log2 * 2 ^ e := by
          rw [← zpow_natCast, ← zpow_add₀ (by norm_num)]
          rfl
      _ ≤ m * 2 ^ e := by gcongr

/-- Says in natural numbers that `num / den` is `m · 2 ^ e`. -/
def Writes (num den m : Nat) (e : Int) : Prop :=
  num * 2 ^ (-e).toNat = m * 2 ^ e.toNat * den

theorem Writes.ratio_eq (h : Writes num den m e) (hden : 0 < den) :
    (num : ℚ) / den = m * 2 ^ e := by
  have hden' : (den : ℚ) ≠ 0 := by exact_mod_cast hden.ne'
  have hcast : (num : ℚ) * 2 ^ (-e).toNat = m * 2 ^ e.toNat * den := by exact_mod_cast h
  rw [div_eq_iff hden']
  rcases Int.le_total 0 e with he | he
  · obtain ⟨n, rfl⟩ := Int.eq_ofNat_of_zero_le he
    rw [show (-(n : Int)).toNat = 0 by omega, Int.toNat_natCast, pow_zero, mul_one] at hcast
    rw [hcast, zpow_natCast]
  · obtain ⟨n, hn⟩ := Int.eq_ofNat_of_zero_le (show 0 ≤ -e by omega)
    obtain rfl : e = -(n : Int) := by omega
    rw [neg_neg, Int.toNat_natCast, show (-(n : Int)).toNat = 0 by omega, pow_zero,
      mul_one] at hcast
    have h2 : (2 : ℚ) ^ n ≠ 0 := by positivity
    rw [zpow_neg, zpow_natCast]
    field_simp
    exact hcast

/-- A whole number of units of its binade is not changed by rounding. -/
theorem roundMagnitude_eq (h : Writes num den m e) (hden : 0 < den) (hm : 0 < m)
    (hlt : m < 2 ^ (f.fractionBits + 1))
    (hunit : e = f.minExponent ∨ f.minExponent ≤ e ∧ 2 ^ f.fractionBits ≤ m) :
    f.roundMagnitude num den =
      min f.infinityBits ((e - f.minExponent).toNat * 2 ^ f.fractionBits + m) := by
  have hnum : 0 < num := by
    rcases Nat.eq_zero_or_pos num with h0 | h0
    · rw [Writes, h0, Nat.zero_mul] at h
      have : 0 < m * 2 ^ e.toNat * den := by positivity
      omega
    · exact h0
  have hlog : floorLog2 num den = m.log2 + e := by
    rw [floorLog2_eq hnum hden, h.ratio_eq hden, log_mul_zpow hm]
  have hhigh : m.log2 ≤ f.fractionBits := by
    have := (Nat.log2_lt hm.ne').mpr hlt
    omega
  -- the unit of the binade is that of the number
  have hq : max (floorLog2 num den - (f.fractionBits : Nat)) f.minExponent = e := by
    rw [hlog]
    rcases hunit with rfl | ⟨hle, hnormal⟩
    · omega
    · have : f.fractionBits ≤ m.log2 := (Nat.le_log2 hm.ne').mpr hnormal
      omega
  rw [roundMagnitude, if_neg hnum.ne']
  simp only [hq, Nat.pow_eq]
  have hunits : (if 0 ≤ e then divHalfEven num (den * 2 ^ e.toNat)
      else divHalfEven (num * 2 ^ (-e).toNat) den) = m := by
    rw [Writes] at h
    split
    · next he =>
      rw [show (-e).toNat = 0 by omega, Nat.pow_zero, Nat.mul_one] at h
      rw [h, Nat.mul_assoc, Nat.mul_comm (2 ^ e.toNat)]
      exact divHalfEven_mul (by positivity)
    · next he =>
      rw [show e.toNat = 0 by omega, Nat.pow_zero, Nat.mul_one] at h
      rw [h]
      exact divHalfEven_mul hden
  rw [hunits]

end FloatFormat

namespace Floating

variable {f : FloatFormat} {x : Floating f} {num den m : Nat} {e : Int} {s : Bool}

/-! ### Words -/

theorem toNat_bits_lt (x : Floating f) : x.bits.toNat < 2 * f.signBit := by
  have hwidth : 2 ^ f.width = 2 * f.signBit := by
    rw [FloatFormat.width, FloatFormat.signBit, Nat.pow_eq, Nat.add_assoc, Nat.pow_add]
  rw [← hwidth]
  exact x.bits.isLt

/-- A word is its sign and its magnitude. -/
theorem ofMagnitude_magnitude (x : Floating f) : ofMagnitude x.isNegative x.magnitude = x := by
  have hlt := x.toNat_bits_lt
  have hpos : 0 < f.signBit := Nat.two_pow_pos _
  have hbits : x.magnitude + (if x.isNegative then f.signBit else 0) = x.bits.toNat := by
    rw [magnitude, isNegative]
    by_cases hneg : f.signBit ≤ x.bits.toNat
    · rw [if_pos (by simpa using hneg), Nat.mod_eq_sub_mod hneg, Nat.mod_eq_of_lt (by omega)]
      omega
    · rw [if_neg (by simpa using hneg), Nat.mod_eq_of_lt (by omega), Nat.add_zero]
  rw [ofMagnitude, hbits, BitVec.ofNat_toNat, BitVec.setWidth_eq]

/-- The parts of the number that a word stands for. -/
theorem datum_eq_finite_iff : x.datum = .finite s m e ↔
    x.magnitude < f.infinityBits ∧ s = x.isNegative ∧
      if x.magnitude / 2 ^ f.fractionBits = 0 then m = x.magnitude ∧ e = f.minExponent
      else m = 2 ^ f.fractionBits + x.magnitude % 2 ^ f.fractionBits ∧
        e = f.minExponent + ((x.magnitude / 2 ^ f.fractionBits : Nat) - 1) := by
  rw [datum, isNaN, isInfinite]
  by_cases hnan : f.infinityBits < x.magnitude
  · rw [if_pos (by simpa using hnan)]
    constructor
    · simp
    · rintro ⟨hlt, -⟩
      omega
  · rw [if_neg (by simpa using hnan)]
    by_cases hinf : x.magnitude = f.infinityBits
    · rw [if_pos (by simpa using hinf)]
      constructor
      · simp
      · rintro ⟨hlt, -⟩
        omega
    · rw [if_neg (by simpa using hinf)]
      have hlt : x.magnitude < f.infinityBits := by omega
      simp only [Nat.pow_eq]
      -- with an exponent field of zero there is no leading one
      by_cases hfield : x.magnitude / 2 ^ f.fractionBits = 0
      · have hfraction : x.magnitude % 2 ^ f.fractionBits = x.magnitude :=
          Nat.mod_eq_of_lt ((Nat.div_eq_zero_iff_lt (Nat.two_pow_pos _)).mp hfield)
        rw [if_pos hfield, if_pos hfield, hfraction]
        simp [hlt, eq_comm]
      · rw [if_neg hfield, if_neg hfield]
        simp [hlt, eq_comm]

/-- The number that a word stands for rounds to that word, however it is written as
a ratio. -/
theorem ofRatio_of_datum (hx : x.datum = .finite s m e)
    (h : FloatFormat.Writes num den m e) (hden : 0 < den) : ofRatio s num den = x := by
  obtain ⟨hlt, rfl, hparts⟩ := datum_eq_finite_iff.mp hx
  have hmagnitude : f.roundMagnitude num den = x.magnitude := by
    rcases Nat.eq_zero_or_pos m with hzero | hm
    · -- only the two zeros have no significand
      rw [FloatFormat.Writes, hzero, Nat.zero_mul, Nat.zero_mul] at h
      have hnum : num = 0 := by
        rcases Nat.mul_eq_zero.mp h with h | h
        · exact h
        · exact absurd h (Nat.two_pow_pos _).ne'
      rw [FloatFormat.roundMagnitude, if_pos hnum]
      split at hparts
      · omega
      · have := Nat.two_pow_pos f.fractionBits
        omega
    · have hdiv := Nat.div_add_mod x.magnitude (2 ^ f.fractionBits)
      have hmod := Nat.mod_lt x.magnitude (Nat.two_pow_pos f.fractionBits)
      split at hparts
      · next hfield =>
        obtain ⟨rfl, rfl⟩ := hparts
        have hsmall := (Nat.div_eq_zero_iff_lt (Nat.two_pow_pos f.fractionBits)).mp hfield
        rw [FloatFormat.roundMagnitude_eq h hden hm (by rw [Nat.pow_succ]; omega) (.inl rfl),
          Int.sub_self]
        simp only [Int.toNat_zero, Nat.zero_mul, Nat.zero_add]
        exact Nat.min_eq_right hlt.le
      · next hfield =>
        obtain ⟨rfl, rfl⟩ := hparts
        have hpos : 0 < x.magnitude / 2 ^ f.fractionBits := Nat.pos_of_ne_zero hfield
        rw [FloatFormat.roundMagnitude_eq h hden hm (by rw [Nat.pow_succ]; omega)
          (.inr ⟨by omega, by omega⟩)]
        have hexponent : (f.minExponent + ((x.magnitude / 2 ^ f.fractionBits : Nat) - 1)
            - f.minExponent).toNat = x.magnitude / 2 ^ f.fractionBits - 1 := by omega
        obtain ⟨k, hk⟩ : ∃ k, x.magnitude / 2 ^ f.fractionBits = k + 1 :=
          ⟨x.magnitude / 2 ^ f.fractionBits - 1, by omega⟩
        rw [hexponent]
        rw [hk] at hdiv ⊢
        have hword : (k + 1 - 1) * 2 ^ f.fractionBits +
            (2 ^ f.fractionBits + x.magnitude % 2 ^ f.fractionBits) = x.magnitude := by
          rw [Nat.add_sub_cancel, ← Nat.add_assoc, ← Nat.succ_mul, Nat.mul_comm]
          exact hdiv
        rw [hword]
        exact Nat.min_eq_right hlt.le
  rw [ofRatio, hmagnitude, ofMagnitude_magnitude]

end Floating

end FeatureTree
