/-
The numeric order of floating-point words.

Words are compared by their keys, which are integers; a NaN is not compared with anything.

* `Floating.lt_iff`, `Floating.le_iff` — the comparisons in terms of keys;
* `Floating.le_of_lt_eq_false` — of two numbers one is not greater than the other;
* `Floating.infinity_lt_iff` — all numbers but minus infinity itself lie above it.
-/
import FeatureTree.Proofs.Numeric.Rounding

namespace FeatureTree.Floating

variable {f : FloatFormat} {x y : Floating f}

theorem lt_iff : x.lt y = true ↔ x.isNaN = false ∧ y.isNaN = false ∧ x.key < y.key := by
  simp [lt, and_assoc]

theorem le_iff : x.le y = true ↔ x.isNaN = false ∧ y.isNaN = false ∧ x.key ≤ y.key := by
  simp [le, and_assoc]

theorem le_of_lt_eq_false (hx : x.isNaN = false) (hy : y.isNaN = false) (h : x.lt y = false) :
    y.le x = true := by
  simp only [lt, hx, hy, Bool.not_false, Bool.true_and, decide_eq_false_iff_not] at h
  simp [le, hx, hy, Int.not_lt.mp h]

/-- Every number but minus infinity is greater than minus infinity. -/
theorem infinity_lt_iff {x : Single} :
    (infinity true).lt x = true ↔ x.isNaN = false ∧ x ≠ infinity true := by
  have hnumber : (infinity true : Single).isNaN = false := by decide
  have hkey : (infinity true : Single).key = -(FloatFormat.single.infinityBits : Int) := by decide
  have hpos : 0 < FloatFormat.single.infinityBits := by decide
  rw [lt_iff, hkey]
  constructor
  · rintro ⟨-, hx, hlt⟩
    refine ⟨hx, ?_⟩
    rintro rfl
    rw [hkey] at hlt
    exact absurd hlt (Int.lt_irrefl _)
  · rintro ⟨hx, hne⟩
    refine ⟨hnumber, hx, ?_⟩
    have hle : x.magnitude ≤ FloatFormat.single.infinityBits := by simpa [isNaN] using hx
    cases hsign : x.isNegative with
    | false =>
      rw [key, hsign, if_neg Bool.false_ne_true]
      omega
    | true =>
      -- a negative word of the greatest magnitude is minus infinity
      have hmagnitude : x.magnitude ≠ FloatFormat.single.infinityBits := by
        intro heq
        refine hne ?_
        rw [infinity, ← heq, ← hsign, ofMagnitude_magnitude]
      rw [key, hsign, if_pos rfl]
      omega

end FeatureTree.Floating
