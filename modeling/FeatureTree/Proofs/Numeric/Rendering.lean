/-
Floating-point numbers are read back from their text.

The text of a finite number writes a decimal number that rounds to it: either one of
the short candidates, which are tried out, or the exact expansion.

* `Decimal.parse?_positional` — the decimal number of a positional text;
* `Floating.ofDecimal_shortest` — the decimal number that is written rounds back;
* `Floating.parse?_render` — the round trip, with one NaN for all;
* `Floating.mem_render` — which characters occur in the text.
-/
import FeatureTree.Numeric.Decimal
import FeatureTree.Proofs.Numeric.Digits
import FeatureTree.Proofs.Numeric.Rounding
import Mathlib.Data.List.TakeWhile

namespace FeatureTree

open Decimal

/-! ### Positional text -/

namespace Decimal

/-- Decimal numbers that round alike in every format. -/
def Alike (d e : Decimal) : Prop :=
  ∀ (f : FloatFormat) (s : Bool), (Floating.ofDecimal s d : Floating f) = Floating.ofDecimal s e

theorem Alike.refl (d : Decimal) : Alike d d := fun _ _ => rfl

/-- Zeros at the end of the digits and in the exponent are the same. -/
theorem alike_shift (n k : Nat) : Alike ⟨n * 10 ^ k, 0⟩ ⟨n, k⟩ := by
  intro f s
  rcases Nat.eq_zero_or_pos n with rfl | hn
  · rw [Nat.zero_mul, Floating.ofDecimal, Floating.ofDecimal]
    rfl
  · have hpos : 0 < n * 10 ^ k := Nat.mul_pos hn (Nat.pow_pos (by decide))
    have hcount : ((digitCount (n * 10 ^ k) : Nat) : Int) + 0 =
        (digitCount n : Nat) + (k : Int) := by
      rw [digitCount_mul_pow hn]
      omega
    have hratio : (⟨n * 10 ^ k, 0⟩ : Decimal).ratio = (⟨n, k⟩ : Decimal).ratio := by
      simp [ratio]
    rw [Floating.ofDecimal, Floating.ofDecimal]
    simp only [hcount, hratio, if_neg hpos.ne', if_neg hn.ne']

/-- Digits, a point and digits, of which there are some before the point. -/
theorem parse?_point {whole fraction : List Char} (hwhole : ∀ c ∈ whole, isDigit c = true)
    (hfraction : ∀ c ∈ fraction, isDigit c = true) (hne : whole ≠ []) :
    parse? (whole ++ '.' :: fraction) =
      some ⟨ofDigits (whole ++ fraction), -(fraction.length : Nat)⟩ := by
  have htake : (whole ++ '.' :: fraction).takeWhile isDigit = whole := by
    rw [List.takeWhile_append_of_pos hwhole, List.takeWhile_cons, if_neg (by decide),
      List.append_nil]
  have hdrop : (whole ++ '.' :: fraction).dropWhile isDigit = '.' :: fraction := by
    rw [List.dropWhile_append_of_pos hwhole, List.dropWhile_cons, if_neg (by decide)]
  have hempty : whole.isEmpty = false := by simp [hne]
  rw [parse?]
  simp only [htake, hdrop, List.takeWhile_eq_self_iff.mpr hfraction,
    List.dropWhile_eq_nil_iff.mpr hfraction, hempty, Bool.false_and, parseExponent?,
    Option.map_some]
  simp

/-- Digits alone. -/
theorem parse?_digits {cs : List Char} (h : ∀ c ∈ cs, isDigit c = true) (hne : cs ≠ []) :
    parse? cs = some ⟨ofDigits cs, 0⟩ := by
  have hempty : cs.isEmpty = false := by simp [hne]
  rw [parse?]
  simp only [List.takeWhile_eq_self_iff.mpr h, List.dropWhile_eq_nil_iff.mpr h, hempty,
    Bool.false_and, parseExponent?, List.append_nil, Option.map_some]
  simp

/-- A positional text: digits, and perhaps a point and more digits. -/
theorem positional_cases (d : Decimal) :
    (0 ≤ d.exponent ∧ d.positional.toList =
      Nat.toDigits 10 d.significand ++ List.replicate d.exponent.toNat '0') ∨
    ∃ whole fraction : List Char, d.positional.toList = whole ++ '.' :: fraction ∧ whole ≠ [] ∧
      (∀ c ∈ whole ++ fraction, isDigit c = true) ∧
      ofDigits (whole ++ fraction) = d.significand ∧ -(fraction.length : Int) = d.exponent := by
  by_cases he : 0 ≤ d.exponent
  · left
    rw [positional]
    rw [if_pos he]
    exact ⟨he, String.toList_ofList⟩
  · right
    have hlength := Nat.length_toDigits_pos (b := 10) (n := d.significand)
    rw [positional]
    simp only [if_neg he, String.toList_ofList]
    refine ⟨_, _, rfl, ?_, ?_, ?_, ?_⟩
    · intro hnil
      have := congrArg List.length hnil
      simp at this
      omega
    · rw [List.take_append_drop]
      intro c hc
      rcases List.mem_append.mp hc with hc | hc
      · rw [List.eq_of_mem_replicate hc]
        rfl
      · exact isDigit_of_mem_toDigits hc
    · rw [List.take_append_drop, ofDigits_zeros_append, ofDigits_toDigits]
    · rw [List.length_drop, List.length_append, List.length_replicate]
      omega

/-- A positional text is read as a number that rounds like the one it writes. -/
theorem parse?_positional (d : Decimal) :
    ∃ e, parse? d.positional.toList = some e ∧ Alike e d := by
  rcases d.positional_cases with ⟨he, htext⟩ | ⟨whole, fraction, htext, hne, hdigits, hvalue, hlen⟩
  · refine ⟨⟨ofDigits (Nat.toDigits 10 d.significand ++ List.replicate d.exponent.toNat '0'), 0⟩,
      ?_, ?_⟩
    · rw [htext]
      refine parse?_digits (fun c hc => ?_) (by simp)
      rcases List.mem_append.mp hc with hc | hc
      · exact isDigit_of_mem_toDigits hc
      · rw [List.eq_of_mem_replicate hc]
        rfl
    · obtain ⟨n, e⟩ := d
      obtain ⟨k, rfl⟩ := Int.eq_ofNat_of_zero_le he
      rw [ofDigits_append_zeros, ofDigits_toDigits]
      exact alike_shift n k
  · refine ⟨⟨ofDigits (whole ++ fraction), -(fraction.length : Nat)⟩, ?_, ?_⟩
    · rw [htext]
      exact parse?_point (fun c hc => hdigits c (List.mem_append_left _ hc))
        (fun c hc => hdigits c (List.mem_append_right _ hc)) hne
    · rw [hvalue, hlen]
      exact Alike.refl d

/-- A positional text begins with a digit. -/
theorem exists_positional_head (d : Decimal) :
    ∃ c cs, d.positional.toList = c :: cs ∧ isDigit c = true := by
  rcases d.positional_cases with ⟨-, htext⟩ | ⟨whole, fraction, htext, hne, hdigits, -, -⟩
  · obtain ⟨c, cs, hcs, hc⟩ := exists_digit_head d.significand
    exact ⟨c, _, by rw [htext, hcs, List.cons_append], hc⟩
  · obtain ⟨c, cs, rfl⟩ := List.exists_cons_of_ne_nil hne
    exact ⟨c, _, by rw [htext, List.cons_append], hdigits c (by simp)⟩

theorem mem_positional {d : Decimal} {c : Char} (h : c ∈ d.positional.toList) :
    isDigit c = true ∨ c = '.' := by
  rcases d.positional_cases with ⟨-, htext⟩ | ⟨whole, fraction, htext, -, hdigits, -, -⟩
  · rw [htext] at h
    rcases List.mem_append.mp h with h | h
    · exact .inl (isDigit_of_mem_toDigits h)
    · rw [List.eq_of_mem_replicate h]
      exact .inl rfl
  · rw [htext] at h
    rcases List.mem_append.mp h with h | h
    · exact .inl (hdigits c (List.mem_append_left _ h))
    · rcases List.mem_cons.mp h with rfl | h
      · exact .inr rfl
      · exact .inl (hdigits c (List.mem_append_right _ h))

end Decimal

/-! ### The text of a number -/

namespace Floating

variable {x : Single} {s : Bool} {m : Nat} {e : Int}

/-- The number with one NaN for all. -/
def canonical (x : Single) : Single := if x.isNaN then nan else x

/-- The significand and the exponent of a number of 32 bits are small. -/
theorem datum_bounds (hx : x.datum = .finite s m e) : m < 2 ^ 24 ∧ -149 ≤ e ∧ e ≤ 104 := by
  obtain ⟨hlt, -, hparts⟩ := datum_eq_finite_iff.mp hx
  have hinfinity : FloatFormat.single.infinityBits = 255 * 2 ^ 23 := rfl
  have hexponent : FloatFormat.single.minExponent = -149 := rfl
  have hfraction : FloatFormat.single.fractionBits = 23 := rfl
  rw [hinfinity] at hlt
  rw [hexponent, hfraction] at hparts
  split at hparts <;> omega

/-- A decimal number of a size that is within reach is rounded. -/
theorem ofDecimal_eq_ofRatio {f : FloatFormat} (s : Bool) {d : Decimal} (hpos : 0 < d.significand)
    (hlow : -400 ≤ (digitCount d.significand : Int) + d.exponent)
    (hhigh : (digitCount d.significand : Int) + d.exponent ≤ 400) :
    (ofDecimal s d : Floating f) = ofRatio s d.ratio.1 d.ratio.2 := by
  have hreach : decimalReach = 400 := rfl
  rw [ofDecimal, if_neg hpos.ne', if_neg (by omega), if_neg (by omega)]

/-- The exact expansion of a number rounds to it. -/
theorem ofDecimal_exactDecimal (hx : x.datum = .finite s m e) (hm : 0 < m) :
    ofDecimal s (exactDecimal m e) = x := by
  obtain ⟨hbound, hlow, hhigh⟩ := datum_bounds hx
  rw [exactDecimal, Nat.pow_eq, Nat.pow_eq]
  by_cases he : 0 ≤ e
  · obtain ⟨k, rfl⟩ := Int.eq_ofNat_of_zero_le he
    have hpos : 0 < m * 2 ^ k := by positivity
    -- the exact expansion is far from the bounds of what is rounded
    have hcount : digitCount (m * 2 ^ k) ≤ 120 := by
      refine digitCount_le (by decide) ?_
      calc m * 2 ^ k ≤ 2 ^ 24 * 2 ^ 104 :=
            Nat.mul_le_mul hbound.le (Nat.pow_le_pow_right (by decide) (by omega))
        _ < 10 ^ 120 := by norm_num
    rw [if_pos he, Int.toNat_natCast, ofDecimal_eq_ofRatio s hpos (by simp only; omega)
      (by simp only; omega)]
    refine ofRatio_of_datum hx ?_ ?_
    · simp [ratio, FloatFormat.Writes]
    · simp [ratio]
  · obtain ⟨k, hk⟩ := Int.eq_ofNat_of_zero_le (show 0 ≤ -e by omega)
    obtain rfl : e = -(k : Int) := by omega
    have hpos : 0 < m * 5 ^ k := by positivity
    have hcount : digitCount (m * 5 ^ k) ≤ 120 := by
      refine digitCount_le (by decide) ?_
      calc m * 5 ^ k ≤ 2 ^ 24 * 5 ^ 149 :=
            Nat.mul_le_mul hbound.le (Nat.pow_le_pow_right (by decide) (by omega))
        _ < 10 ^ 120 := by norm_num
    have hratio : (⟨m * 5 ^ k, -(k : Int)⟩ : Decimal).ratio = (m * 5 ^ k, 10 ^ k) := by
      rw [ratio, Nat.pow_eq]
      simp only [if_neg he, neg_neg, Int.toNat_natCast, Nat.pow_eq]
    rw [if_neg he, neg_neg, Int.toNat_natCast, ofDecimal_eq_ofRatio s hpos (by simp only; omega)
      (by simp only; omega), hratio]
    refine ofRatio_of_datum hx ?_ (by positivity)
    rw [FloatFormat.Writes, neg_neg, Int.toNat_natCast, show (-(k : Int)).toNat = 0 by omega,
      Nat.pow_zero, Nat.mul_one, Nat.mul_assoc, ← Nat.mul_pow]

/-- The decimal number that is written rounds back. -/
theorem ofDecimal_shortest (hx : x.datum = .finite s m e) : ofDecimal s x.shortest = x := by
  rcases Nat.eq_zero_or_pos m with rfl | hm
  · have hzero : x.shortest = ⟨0, 0⟩ := by
      rw [shortest, hx]
      rfl
    have hratio : ofRatio s 0 1 = x :=
      ofRatio_of_datum hx (by simp [FloatFormat.Writes]) (by decide)
    rw [hzero, ← hratio]
    rfl
  · have hshortest : ∃ candidates : List Decimal, x.shortest =
        (candidates.find? fun d => (ofDecimal s d : Single) == x).getD (exactDecimal m e) := by
      rw [shortest, hx]
      obtain ⟨k, rfl⟩ : ∃ k, m = k + 1 := ⟨m - 1, by omega⟩
      exact ⟨_, rfl⟩
    obtain ⟨candidates, hcandidates⟩ := hshortest
    rw [hcandidates]
    cases hfind : candidates.find? fun d => (ofDecimal s d : Single) == x with
    | none => exact ofDecimal_exactDecimal hx hm
    | some d => simpa using List.find?_some hfind

/-- The three kinds of texts. -/
theorem render_cases (x : Single) :
    (x.isNaN = true ∧ x.render = "NaN") ∨
    (∃ s, x = infinity s ∧ x.isNaN = false ∧ x.render = if s then "-inf" else "inf") ∨
    ∃ s d, x.isNaN = false ∧ ofDecimal s d = x ∧
      x.render.toList = (if s then ['-'] else []) ++ d.positional.toList := by
  rw [render]
  cases hx : x.datum with
  | nan =>
    left
    rw [datum] at hx
    by_cases hnan : x.isNaN = true
    · exact ⟨hnan, rfl⟩
    · rw [if_neg hnan] at hx
      split at hx
      · simp at hx
      · simp only at hx
        split at hx <;> simp at hx
  | infinite s =>
    right
    left
    rw [datum] at hx
    split at hx
    · simp at hx
    · next hnan =>
      split at hx
      · next hinf =>
        obtain rfl : x.isNegative = s := by simpa using hx
        refine ⟨x.isNegative, ?_, by simpa using hnan, rfl⟩
        have hmagnitude : x.magnitude = FloatFormat.single.infinityBits := by
          simpa [isInfinite] using hinf
        rw [infinity, ← hmagnitude, ofMagnitude_magnitude]
      · simp only at hx
        split at hx <;> simp at hx
  | finite s m e =>
    right
    right
    refine ⟨s, x.shortest, ?_, ofDecimal_shortest hx, ?_⟩
    · obtain ⟨hlt, -⟩ := datum_eq_finite_iff.mp hx
      rw [isNaN]
      simp only [decide_eq_false_iff_not]
      omega
    · cases s <;> simp

theorem toLower_ne_of_isDigit {c : Char} (hc : isDigit c = true) :
    c.toLower ≠ 'i' ∧ c.toLower ≠ 'n' := by
  have hvalue : c.toLower = c := by
    have := toNat_of_isDigit hc
    refine dif_neg fun h => ?_
    have : 65 ≤ c.toNat := h.1
    omega
  rw [hvalue]
  exact ⟨ne_of_isDigit hc (by decide), ne_of_isDigit hc (by decide)⟩

/-- A sign and digits are read as the number they write. -/
theorem parse?_signed (s : Bool) {c : Char} {cs : List Char} (hc : isDigit c = true) {d : Decimal}
    (h : Decimal.parse? (c :: cs) = some d) {text : String}
    (htext : text.toList = (if s then ['-'] else []) ++ c :: cs) :
    (parse? text : Option Single) = some (ofDecimal s d) := by
  have hsplit : splitSign text.toList = (s, c :: cs) := by
    rw [htext]
    cases s with
    | true => rfl
    | false =>
      rw [if_neg (by decide), List.nil_append, splitSign.eq_def]
      split
      · next heq =>
        obtain ⟨rfl, -⟩ := List.cons.inj heq
        exact absurd hc (by decide)
      · next heq =>
        obtain ⟨rfl, -⟩ := List.cons.inj heq
        exact absurd hc (by decide)
      · rfl
  -- no name of a special number begins with a digit
  have hlower : ∀ name ∈ ["inf", "infinity", "nan"],
      (c :: cs).map Char.toLower ≠ name.toList := by
    have hhead : c.toLower ≠ 'i' ∧ c.toLower ≠ 'n' := toLower_ne_of_isDigit hc
    intro name hname
    simp only [List.mem_cons, List.not_mem_nil, or_false] at hname
    rcases hname with rfl | rfl | rfl
    · exact fun h => hhead.1 (List.cons.inj h).1
    · exact fun h => hhead.1 (List.cons.inj h).1
    · exact fun h => hhead.2 (List.cons.inj h).1
  rw [parse?, hsplit]
  simp only
  rw [if_neg, if_neg (hlower "nan" (by simp)), h]
  · rfl
  · rintro (hname | hname)
    · exact hlower "inf" (by simp) hname
    · exact hlower "infinity" (by simp) hname

/-- What is rendered is read back. -/
theorem parse?_render (x : Single) : parse? x.render = some x.canonical := by
  rw [canonical]
  rcases x.render_cases with ⟨hnan, htext⟩ | ⟨s, rfl, hnan, htext⟩ | ⟨s, d, hnan, hd, htext⟩
  · rw [htext, if_pos hnan]
    decide +kernel
  · rw [htext]
    cases s <;> decide +kernel
  · rw [if_neg (by simp [hnan])]
    obtain ⟨c, cs, hcs, hc⟩ := d.exists_positional_head
    obtain ⟨e, he, halike⟩ := d.parse?_positional
    rw [hcs] at he htext
    rw [parse?_signed s hc he htext, halike _ s, hd]

@[simp] theorem render_canonical (x : Single) : x.canonical.render = x.render := by
  rw [canonical]
  split
  · next hnan =>
    rcases x.render_cases with ⟨-, htext⟩ | ⟨s, -, h, -⟩ | ⟨s, d, h, -, -⟩
    · rw [htext]
      decide +kernel
    · exact absurd hnan (by simp [h])
    · exact absurd hnan (by simp [h])
  · rfl

theorem mem_letters {s : String} {c : Char}
    (hs : (s.toList.all fun c => c ∈ ['.', '-', 'i', 'n', 'f', 'N', 'a']) = true)
    (h : c ∈ s.toList) : c ∈ ['.', '-', 'i', 'n', 'f', 'N', 'a'] :=
  of_decide_eq_true (List.all_eq_true.mp hs c h)

/-- The characters of the text. -/
theorem mem_render {c : Char} (h : c ∈ x.render.toList) :
    isDigit c = true ∨ c ∈ ['.', '-', 'i', 'n', 'f', 'N', 'a'] := by
  rcases x.render_cases with ⟨-, htext⟩ | ⟨s, -, -, htext⟩ | ⟨s, d, -, -, htext⟩
  · rw [htext] at h
    exact .inr (mem_letters (by decide) h)
  · rw [htext] at h
    exact .inr (mem_letters (by cases s <;> decide) h)
  · rw [htext] at h
    rcases List.mem_append.mp h with h | h
    · refine .inr ?_
      cases s with
      | true =>
        obtain rfl : c = '-' := by simpa using h
        simp
      | false => simp at h
    · rcases mem_positional h with h | rfl
      · exact .inl h
      · exact .inr (by simp)

/-! ### The text in records of leaves -/

theorem parse?_renderLower (x : Single) : parse? x.renderLower = some x.canonical := by
  rw [renderLower]
  by_cases hnan : x.isNaN = true
  · rw [if_pos hnan, canonical, if_pos hnan]
    decide +kernel
  · rw [if_neg hnan, parse?_render]

@[simp] theorem renderLower_canonical (x : Single) : x.canonical.renderLower = x.renderLower := by
  by_cases hnan : x.isNaN = true
  · rw [canonical, if_pos hnan, renderLower, renderLower, if_pos hnan]
    decide +kernel
  · rw [canonical, if_neg hnan]

theorem mem_renderLower {c : Char} (h : c ∈ x.renderLower.toList) :
    isDigit c = true ∨ c ∈ ['.', '-', 'i', 'n', 'f', 'N', 'a'] := by
  rw [renderLower] at h
  split at h
  · exact .inr (mem_letters (by decide) h)
  · exact mem_render h

/-- Only positive infinity and NaN begin with a letter. -/
theorem exists_renderLower_head (hinf : x ≠ infinity false) :
    (x.isNaN = true ∧ x.renderLower = "nan") ∨
      x.isNaN = false ∧ ∃ c cs, x.renderLower.toList = c :: cs ∧ (isDigit c = true ∨ c = '-') := by
  rw [renderLower]
  rcases x.render_cases with ⟨hnan, -⟩ | ⟨s, hx, hnan, htext⟩ | ⟨s, d, hnan, -, htext⟩
  · exact .inl ⟨hnan, if_pos hnan⟩
  · refine .inr ⟨hnan, ?_⟩
    rw [if_neg (by simp [hnan]), htext]
    cases s with
    | true => exact ⟨'-', _, rfl, .inr rfl⟩
    | false => exact absurd hx hinf
  · refine .inr ⟨hnan, ?_⟩
    rw [if_neg (by simp [hnan]), htext]
    obtain ⟨c, cs, hcs, hc⟩ := d.exists_positional_head
    cases s with
    | true => exact ⟨'-', _, rfl, .inr rfl⟩
    | false => exact ⟨c, cs, by simpa using hcs, .inl hc⟩

end Floating

end FeatureTree
