/-
Numbers as tokens between blanks and brackets.

* `Text.IsToken` — a text without blanks, brackets and quotes;
* `Text.isToken_nat`, `Text.isToken_int`, `Text.isToken_render`,
  `Text.isToken_renderLower` — numbers are written as such texts;
* `Text.bracketed` — a token with brackets around it, and what is cut off it.
-/
import FeatureTree.Proofs.Numeric.Rendering
import FeatureTree.Proofs.Text.Search

namespace FeatureTree.Text

open Decimal

/-- A text without blanks, brackets and quotes. -/
structure IsToken (cs : List Char) : Prop where
  solid : ∀ c ∈ cs, isBlank c = false
  plain : ∀ c ∈ cs, c ≠ '(' ∧ c ≠ ')' ∧ c ≠ '"'

variable {c : Char} {cs : List Char}

/-- The characters of numbers are no blanks, brackets and quotes. -/
theorem plain_of_number (h : isDigit c = true ∨ c ∈ ['.', '-', 'i', 'n', 'f', 'N', 'a']) :
    isBlank c = false ∧ c ≠ '(' ∧ c ≠ ')' ∧ c ≠ '"' := by
  rcases h with h | h
  · have := toNat_of_isDigit h
    refine ⟨isBlank_graphic (by omega) (by omega), ?_, ?_, ?_⟩
    · exact ne_of_isDigit h (by decide)
    · exact ne_of_isDigit h (by decide)
    · exact ne_of_isDigit h (by decide)
  · simp only [List.mem_cons, List.not_mem_nil, or_false] at h
    rcases h with rfl | rfl | rfl | rfl | rfl | rfl | rfl <;> decide

theorem isToken_of_number
    (h : ∀ c ∈ cs, isDigit c = true ∨ c ∈ ['.', '-', 'i', 'n', 'f', 'N', 'a']) : IsToken cs where
  solid := fun c hc => (plain_of_number (h c hc)).1
  plain := fun c hc => (plain_of_number (h c hc)).2

theorem isToken_nat (n : Nat) : IsToken (toString n).toList := by
  rw [Nat.toString_eq_ofList_toDigits, String.toList_ofList]
  exact isToken_of_number fun c hc => .inl (isDigit_of_mem_toDigits hc)

theorem isToken_int (i : Int) : IsToken (toString i).toList := by
  rw [Int.toString_eq_repr, Int.repr_eq_if]
  split
  · rw [Nat.toList_repr]
    exact isToken_of_number fun c hc => .inl (isDigit_of_mem_toDigits hc)
  · rw [String.toList_append, Nat.toList_repr]
    refine isToken_of_number fun c hc => ?_
    rcases List.mem_append.mp hc with hc | hc
    · obtain rfl : c = '-' := by simpa using hc
      exact .inr (by decide)
    · exact .inl (isDigit_of_mem_toDigits hc)

theorem isToken_render (x : Single) : IsToken x.render.toList :=
  isToken_of_number fun _ hc => Floating.mem_render hc

theorem isToken_renderLower (x : Single) : IsToken x.renderLower.toList :=
  isToken_of_number fun _ hc => Floating.mem_renderLower hc

/-! ### Tokens with brackets around them -/

/-- A text between this many opening and closing brackets. -/
def bracketed (k : Nat) (w : List Char) (n : Nat) : List Char :=
  List.replicate k '(' ++ w ++ List.replicate n ')'

/-- No opening bracket comes right after a closing one. -/
def NoReopening (cs : List Char) : Prop := cs.IsChain fun a b => ¬ (a = ')' ∧ b = '(')

variable {ds w : List Char} {k n : Nat}

theorem NoReopening.append_left (hcs : ∀ c ∈ cs, c ≠ ')') (h : NoReopening ds) :
    NoReopening (cs ++ ds) := by
  induction cs with
  | nil => exact h
  | cons c cs ih =>
    have hrest := ih fun a ha => hcs a (List.mem_cons_of_mem _ ha)
    rw [NoReopening, List.cons_append, List.isChain_cons]
    exact ⟨fun b _ hb => hcs c List.mem_cons_self hb.1, hrest⟩

theorem NoReopening.append_space (hcs : NoReopening cs) (hds : NoReopening ds) :
    NoReopening (cs ++ ' ' :: ds) := by
  have htail : NoReopening ([' '] ++ ds) := hds.append_left (by simp)
  refine List.isChain_append.mpr ⟨hcs, htail, ?_⟩
  intro a _ b hb
  obtain rfl : ' ' = b := by simpa using hb
  exact fun h => absurd h.2 (by decide)

theorem noReopening_intercalate {ws : List (List Char)} (h : ∀ w ∈ ws, NoReopening w) :
    NoReopening ([' '].intercalate ws) := by
  induction ws with
  | nil => exact .nil
  | cons w ws ih =>
    have hw := h w List.mem_cons_self
    cases ws with
    | nil => rwa [List.intercalate_singleton]
    | cons w' ws =>
      rw [List.intercalate_cons_cons, List.append_assoc, List.singleton_append]
      exact hw.append_space (ih fun v hv => h v (List.mem_cons_of_mem _ hv))

/-- Then there is no place where a space would be put between two brackets. -/
theorem NoReopening.replaceAll_eq (h : NoReopening cs) :
    replaceAll [')', '('] [')', ' ', '('] cs = cs :=
  replaceAll_eq_self (holds_pair_eq_false h)

theorem bracketed_ne_nil (h : 0 < k + n) : bracketed k w n ≠ [] := by
  intro hnil
  have := congrArg List.length hnil
  simp only [bracketed, List.length_append, List.length_replicate, List.length_nil] at this
  omega

section

variable (hw : IsToken w)
include hw

theorem solid_bracketed : ∀ c ∈ bracketed k w n, isBlank c = false := by
  intro c hc
  rw [bracketed, List.mem_append, List.mem_append, List.mem_replicate, List.mem_replicate] at hc
  rcases hc with (⟨-, rfl⟩ | hc) | ⟨-, rfl⟩
  · decide
  · exact hw.solid c hc
  · decide

theorem takeWhile_bracketed : (bracketed 0 w n).takeWhile (· != ')') = w := by
  rw [bracketed, List.replicate_zero, List.nil_append, List.takeWhile_append_of_pos]
  · cases n <;> simp [List.replicate_succ]
  · intro c hc
    simpa using (hw.plain c hc).2.1

theorem dropWhile_bracketed :
    (bracketed 0 w n).dropWhile (· != ')') = List.replicate n ')' := by
  rw [bracketed, List.replicate_zero, List.nil_append, List.dropWhile_append_of_pos]
  · cases n <;> simp [List.replicate_succ]
  · intro c hc
    simpa using (hw.plain c hc).2.1

theorem dropOpening_bracketed : (bracketed k w 0).dropWhile (· == '(') = w := by
  rw [bracketed, List.replicate_zero, List.append_nil, List.dropWhile_append_of_pos]
  · cases w with
    | nil => rfl
    | cons c w => simp [(hw.plain c List.mem_cons_self).1]
  · intro c hc
    simpa using (List.mem_replicate.mp hc).2

theorem trimClosing_bracketed : trimEndBy (· == ')') (bracketed 0 w n) = w := by
  rw [bracketed, List.replicate_zero, List.nil_append, trimEndBy_append_of_all]
  · refine trimEndBy_eq_self fun c hc => ?_
    simpa using (hw.plain c (List.mem_of_getLast? hc)).2.1
  · intro c hc
    simpa using (List.mem_replicate.mp hc).2

theorem noReopening_bracketed : NoReopening (bracketed k w n) := by
  refine NoReopening.append_left (fun c hc => ?_) (List.isChain_replicate_of_rel n (by decide))
  rcases List.mem_append.mp hc with hc | hc
  · rw [(List.mem_replicate.mp hc).2]
    decide
  · exact (hw.plain c hc).2.1

end

end FeatureTree.Text
