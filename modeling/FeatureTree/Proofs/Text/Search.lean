/-
Replacing, splitting and trimming.

* `Text.replaceAll_eq_self` — without an occurrence nothing is replaced;
* `Text.replaceAll_char` — a single character is replaced wherever it stands;
* `Text.unescape_escape` — quotes that were escaped are plain again;
* `Text.splitOnce?_append`, `Text.trimBy_eq_self` — texts with known ends.
-/
import FeatureTree.Proofs.Text.Words
import FeatureTree.Text.Lines
import FeatureTree.Text.Search
import Mathlib.Data.List.Chain

namespace FeatureTree.Text

variable {p : Char → Bool} {c d : Char} {cs ds sought replacement out : List Char}

/-! ### Beginnings -/

theorem startsWith?_append (beginning cs : List Char) :
    startsWith? beginning (beginning ++ cs) = some cs := by
  induction beginning with
  | nil => cases cs <;> rfl
  | cons b beginning ih => rw [List.cons_append, startsWith?, if_pos rfl, ih]

theorem startsWith_iff : startsWith sought cs = true ↔ ∃ rest, cs = sought ++ rest := by
  rw [startsWith]
  constructor
  · induction sought generalizing cs with
    | nil => exact fun _ => ⟨cs, rfl⟩
    | cons s sought ih =>
      intro h
      cases cs with
      | nil => simp [startsWith?] at h
      | cons c cs =>
        rw [startsWith?] at h
        split at h
        · next heq =>
          obtain ⟨rest, hrest⟩ := ih h
          exact ⟨rest, by rw [heq, hrest, List.cons_append]⟩
        · simp at h
  · rintro ⟨rest, rfl⟩
    rw [startsWith?_append]
    rfl

theorem startsWith_eq_false (h : ∀ rest, cs ≠ sought ++ rest) : startsWith sought cs = false := by
  by_contra hs
  obtain ⟨rest, hrest⟩ := startsWith_iff.mp (by simpa using hs)
  exact h rest hrest

/-! ### Replacing -/

theorem replaceLoop_of_holds_eq_false (h : holds sought cs = false) :
    replaceLoop sought replacement 0 cs out = out.reverse ++ cs := by
  induction cs generalizing out with
  | nil => rw [replaceLoop, List.append_nil]
  | cons c cs ih =>
    rw [holds, Bool.or_eq_false_iff] at h
    rw [replaceLoop, if_neg (by simp [h.1]), ih h.2, List.reverse_cons, List.append_assoc]
    rfl

/-- Without an occurrence nothing is replaced. -/
theorem replaceAll_eq_self (h : holds sought cs = false) :
    replaceAll sought replacement cs = cs := by
  rw [replaceAll, replaceLoop_of_holds_eq_false h]
  rfl

/-- A pair of characters that never stand next to each other does not occur. -/
theorem holds_pair_eq_false (h : cs.IsChain fun a b => ¬ (a = c ∧ b = d)) :
    holds [c, d] cs = false := by
  induction cs with
  | nil => rfl
  | cons a cs ih =>
    rw [holds, Bool.or_eq_false_iff]
    refine ⟨startsWith_eq_false fun rest hrest => ?_, ih h.tail⟩
    obtain ⟨rfl, rfl⟩ := List.cons.inj hrest
    exact List.IsChain.rel h ⟨rfl, rfl⟩

theorem holds_eq_false_of_not_mem (h : c ∉ cs) : holds (ds ++ [c]) cs = false := by
  induction cs with
  | nil => cases ds <;> rfl
  | cons a cs ih =>
    rw [holds, Bool.or_eq_false_iff]
    refine ⟨startsWith_eq_false fun rest hrest => h ?_, ih fun hc => h (List.mem_cons_of_mem _ hc)⟩
    rw [hrest]
    simp

theorem replaceLoop_char :
    replaceLoop [c] replacement 0 cs out =
      out.reverse ++ cs.flatMap fun a => if a = c then replacement else [a] := by
  induction cs generalizing out with
  | nil => rw [replaceLoop, List.flatMap_nil, List.append_nil]
  | cons a cs ih =>
    rw [replaceLoop, List.flatMap_cons]
    by_cases ha : a = c
    · have hstart : startsWith [c] (a :: cs) = true := startsWith_iff.mpr ⟨cs, by rw [ha]; rfl⟩
      rw [if_pos hstart, if_pos ha]
      show replaceLoop [c] replacement 0 cs (replacement.reverse ++ out) = _
      rw [ih, List.reverse_append, List.reverse_reverse, List.append_assoc]
    · have hstart : startsWith [c] (a :: cs) = false := by
        refine startsWith_eq_false fun rest hrest => ha ?_
        exact (List.cons.inj hrest).1
      rw [if_neg (by simp [hstart]), if_neg ha, ih, List.reverse_cons, List.append_assoc]

/-- A single character is replaced wherever it stands. -/
theorem replaceAll_char :
    replaceAll [c] replacement cs = cs.flatMap fun a => if a = c then replacement else [a] := by
  rw [replaceAll, replaceLoop_char]
  rfl

/-! ### Escaped characters -/

/-- The text with a character `d` before every `c`. -/
def escape (d c : Char) (cs : List Char) : List Char :=
  cs.flatMap fun a => if a = c then [d, c] else [a]

/-- An escaped text never begins with the character that is escaped. -/
theorem head?_escape (hne : d ≠ c) (cs : List Char) : (escape d c cs).head? ≠ some c := by
  cases cs with
  | nil => simp [escape]
  | cons a cs =>
    rw [escape, List.flatMap_cons]
    by_cases ha : a = c
    · rw [if_pos ha]
      simpa using hne
    · rw [if_neg ha]
      simpa using ha

theorem replaceLoop_escape (hne : d ≠ c) :
    replaceLoop [d, c] [c] 0 (escape d c cs) out = out.reverse ++ cs := by
  induction cs generalizing out with
  | nil => rw [escape, List.flatMap_nil, replaceLoop]; simp
  | cons a cs ih =>
    have hcons : escape d c (a :: cs) = (if a = c then [d, c] else [a]) ++ escape d c cs := by
      rw [escape, List.flatMap_cons]
      rfl
    rw [hcons]
    by_cases ha : a = c
    · rw [if_pos ha]
      show replaceLoop [d, c] [c] 0 (d :: c :: escape d c cs) out = _
      have hstart : startsWith [d, c] (d :: c :: escape d c cs) = true :=
        startsWith_iff.mpr ⟨escape d c cs, rfl⟩
      rw [replaceLoop, if_pos hstart]
      show replaceLoop [d, c] [c] 0 (escape d c cs) (c :: out) = _
      rw [ih, List.reverse_cons, List.append_assoc, ha]
      rfl
    · -- what follows does not begin with the escaped character
      have hstart : startsWith [d, c] (a :: escape d c cs) = false := by
        refine startsWith_eq_false fun rest hrest => head?_escape hne cs ?_
        rw [(List.cons.inj hrest).2]
        rfl
      rw [if_neg ha]
      show replaceLoop [d, c] [c] 0 (a :: escape d c cs) out = _
      rw [replaceLoop, if_neg (by simp [hstart]), ih, List.reverse_cons, List.append_assoc]
      rfl

theorem unescape_escape (hne : d ≠ c) :
    replaceAll [d, c] [c] (replaceAll [c] [d, c] cs) = cs := by
  rw [replaceAll_char]
  show replaceAll [d, c] [c] (escape d c cs) = cs
  rw [replaceAll, replaceLoop_escape hne]
  rfl

/-! ### Parts and ends -/

theorem splitOnce?_append (hcs : ∀ a ∈ cs, p a = false) (hc : p c = true) (ds : List Char) :
    splitOnce? p (cs ++ c :: ds) = some (cs, ds) := by
  have hcs' : ∀ a ∈ cs, (!p a) = true := fun a ha => by simp [hcs a ha]
  have htake : (cs ++ c :: ds).takeWhile (!p ·) = cs := by
    rw [List.takeWhile_append_of_pos hcs', List.takeWhile_cons, if_neg (by simp [hc]),
      List.append_nil]
  have hdrop : (cs ++ c :: ds).dropWhile (!p ·) = c :: ds := by
    rw [List.dropWhile_append_of_pos hcs', List.dropWhile_cons, if_neg (by simp [hc])]
  rw [splitOnce?, hdrop, htake]

theorem splitOnce?_eq_none (hcs : ∀ a ∈ cs, p a = false) : splitOnce? p cs = none := by
  have hdrop : cs.dropWhile (!p ·) = [] :=
    List.dropWhile_eq_nil_iff.mpr fun a ha => by simp [hcs a ha]
  rw [splitOnce?, hdrop]

theorem dropLast?_append (cs : List Char) (c : Char) : dropLast? c (cs ++ [c]) = some cs := by
  rw [dropLast?, if_pos (by simp)]
  simp

theorem trimEndBy_append_of_all (cs : List Char) (hds : ∀ a ∈ ds, p a = true) :
    trimEndBy p (cs ++ ds) = trimEndBy p cs := by
  rw [trimEndBy, trimEndBy, List.reverse_append, List.dropWhile_append_of_pos]
  intro a ha
  exact hds a (List.mem_reverse.mp ha)

theorem trimBy_append_of_all (cs : List Char) (hds : ∀ a ∈ ds, p a = true) :
    trimBy p (cs ++ ds) = trimBy p cs := by
  rw [trimBy, trimBy, List.dropWhile_append]
  split
  · next h => rw [List.isEmpty_iff.mp h, List.dropWhile_eq_nil_iff.mpr hds]
  · exact trimEndBy_append_of_all _ hds

theorem dropReturn_cases (cs : List Char) :
    dropReturn '\r' cs = cs ∨ cs = dropReturn '\r' cs ++ ['\r'] := by
  rw [dropReturn]
  split
  · next h =>
    obtain ⟨front, rfl⟩ := List.getLast?_eq_some_iff.mp h
    rw [List.dropLast_concat]
    exact .inr rfl
  · exact .inl rfl

theorem isBlank_return : ∀ c ∈ ['\r'], isBlank c = true := by
  intro c hc
  rw [List.mem_singleton.mp hc]
  decide

/-- The carriage return of a line end is trimmed with the other blanks. -/
theorem trimBy_dropReturn (cs : List Char) :
    trimBy isBlank (dropReturn '\r' cs) = trimBy isBlank cs := by
  rcases dropReturn_cases cs with h | h
  · rw [h]
  · conv_rhs => rw [h]
    exact (trimBy_append_of_all _ isBlank_return).symm

theorem trimEndBy_eq_self (h : ∀ a, cs.getLast? = some a → p a = false) : trimEndBy p cs = cs := by
  rw [trimEndBy]
  cases hcs : cs.reverse with
  | nil =>
    rw [List.reverse_eq_nil_iff] at hcs
    rw [hcs]
    rfl
  | cons a rest =>
    have ha : cs.getLast? = some a := by
      rw [← List.head?_reverse, hcs]
      rfl
    rw [List.dropWhile_cons, if_neg (by simp [h a ha]), ← hcs, List.reverse_reverse]

/-- A text without trimmed characters at its ends is not trimmed. -/
theorem trimBy_eq_self (hhead : ∀ a, cs.head? = some a → p a = false)
    (hlast : ∀ a, cs.getLast? = some a → p a = false) : trimBy p cs = cs := by
  have hdrop : cs.dropWhile p = cs := by
    cases cs with
    | nil => rfl
    | cons a cs => rw [List.dropWhile_cons, if_neg (by simp [hhead a rfl])]
  rw [trimBy, hdrop, trimEndBy_eq_self hlast]

/-- Only what follows is trimmed when a text begins with a word. -/
theorem trimBy_append_of_none (hne : cs ≠ []) (hcs : ∀ a ∈ cs, p a = false) (ds : List Char) :
    trimBy p (cs ++ ds) = cs ++ trimEndBy p ds := by
  have hdrop : (cs ++ ds).dropWhile p = cs ++ ds := by
    obtain ⟨c, cs, rfl⟩ := List.exists_cons_of_ne_nil hne
    rw [List.cons_append, List.dropWhile_cons, if_neg (by simp [hcs c List.mem_cons_self])]
  have hkeep : trimEndBy p cs = cs :=
    trimEndBy_eq_self fun a ha => hcs a (List.mem_of_getLast? ha)
  rw [trimBy, hdrop, trimEndBy, List.reverse_append, List.dropWhile_append]
  split
  · next h =>
    have hnone : trimEndBy p ds = [] := by rw [trimEndBy, List.isEmpty_iff.mp h, List.reverse_nil]
    rw [hnone, List.append_nil]
    exact hkeep
  · rw [List.reverse_append, List.reverse_reverse]
    rfl

end FeatureTree.Text
