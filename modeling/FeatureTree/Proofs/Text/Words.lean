/-
Words of a text, and what stands at its ends.

* `Text.words_append_blank`, `Text.words_solid` — the words on both sides of a
  blank, and a text that is one word;
* `Text.exists_last_word` — the last word of a text that does not end in a blank;
* `Text.words_trimBy` — trimmed blanks are in no word;
* `Text.runLength` — how often a text repeats a character at its end.
-/
import FeatureTree.Text.Blank
import Mathlib.Data.List.TakeWhile
import Mathlib.Tactic.Set

namespace FeatureTree.Text

variable {p : Char → Bool} {c : Char} {cs w : List Char}

/-! ### Cutting at characters -/

theorem splitLoop_eq (p : Char → Bool) (cs piece : List Char) (pieces : List (List Char)) :
    splitLoop p cs piece pieces = pieces.reverse ++ List.splitOnPPrepend p cs piece := by
  induction cs generalizing piece pieces with
  | nil => rw [splitLoop, List.reverse_cons, List.splitOnPPrepend_nil]
  | cons c cs ih =>
    rw [splitLoop, List.splitOnPPrepend_cons_eq_if]
    by_cases hc : p c = true
    · rw [if_pos hc, if_pos hc, ih, List.reverse_cons, List.splitOnPPrepend_nil_right,
        List.append_assoc]
      rfl
    · rw [if_neg hc, if_neg hc, ih]

theorem splitOn_eq (p : Char → Bool) (cs : List Char) : splitOn p cs = cs.splitOnP p := by
  rw [splitOn, splitLoop_eq]
  rfl

/-! ### Words -/

/-- Of a given text it can be computed that it holds no blanks. -/
theorem solid_of_all {cs : List Char} (h : (cs.all fun c => !isBlank c) = true) :
    ∀ c ∈ cs, isBlank c = false := by
  intro c hc
  simpa using List.all_eq_true.mp h c hc

theorem isBlank_graphic (h1 : 0x21 ≤ c.toNat) (h2 : c.toNat ≤ 0x7E) : isBlank c = false := by
  simp only [isBlank, inRanges, blankRanges, List.any_cons, List.any_nil, Bool.or_false,
    Bool.or_eq_false_iff, Bool.and_eq_false_iff, decide_eq_false_iff_not]
  omega

theorem words_append_blank (cs ds : List Char) (hc : isBlank c = true) :
    words (cs ++ c :: ds) = words cs ++ words ds := by
  rw [words, splitOn_eq, List.splitOnP_append_cons cs ds hc, List.filter_append, words, words,
    splitOn_eq, splitOn_eq]

/-- A text without blanks is one word. -/
theorem words_solid (hne : w ≠ []) (hw : ∀ c ∈ w, isBlank c = false) : words w = [w] := by
  rw [words, splitOn_eq, List.splitOnP_eq_singleton hw]
  simp [hne]

theorem words_solid_append_blank (cs : List Char) (hne : w ≠ []) (hw : ∀ c ∈ w, isBlank c = false)
    (hc : isBlank c = true) : words (w ++ c :: cs) = w :: words cs := by
  rw [words_append_blank w cs hc, words_solid hne hw, List.singleton_append]

theorem intercalate_concat {ws : List (List Char)} (hne : ws ≠ []) (w : List Char) :
    [' '].intercalate (ws ++ [w]) = [' '].intercalate ws ++ ' ' :: w := by
  induction ws with
  | nil => exact absurd rfl hne
  | cons v ws ih =>
    cases ws with
    | nil => rw [List.singleton_append, List.intercalate_cons_cons, List.intercalate_singleton,
        List.intercalate_singleton, List.append_assoc, List.singleton_append]
    | cons v' ws =>
      rw [List.cons_append, List.cons_append, List.intercalate_cons_cons,
        List.intercalate_cons_cons, ← List.cons_append, ih (by simp), List.append_assoc,
        List.append_assoc, List.append_assoc]

theorem mem_intercalate {ws : List (List Char)} (h : c ∈ [' '].intercalate ws) :
    c = ' ' ∨ ∃ w ∈ ws, c ∈ w := by
  induction ws with
  | nil => simp at h
  | cons v ws ih =>
    cases ws with
    | nil =>
      rw [List.intercalate_singleton] at h
      exact .inr ⟨v, List.mem_singleton_self v, h⟩
    | cons v' ws =>
      rw [List.intercalate_cons_cons, List.mem_append, List.mem_append, List.mem_singleton] at h
      rcases h with (h | h) | h
      · exact .inr ⟨v, List.mem_cons_self, h⟩
      · exact .inl h
      · rcases ih h with hc | ⟨w, hw, hc⟩
        · exact .inl hc
        · exact .inr ⟨w, List.mem_cons_of_mem _ hw, hc⟩

/-- Words with a space between them are found again. -/
theorem words_intercalate {ws : List (List Char)}
    (h : ∀ w ∈ ws, w ≠ [] ∧ ∀ c ∈ w, isBlank c = false) : words ([' '].intercalate ws) = ws := by
  induction ws with
  | nil => rfl
  | cons w ws ih =>
    obtain ⟨hne, hsolid⟩ := h w List.mem_cons_self
    cases ws with
    | nil => rw [List.intercalate_singleton, words_solid hne hsolid]
    | cons w' ws =>
      rw [List.intercalate_cons_cons, List.append_assoc, List.singleton_append,
        words_solid_append_blank _ hne hsolid (by decide),
        ih fun v hv => h v (List.mem_cons_of_mem _ hv)]

/-! ### The last word -/

/-- A text that does not end in a blank ends in its last word, before which
there is a blank or nothing. -/
theorem exists_last_word (hne : cs ≠ []) (hlast : ∀ c, cs.getLast? = some c → isBlank c = false) :
    ∃ front w, cs = front ++ w ∧ w ≠ [] ∧ (∀ c ∈ w, isBlank c = false) ∧
      (∀ c, front.getLast? = some c → isBlank c = true) ∧ (words cs).getLastD [] = w := by
  set solid : Char → Bool := fun c => !isBlank c with hsolid
  set w := (cs.reverse.takeWhile solid).reverse with hw
  set front := (cs.reverse.dropWhile solid).reverse with hfront
  have hcut : cs = front ++ w := by
    rw [hw, hfront, ← List.reverse_append, List.takeWhile_append_dropWhile, List.reverse_reverse]
  have hall : ∀ c ∈ w, isBlank c = false := by
    intro c hc
    rw [hw, List.mem_reverse] at hc
    simpa [hsolid] using List.mem_takeWhile_imp hc
  have hwne : w ≠ [] := by
    intro hnil
    obtain ⟨c, hc⟩ : ∃ c, cs.getLast? = some c :=
      Option.isSome_iff_exists.mp (List.getLast?_isSome.mpr hne)
    have hblank : isBlank c = false := hlast c hc
    rw [← List.head?_reverse] at hc
    obtain ⟨rest, hrest⟩ := List.head?_eq_some_iff.mp hc
    rw [hw, hrest, List.takeWhile_cons, if_pos (by simp [hsolid, hblank])] at hnil
    simp at hnil
  have hend : ∀ c, front.getLast? = some c → isBlank c = true := by
    intro c hc
    rw [hfront, List.getLast?_reverse] at hc
    have := List.head?_dropWhile_not solid cs.reverse
    rw [hc] at this
    simpa [hsolid] using this
  refine ⟨front, w, hcut, hwne, hall, hend, ?_⟩
  -- what comes before the last word ends in a blank
  rcases List.eq_nil_or_concat front with hnil | ⟨front', e, he⟩
  · rw [hcut, hnil, List.nil_append, words_solid hwne hall]
    rfl
  · have hblank : isBlank e = true := hend e (by simp [he])
    rw [hcut, he, List.concat_eq_append, List.append_assoc, List.singleton_append,
      words_append_blank front' w hblank, words_solid hwne hall]
    simp

/-! ### Trimming -/

/-- What is left after trimming does not end in a trimmed character. -/
theorem getLast?_trimBy (h : (trimBy p cs).getLast? = some c) : p c = false := by
  rw [trimBy, trimEndBy, List.getLast?_reverse] at h
  have := List.head?_dropWhile_not p (cs.dropWhile p).reverse
  rw [h] at this
  simpa using this

theorem mem_of_mem_trimBy (h : c ∈ trimBy p cs) : c ∈ cs := by
  rw [trimBy, trimEndBy, List.mem_reverse] at h
  have hdropped := List.mem_reverse.mp ((List.dropWhile_sublist _).subset h)
  exact (List.dropWhile_sublist _).subset hdropped

theorem words_append_of_blank (cs : List Char) {ds : List Char}
    (hds : ∀ c ∈ ds, isBlank c = true) : words (cs ++ ds) = words cs := by
  induction ds generalizing cs with
  | nil => rw [List.append_nil]
  | cons d ds ih =>
    have hcut : cs ++ d :: ds = (cs ++ [d]) ++ ds := by simp
    rw [hcut, ih (cs ++ [d]) fun c hc => hds c (List.mem_cons_of_mem _ hc),
      words_append_blank cs [] (hds d List.mem_cons_self)]
    exact List.append_nil _

theorem words_dropWhile_blank (cs : List Char) : words (cs.dropWhile isBlank) = words cs := by
  induction cs with
  | nil => rfl
  | cons c cs ih =>
    rw [List.dropWhile_cons]
    split
    · next hc => rw [ih, ← List.nil_append (c :: cs), words_append_blank [] cs hc]; rfl
    · rfl

/-- Trimming leaves the words alone. -/
theorem words_trimBy (cs : List Char) : words (trimBy isBlank cs) = words cs := by
  rw [← words_dropWhile_blank cs, trimBy]
  set ds := cs.dropWhile isBlank
  have hcut : ds = trimEndBy isBlank ds ++ (ds.reverse.takeWhile isBlank).reverse := by
    rw [trimEndBy, ← List.reverse_append, List.takeWhile_append_dropWhile, List.reverse_reverse]
  have hblank : ∀ c ∈ (ds.reverse.takeWhile isBlank).reverse, isBlank c = true := fun c hc =>
    List.mem_takeWhile_imp (List.mem_reverse.mp hc)
  calc words (trimEndBy isBlank ds)
      = words (trimEndBy isBlank ds ++ (ds.reverse.takeWhile isBlank).reverse) :=
        (words_append_of_blank _ hblank).symm
    _ = words ds := by rw [← hcut]

/-! ### Runs at the end -/

/-- How often a text repeats a character at its end. -/
def runLength (c : Char) (cs : List Char) : Nat := (cs.reverse.takeWhile (· == c)).length

theorem runLength_append_replicate (n : Nat) (h : cs.getLast? ≠ some c) :
    runLength c (cs ++ List.replicate n c) = n := by
  rw [runLength, List.reverse_append, List.reverse_replicate, List.takeWhile_append]
  have hall : ((List.replicate n c).takeWhile (· == c)) = List.replicate n c := by
    simp
  have hnone : cs.reverse.takeWhile (· == c) = [] := by
    cases hcs : cs.reverse with
    | nil => rfl
    | cons d ds =>
      have hd : cs.getLast? = some d := by
        rw [← List.head?_reverse, hcs]
        rfl
      have hne : d ≠ c := by
        rintro rfl
        exact h hd
      simp [hne]
  rw [hall, if_pos rfl, hnone, List.append_nil, List.length_replicate]

end FeatureTree.Text
