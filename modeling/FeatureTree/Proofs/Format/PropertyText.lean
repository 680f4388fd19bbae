/-
The text of properties, line by line.

A character is written as itself, as a backslash and one more character, or as a
backslash, `u` and four hexadecimal digits.  Each of these blocks is read back as
the character by itself, so that texts are read back block by block.  A character
outside the Basic Multilingual Plane takes two escapes, which are surrogates; the
lines and the names of a text are found whatever its characters are.

* `PropertyText.Block` — how a character is written;
* `PropertyText.Pieces` — what a text is put together from;
* `PropertyText.parse_render_eq_mapM` — the text of properties is read entry by
  entry;
* `PropertyText.readBlock_text` — a text in a binary stream.
-/
import FeatureTree.Format.PropertyText
import FeatureTree.Proofs.Stream.Reads
import FeatureTree.Proofs.Text.Lines
import FeatureTree.Proofs.Text.Words

namespace FeatureTree

/-! ### Sorted entries -/

namespace Properties

theorem insertEntry_last {key value : String} {entries : List (String × String)}
    (h : ∀ e ∈ entries, e.1 < key) :
    insertEntry key value entries = entries ++ [(key, value)] := by
  induction entries with
  | nil => rfl
  | cons e rest ih =>
    have he := h e List.mem_cons_self
    rw [insertEntry, if_neg (String.lt_asymm he), if_neg (String.ne_of_lt he).symm,
      ih fun d hd => h d (List.mem_cons_of_mem _ hd), List.cons_append]

/-- Sorted entries are put in as they come. -/
theorem ofList_entries (p : Properties) : ofList p.entries = p := by
  have hloop : ∀ (rest : List (String × String)) (q : Properties),
      (q.entries ++ rest).Pairwise (fun a b => a.1 < b.1) →
      (rest.foldl (fun p e => p.insert e.1 e.2) q).entries = q.entries ++ rest := by
    intro rest
    induction rest with
    | nil => exact fun q _ => (List.append_nil _).symm
    | cons e rest ih =>
      intro q hq
      have hlast : ∀ d ∈ q.entries, d.1 < e.1 := fun d hd =>
        (List.pairwise_append.mp hq).2.2 d hd e List.mem_cons_self
      have hinsert : (q.insert e.1 e.2).entries = q.entries ++ [e] := insertEntry_last hlast
      rw [List.foldl_cons, ih _ (by rw [hinsert]; simpa using hq), hinsert, List.append_assoc]
      rfl
  obtain ⟨entries, sorted⟩ := p
  have := hloop entries empty sorted
  rw [ofList]
  generalize hq : entries.foldl (fun p e => p.insert e.1 e.2) empty = q at this
  obtain ⟨entries', sorted'⟩ := q
  obtain rfl : entries' = entries := this
  rfl

end Properties

namespace PropertyText

open Text

/-! ### Hexadecimal digits -/

theorem exists_digit_of_mem_toDigits {c : Char} {n : Nat} (h : c ∈ Nat.toDigits 16 n) :
    ∃ d < 16, c = d.digitChar := by
  induction n using Nat.strong_induction_on with
  | _ n ih =>
    by_cases hn : n < 16
    · rw [Nat.toDigits_of_lt_base hn, List.mem_singleton] at h
      exact ⟨n, hn, h⟩
    · rw [Nat.toDigits_of_base_le (by omega) (by omega), List.mem_append] at h
      rcases h with h | h
      · exact ih (n / 16) (by omega) h
      · exact ⟨n % 16, by omega, List.mem_singleton.mp h⟩

theorem hexValue?_digitChar : ∀ d < 16, Numeral.hexValue? d.digitChar.toUpper = some d := by
  decide

/-- The value of digits after a value that was read already. -/
def hexFold (n? : Option Nat) (cs : List Char) : Option Nat :=
  cs.foldl (fun n? c => n?.bind fun n => (Numeral.hexValue? c).map (16 * n + ·)) n?

theorem hexFold_toDigits (n : Nat) :
    hexFold (some 0) ((Nat.toDigits 16 n).map Char.toUpper) = some n := by
  induction n using Nat.strong_induction_on with
  | _ n ih =>
    by_cases hn : n < 16
    · rw [Nat.toDigits_of_lt_base hn]
      simp [hexFold, hexValue?_digitChar n hn]
    · rw [Nat.toDigits_of_base_le (by omega) (by omega), List.map_append, hexFold,
        List.foldl_append]
      have := ih (n / 16) (by omega)
      rw [hexFold] at this
      rw [this, List.map_singleton, List.foldl_cons, List.foldl_nil, Option.bind_some,
        hexValue?_digitChar _ (by omega), Option.map_some]
      congr
      omega

theorem hexFold_zeros (k : Nat) (cs : List Char) :
    hexFold (some 0) (List.replicate k '0' ++ cs) = hexFold (some 0) cs := by
  induction k with
  | zero => rfl
  | succ k ih =>
    rw [List.replicate_succ, List.cons_append]
    exact ih

/-- The digits of a code unit. -/
def unitDigits (n : Nat) : List Char :=
  List.replicate (4 - ((Nat.toDigits 16 n).map Char.toUpper).length) '0' ++
    (Nat.toDigits 16 n).map Char.toUpper

theorem length_unitDigits {n : Nat} (h : n < 2 ^ 16) : (unitDigits n).length = 4 := by
  have := (Nat.length_toDigits_le_iff (b := 16) (n := n) (k := 4) (by omega) (by omega)).mpr
    (by omega)
  rw [unitDigits, List.length_append, List.length_replicate, List.length_map]
  omega

/-- A digit is a graphic ASCII character without a meaning of its own. -/
theorem digit_of_mem_unitDigits {c : Char} {n : Nat} (h : c ∈ unitDigits n) :
    ∃ d < 16, c = d.digitChar.toUpper := by
  rw [unitDigits, List.mem_append] at h
  rcases h with h | h
  · exact ⟨0, by omega, (List.eq_of_mem_replicate h).trans (by decide)⟩
  · obtain ⟨e, he, rfl⟩ := List.mem_map.mp h
    obtain ⟨d, hd, rfl⟩ := exists_digit_of_mem_toDigits he
    exact ⟨d, hd, rfl⟩

/-- Without a plus sign in front all characters count. -/
theorem hex?_cons {c : Char} {cs : List Char} (hc : c ≠ '+') :
    Numeral.hex? (c :: cs) = hexFold (some 0) (c :: cs) := by
  simp only [Numeral.hex?]
  split
  · next heq => exact absurd (List.cons.inj heq).1 hc
  · rfl

theorem hex?_unitDigits (n : Nat) : Numeral.hex? (unitDigits n) = some n := by
  have hplus : ∀ d < 16, d.digitChar.toUpper ≠ '+' := by decide
  have hvalue : hexFold (some 0) (unitDigits n) = some n := by
    rw [unitDigits, hexFold_zeros, hexFold_toDigits]
  cases hdigits : unitDigits n with
  | nil =>
    have : (Nat.toDigits 16 n).map Char.toUpper = [] := by
      rw [unitDigits] at hdigits
      exact (List.append_eq_nil_iff.mp hdigits).2
    exact absurd (List.map_eq_nil_iff.mp this) Nat.toDigits_ne_nil
  | cons c cs =>
    obtain ⟨d, hd, hc⟩ := digit_of_mem_unitDigits (c := c) (n := n) (by simp [hdigits])
    have hc : c ≠ '+' := hc ▸ hplus d hd
    rw [hdigits] at hvalue
    rw [hex?_cons hc, hvalue]

/-! ### How a character is written -/

/-- A character that stands for itself. -/
def Plain (c : Char) : Prop :=
  0x20 ≤ c.toNat ∧ c.toNat ≤ 0x7E ∧ c ≠ '\\' ∧ c ≠ '=' ∧ c ≠ ':' ∧ c ≠ '#' ∧ c ≠ '!'

theorem Plain.isBlank_eq_false {c : Char} (h : Plain c) (hc : c ≠ ' ') : isBlank c = false := by
  obtain ⟨hlow, hhigh, -⟩ := h
  have hne : c.toNat ≠ 0x20 := by
    intro h
    refine hc ?_
    rw [← Char.ofNat_toNat c, h]
  exact isBlank_graphic (by omega) hhigh

/-- The block of a character: itself, a backslash and a letter, or a backslash, `u`
and the four digits of its code. -/
inductive Block (c : Char) : List Char → Prop
  | plain : Plain c → Block c [c]
  | letter (x : Char) : x ≠ 'u' → 0x20 ≤ x.toNat → x.toNat ≤ 0x7E →
      (∀ rest out, unescapeLoop 0 ('\\' :: x :: rest) out = unescapeLoop 0 rest (c :: out)) →
      Block c ['\\', x]
  | code : c.toNat < 0x10000 → Block c ('\\' :: 'u' :: unitDigits c.toNat)

theorem block_escapeChar {escapeSpace : Bool} {c : Char} (hc : c.toNat < 0x10000) :
    Block c (escapeChar escapeSpace c) := by
  rw [escapeChar]
  split
  · next h =>
    subst h
    exact .letter _ (by decide) (by decide) (by decide) fun _ _ => rfl
  split
  · next h =>
    subst h
    exact .letter _ (by decide) (by decide) (by decide) fun _ _ => rfl
  split
  · next h =>
    subst h
    exact .letter _ (by decide) (by decide) (by decide) fun _ _ => rfl
  split
  · next h =>
    subst h
    exact .letter _ (by decide) (by decide) (by decide) fun _ _ => rfl
  split
  · next h =>
    subst h
    exact .letter _ (by decide) (by decide) (by decide) fun _ _ => rfl
  split
  · next h =>
    rcases h with rfl | rfl | rfl | rfl <;>
      exact .letter _ (by decide) (by decide) (by decide) fun _ _ => rfl
  split
  · next h =>
    subst h
    split
    · exact .letter _ (by decide) (by decide) (by decide) fun _ _ => rfl
    · exact .plain (by unfold Plain; decide)
  split
  · next hslash _ _ _ _ hspecial _ h =>
    obtain ⟨hlow, hhigh⟩ := h
    rw [not_or, not_or, not_or] at hspecial
    exact .plain ⟨hlow, hhigh, hslash, hspecial⟩
  · rw [Utf16.encodeChar]
    simp only [hc, if_true, List.flatMap_cons, List.flatMap_nil, List.append_nil]
    have hn : (UInt16.ofNat c.toNat).toNat = c.toNat := Utf16.toNat_ofNat hc
    rw [escapeUnit, hn]
    exact .code hc

variable {c : Char} {cs ds block : List Char} {spaceless : Bool}

/-- A block is read back as its character. -/
theorem Block.unescapeLoop_append (h : Block c block) (rest out : List Char) :
    unescapeLoop 0 (block ++ rest) out = unescapeLoop 0 rest (c :: out) := by
  cases h with
  | plain hp =>
    rw [List.singleton_append, unescapeLoop.eq_def]
    simp only
    rw [if_pos hp.2.2.1]
  | letter x _ _ _ hread => exact hread rest out
  | code hc =>
    have hlen := length_unitDigits hc
    have hchar : escapedChar? (unitDigits c.toNat) = some c := by
      have hvalid : c.toNat.isValidChar := c.valid
      have hback := Char.ofNat_toNat c
      rw [Char.ofNat, dif_pos hvalid] at hback
      rw [escapedChar?, if_neg (by omega), hex?_unitDigits, Option.bind_some, dif_pos hvalid, hback]
    have htake : (unitDigits c.toNat ++ rest).take 4 = unitDigits c.toNat :=
      List.take_left' hlen
    show unescapeLoop 0 ('\\' :: 'u' :: (unitDigits c.toNat ++ rest)) out = _
    rw [unescapeLoop.eq_def]
    simp only [ne_eq, not_true_eq_false, if_false, htake, hchar]
    -- the digits are skipped
    obtain ⟨w, x, y, z, hdigits⟩ : ∃ w x y z, unitDigits c.toNat = [w, x, y, z] := by
      match hd : unitDigits c.toNat, hlen with
      | [w, x, y, z], _ => exact ⟨w, x, y, z, rfl⟩
    rw [hdigits]
    rfl

/-! ### Pieces of a text -/

/-- A character that stands for itself, a backslash and a letter, or a backslash, `u`
and the four digits of a code unit. -/
inductive Piece : List Char → Prop
  | plain {c : Char} : Plain c → Piece [c]
  | letter {x : Char} : x ≠ 'u' → 0x20 ≤ x.toNat → x.toNat ≤ 0x7E → Piece ['\\', x]
  | code {n : Nat} : n < 2 ^ 16 → Piece ('\\' :: 'u' :: unitDigits n)

theorem Block.piece (h : Block c block) : Piece block := by
  cases h with
  | plain hp => exact .plain hp
  | letter x hu hlow hhigh _ => exact .letter hu hlow hhigh
  | code hc => exact .code hc

theorem piece_escapeUnit (u : UInt16) : Piece (escapeUnit u) := .code u.toNat_lt

/-- A text that is put together from pieces, none of which is a space if it is
spaceless. -/
inductive Pieces (spaceless : Bool) : List Char → Prop
  | nil : Pieces spaceless []
  | cons {piece cs : List Char} : Piece piece → (spaceless = true → piece ≠ [' ']) →
      Pieces spaceless cs → Pieces spaceless (piece ++ cs)

theorem Pieces.append (hcs : Pieces spaceless cs) (hds : Pieces spaceless ds) :
    Pieces spaceless (cs ++ ds) := by
  induction hcs with
  | nil => exact hds
  | cons hpiece hspace _ ih =>
    rw [List.append_assoc]
    exact .cons hpiece hspace ih

theorem Pieces.of_spaceless (h : Pieces true cs) : Pieces spaceless cs := by
  induction h with
  | nil => exact .nil
  | cons hpiece hspace _ ih => exact .cons hpiece (fun _ => hspace rfl) ih

/-- A character outside the Basic Multilingual Plane is written as two surrogates. -/
theorem escapeChar_of_le {escapeSpace : Bool} (hc : 0x10000 ≤ c.toNat) :
    escapeChar escapeSpace c = (Utf16.encodeChar c).flatMap escapeUnit := by
  have hne : ∀ d : Char, d.toNat < 0x10000 → c ≠ d := by
    rintro d hd rfl
    omega
  have hspecial : ¬(c = '=' ∨ c = ':' ∨ c = '#' ∨ c = '!') := by
    simp only [not_or]
    exact ⟨hne _ (by decide), hne _ (by decide), hne _ (by decide), hne _ (by decide)⟩
  have hgraphic : ¬(' ' ≤ c ∧ c ≤ '~') := by
    rintro ⟨-, hhigh⟩
    have : c.toNat ≤ 0x7E := hhigh
    omega
  rw [escapeChar, if_neg (hne _ (by decide)), if_neg (hne _ (by decide)),
    if_neg (hne _ (by decide)), if_neg (hne _ (by decide)), if_neg (hne _ (by decide)),
    if_neg hspecial, if_neg (hne _ (by decide)), if_neg hgraphic]

/-- With spaces escaped no character is written as a space. -/
theorem escapeChar_true_ne (c : Char) : escapeChar true c ≠ [' '] := by
  intro h
  by_cases hc : c.toNat < 0x10000
  · have hblock : Block c (escapeChar true c) := block_escapeChar hc
    rw [h] at hblock
    cases hblock with
    | plain _ => exact absurd h (by decide)
  · obtain ⟨high, low, hunits, -⟩ := Utf16.encodeChar_of_le (by omega : 0x10000 ≤ c.toNat)
    rw [escapeChar_of_le (by omega), hunits] at h
    simp [escapeUnit] at h

theorem escapeChar_ne_nil {escapeSpace : Bool} (c : Char) : escapeChar escapeSpace c ≠ [] := by
  intro h
  by_cases hc : c.toNat < 0x10000
  · have hblock : Block c (escapeChar escapeSpace c) := block_escapeChar hc
    rw [h] at hblock
    nomatch hblock
  · obtain ⟨high, low, hunits, -⟩ := Utf16.encodeChar_of_le (by omega : 0x10000 ≤ c.toNat)
    rw [escapeChar_of_le (by omega), hunits] at h
    simp [escapeUnit] at h

theorem pieces_escapeChar (escapeSpace : Bool) (c : Char) :
    Pieces escapeSpace (escapeChar escapeSpace c) := by
  by_cases hc : c.toNat < 0x10000
  · rw [← List.append_nil (escapeChar _ _)]
    refine .cons (block_escapeChar hc).piece (fun h => ?_) .nil
    rw [h]
    exact escapeChar_true_ne c
  · rw [escapeChar_of_le (by omega)]
    induction Utf16.encodeChar c with
    | nil => exact .nil
    | cons u units ih => exact .cons (piece_escapeUnit u) (fun _ => by simp [escapeUnit]) ih

theorem pieces_flatMap (escapeSpace : Bool) (cs : List Char) :
    Pieces escapeSpace (cs.flatMap (escapeChar escapeSpace)) := by
  induction cs with
  | nil => exact .nil
  | cons c cs ih => exact (pieces_escapeChar escapeSpace c).append ih

theorem pieces_escapeKey (s : String) : Pieces true (escapeKey s) := pieces_flatMap true s.toList

theorem pieces_escapeValue (s : String) : Pieces false (escapeValue s) := by
  rw [escapeValue]
  cases s.toList with
  | nil => exact .nil
  | cons c cs => exact (pieces_escapeChar true c).of_spaceless.append (pieces_flatMap false cs)

theorem Piece.ascii (h : Piece block) : ∀ x ∈ block, 0x20 ≤ x.toNat ∧ x.toNat ≤ 0x7E := by
  have hdigit : ∀ d < 16, 0x20 ≤ d.digitChar.toUpper.toNat ∧ d.digitChar.toUpper.toNat ≤ 0x7E := by
    decide
  cases h with
  | plain hp =>
    intro x hx
    rw [List.mem_singleton.mp hx]
    exact ⟨hp.1, hp.2.1⟩
  | letter _ hlow hhigh =>
    intro x hx
    rcases List.mem_cons.mp hx with rfl | hx
    · decide
    · rw [List.mem_singleton.mp hx]
      exact ⟨hlow, hhigh⟩
  | code _ =>
    intro x hx
    rcases List.mem_cons.mp hx with rfl | hx
    · decide
    · rcases List.mem_cons.mp hx with rfl | hx
      · decide
      · obtain ⟨d, hd, rfl⟩ := digit_of_mem_unitDigits hx
        exact hdigit d hd

theorem Pieces.ascii (h : Pieces spaceless cs) : ∀ x ∈ cs, 0x20 ≤ x.toNat ∧ x.toNat ≤ 0x7E := by
  induction h with
  | nil => simp
  | cons hpiece _ _ ih =>
    intro x hx
    rcases List.mem_append.mp hx with hx | hx
    · exact hpiece.ascii x hx
    · exact ih x hx

/-! ### The name of an entry -/

/-- A character that neither escapes nor ends the name is part of it. -/
theorem splitEntry_cons (hslash : c ≠ '\\') (heq : c ≠ '=') (hcolon : c ≠ ':')
    (hblank : isBlank c = false) (key rest : List Char) :
    splitEntry key (c :: rest) = splitEntry (c :: key) rest := by
  rw [splitEntry.eq_def]
  split
  · next h => simp at h
  · next h => exact absurd (List.cons.inj h).1 hslash
  · next h => exact absurd (List.cons.inj h).1 hslash
  · next d rest' _ _ h =>
    obtain ⟨rfl, rfl⟩ := List.cons.inj h
    rw [if_neg (by simp [heq, hcolon]), if_neg (by simp [hblank])]

/-- Digits are part of the name. -/
theorem splitEntry_append_digits {ds : List Char}
    (hds : ∀ x ∈ ds, ∃ d < 16, x = d.digitChar.toUpper) (key rest : List Char) :
    splitEntry key (ds ++ rest) = splitEntry (ds.reverse ++ key) rest := by
  have hdigit : ∀ d < 16, d.digitChar.toUpper ≠ '\\' ∧ d.digitChar.toUpper ≠ '=' ∧
      d.digitChar.toUpper ≠ ':' ∧ isBlank d.digitChar.toUpper = false := by decide
  induction ds generalizing key with
  | nil => rfl
  | cons x ds ih =>
    obtain ⟨d, hd, rfl⟩ := hds x List.mem_cons_self
    obtain ⟨hslash, heq, hcolon, hblank⟩ := hdigit d hd
    rw [List.cons_append, splitEntry_cons hslash heq hcolon hblank,
      ih fun y hy => hds y (List.mem_cons_of_mem _ hy), List.reverse_cons, List.append_assoc,
      List.singleton_append]

/-- A piece that is no space is part of the name. -/
theorem Piece.splitEntry_append (h : Piece block) (hspace : block ≠ [' '])
    (key rest : List Char) :
    splitEntry key (block ++ rest) = splitEntry (block.reverse ++ key) rest := by
  cases h with
  | plain hp =>
    have hblank := hp.isBlank_eq_false fun h => hspace (by rw [h])
    obtain ⟨-, -, hslash, heq, hcolon, -⟩ := hp
    exact splitEntry_cons hslash heq hcolon hblank key rest
  | letter _ _ _ => rfl
  | @code n _ =>
    show splitEntry ('u' :: '\\' :: key) (unitDigits n ++ rest) = _
    rw [splitEntry_append_digits fun x hx => digit_of_mem_unitDigits hx]
    simp

theorem Pieces.splitEntry_append (h : Pieces true cs) (key rest : List Char) :
    splitEntry key (cs ++ rest) = splitEntry (cs.reverse ++ key) rest := by
  induction h generalizing key with
  | nil => rfl
  | cons hpiece hspace _ ih =>
    rw [List.append_assoc, hpiece.splitEntry_append (hspace rfl), ih, List.reverse_append,
      List.append_assoc]

/-! ### The line of an entry -/

theorem Piece.head (h : Piece block) (hspace : block ≠ [' ']) :
    ∃ x xs, block = x :: xs ∧ isBlank x = false ∧ x ≠ '#' ∧ x ≠ '!' := by
  cases h with
  | @plain c hp =>
    have hblank := hp.isBlank_eq_false fun h => hspace (by rw [h])
    obtain ⟨-, -, -, -, -, hhash, hbang⟩ := hp
    exact ⟨c, [], rfl, hblank, hhash, hbang⟩
  | @letter x _ _ _ => exact ⟨'\\', [x], rfl, by decide, by decide, by decide⟩
  | code _ => exact ⟨'\\', _, rfl, by decide, by decide, by decide⟩

/-- A text without spaces starts with neither a blank nor a comment sign. -/
theorem Pieces.head (h : Pieces true cs) :
    cs = [] ∨ ∃ x xs, cs = x :: xs ∧ isBlank x = false ∧ x ≠ '#' ∧ x ≠ '!' := by
  cases h with
  | nil => exact .inl rfl
  | @cons piece rest hpiece hspace _ =>
    obtain ⟨x, xs, rfl, hx⟩ := hpiece.head (hspace rfl)
    exact .inr ⟨x, xs ++ rest, rfl, hx⟩

/-- A piece ends an even number of backslashes. -/
theorem Piece.continues_append (h : Piece block) (hcs : continues cs = false) :
    continues (cs ++ block) = false := by
  have hend : ∀ (xs : List Char) (x : Char), x ≠ '\\' → continues (xs ++ [x]) = false := by
    intro xs x hx
    simp [continues, hx]
  have htwo : continues (cs ++ ['\\', '\\']) = continues cs := by
    rw [Bool.eq_iff_iff]
    simp [continues]
    omega
  cases h with
  | plain hp => exact hend cs _ hp.2.2.1
  | @letter x _ _ _ =>
    by_cases hx : x = '\\'
    · rw [hx, htwo, hcs]
    · have := hend (cs ++ ['\\']) x hx
      rwa [List.append_assoc] at this
  | @code n hn =>
    have hlen := length_unitDigits hn
    -- the last digit of a code is no backslash
    obtain ⟨ds, d, hd⟩ : ∃ ds d, unitDigits n = ds ++ [d] := by
      rcases List.eq_nil_or_concat (unitDigits n) with h | ⟨ds, d, h⟩
      · rw [h] at hlen
        simp at hlen
      · exact ⟨ds, d, h.trans List.concat_eq_append⟩
    have hne : d ≠ '\\' := by
      have hall : ∀ d < 16, d.digitChar.toUpper ≠ '\\' := by decide
      obtain ⟨e, he, rfl⟩ := digit_of_mem_unitDigits (c := d) (n := n) (by simp [hd])
      exact hall e he
    rw [hd]
    have := hend (cs ++ '\\' :: 'u' :: ds) d hne
    rwa [List.append_assoc] at this

theorem Pieces.continues_append (h : Pieces spaceless cs) (hds : continues ds = false) :
    continues (ds ++ cs) = false := by
  induction h generalizing ds with
  | nil => rwa [List.append_nil]
  | cons hpiece _ _ ih =>
    rw [← List.append_assoc]
    exact ih (hpiece.continues_append hds)

/-- The line of an entry, without its line feed. -/
def entryLine (e : String × String) : List Char := escapeKey e.1 ++ '=' :: escapeValue e.2

theorem render_toList (p : Properties) :
    (render p).toList = (p.entries.map entryLine).flatMap (· ++ ['\n']) := by
  rw [render, String.toList_ofList, List.flatMap_map]
  refine congrArg (List.flatMap · _) (funext fun e => ?_)
  rw [renderEntry, entryLine, List.append_assoc]
  rfl

/-- No blank is dropped in front of a value. -/
theorem dropWhile_escapeValue (s : String) :
    (escapeValue s).dropWhile isBlank = escapeValue s := by
  rw [escapeValue]
  cases s.toList with
  | nil => rfl
  | cons c cs =>
    rcases (pieces_escapeChar true c).head with hnil | ⟨x, xs, hx, hblank, -⟩
    · exact absurd hnil (escapeChar_ne_nil c)
    · simp only [hx]
      rw [List.cons_append, List.dropWhile_cons, hblank]
      rfl

theorem ascii_entryLine (e : String × String) :
    ∀ x ∈ entryLine e, 0x20 ≤ x.toNat ∧ x.toNat ≤ 0x7E := by
  intro x hx
  rw [entryLine, List.mem_append, List.mem_cons] at hx
  rcases hx with hx | rfl | hx
  · exact (pieces_escapeKey e.1).ascii x hx
  · decide
  · exact (pieces_escapeValue e.2).ascii x hx

/-- The line of an entry starts with neither a blank nor a comment sign. -/
theorem head_entryLine (e : String × String) :
    ∃ x xs, entryLine e = x :: xs ∧ isBlank x = false ∧ x ≠ '#' ∧ x ≠ '!' := by
  rw [entryLine]
  rcases (pieces_escapeKey e.1).head with hnil | ⟨x, xs, hx, hrest⟩
  · rw [hnil]
    exact ⟨'=', escapeValue e.2, rfl, by decide, by decide, by decide⟩
  · rw [hx]
    exact ⟨x, _, rfl, hrest⟩

theorem continues_entryLine (e : String × String) : continues (entryLine e) = false := by
  have hsep : continues (escapeKey e.1 ++ ['=']) = false := by
    simp [continues]
  rw [entryLine, ← List.singleton_append, ← List.append_assoc]
  exact (pieces_escapeValue e.2).continues_append hsep

/-- The lines of entries are the entries of the text. -/
theorem logicalLines_map_entryLine (entries : List (String × String)) :
    logicalLines [] (entries.map entryLine) = entries.map entryLine := by
  induction entries with
  | nil => rfl
  | cons e entries ih =>
    obtain ⟨x, xs, hx, hblank, hhash, hbang⟩ := head_entryLine e
    have hdrop : (entryLine e).dropWhile isBlank = entryLine e := by
      rw [hx, List.dropWhile_cons, hblank]
      rfl
    have hskip : isSkipped (entryLine e) = false := by
      rw [hx, isSkipped]
      simp [hhash, hbang]
    rw [List.map_cons, logicalLines]
    simp only [hdrop, hskip, continues_entryLine e]
    rw [ih]
    rfl

/-! ### Entries read again -/

/-- An entry with its name and its value escaped and read again. -/
def reread (e : String × String) : Except FormatError (String × String) := do
  return (← unescape (escapeKey e.1), ← unescape (escapeValue e.2))

theorem parseEntry_entryLine (e : String × String) : parseEntry (entryLine e) = reread e := by
  have hsplit : splitEntry [] (entryLine e) = (escapeKey e.1, escapeValue e.2) := by
    rw [entryLine, (pieces_escapeKey e.1).splitEntry_append, List.append_nil, splitEntry.eq_def]
    simp [dropWhile_escapeValue]
  rw [parseEntry, hsplit]
  rfl

theorem ascii_render (p : Properties) : ∀ x ∈ (render p).toList, x.toNat < 128 := by
  intro x hx
  rw [render_toList, List.mem_flatMap] at hx
  obtain ⟨l, hl, hx⟩ := hx
  obtain ⟨e, -, rfl⟩ := List.mem_map.mp hl
  rcases List.mem_append.mp hx with hx | hx
  · have := ascii_entryLine e x hx
    omega
  · rw [List.mem_singleton.mp hx]
    decide

/-- Every entry takes a line. -/
theorem encode_render_ne_nil {p : Properties} (h : p.entries ≠ []) :
    Utf8.encode (render p) ≠ [] := by
  intro hnil
  have hchars := Utf8.map_encode_ascii (ascii_render p)
  rw [hnil, render_toList, List.map_nil, eq_comm, List.flatMap_eq_nil_iff] at hchars
  cases hentries : p.entries with
  | nil => exact h hentries
  | cons e _ =>
    have := hchars (entryLine e) (by simp [hentries])
    simp at this

/-- The text of properties is read entry by entry. -/
theorem parse_render_eq_mapM (p : Properties) :
    parse (Utf8.encode (render p)) = (p.entries.mapM reread).map Properties.ofList := by
  have hline : ∀ l ∈ p.entries.map entryLine, ∀ x ∈ l, 0x20 ≤ x.toNat ∧ x.toNat ≤ 0x7E := by
    intro l hl
    obtain ⟨e, -, rfl⟩ := List.mem_map.mp hl
    exact ascii_entryLine e
  -- control characters are escaped, so no line is cut in two
  have hcut : cutLines '\n' '\r' (render p).toList = p.entries.map entryLine := by
    rw [render_toList]
    refine cutLines_flatMap (fun l hl hmem => ?_) (fun l hl hlast => ?_)
    · exact absurd (hline l hl _ hmem).1 (by decide)
    · exact absurd (hline l hl _ (List.mem_of_getLast? hlast)).1 (by decide)
  rw [parse]
  simp only [Utf8.map_encode_ascii (ascii_render p), hcut, logicalLines_map_entryLine,
    List.mapM_map, Function.comp_def, parseEntry_entryLine]
  rfl

/-! ### The Basic Multilingual Plane -/

/-- The characters of an entry have codes below those of surrogates and pairs. -/
def Basic (e : String × String) : Prop :=
  (∀ c ∈ e.1.toList, c.toNat < 0x10000) ∧ ∀ c ∈ e.2.toList, c.toNat < 0x10000

/-! ### Blocks in binary streams -/

/-- A text with its length in front is parsed, and what follows it is left. -/
theorem readBlock_text {text : List UInt8} (hpos : text ≠ []) (hlt : text.length < 0x8000)
    (rest : List UInt8) :
    readBlock (Stream.bigEndian 2 text.length ++ text ++ rest) =
      (parse text).map fun p => (some p, rest) := by
  have hlength : text.length ≠ 0 := by
    rwa [Ne, List.length_eq_zero_iff]
  have hn : (Int16.ofNat text.length).toInt = text.length := by
    rw [Int16.toInt_ofNat', show Int16.size = 2 ^ 16 from rfl]
    exact Int.bmod_eq_of_le (by omega) (by omega)
  rw [readBlock, List.append_assoc, Reader.bind_apply, Reader.reads_int16 hlt (text ++ rest)]
  show (if (Int16.ofNat text.length).toInt < 0 then _ else if _ then _ else _ : Reader _) _ = _
  simp only [hn]
  rw [if_neg (by omega), if_neg (by omega), Int.toNat_natCast, Reader.bind_apply,
    Reader.reads_take "property block" rfl rest]
  show (Reader.ofExcept (parse text) >>= fun p => pure (some p) : Reader (Option Properties))
    rest = _
  cases parse text <;> rfl

end PropertyText

end FeatureTree
