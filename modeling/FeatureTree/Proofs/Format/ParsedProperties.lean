/-
Properties that were read can be written and read again.

A text of properties is a sequence of bytes, and an escape stands for one character of four
hexadecimal digits, so whatever notation a text uses, no character outside the Basic
Multilingual Plane comes out of it.  The rest of a text is only cut up: lines, entries,
names and values hold no other characters than those of the text.

* `PropertyText.escapedChar?_lt`, `PropertyText.unescapeLoop_lt` — what escapes stand for;
* `PropertyText.mem_logicalLines`, `PropertyText.mem_splitEntry` — the parts of a text;
* `PropertyText.basic_of_parse` — the characters of properties that were read;
* `PropertyText.parse_render_of_parse` — they are read again as they are.
-/
import FeatureTree.Proofs.Format.PropertyBlock

namespace FeatureTree

/-- Only what was put in is found among sorted entries. -/
theorem Properties.mem_of_mem_ofList {es : List (String × String)} {e : String × String}
    (h : e ∈ (ofList es).entries) : e ∈ es := by
  have hloop : ∀ (es : List (String × String)) (p : Properties),
      e ∈ (es.foldl (fun p e => p.insert e.1 e.2) p).entries → e ∈ p.entries ∨ e ∈ es := by
    intro es
    induction es with
    | nil => exact fun p h => .inl h
    | cons d es ih =>
      intro p h
      rcases ih _ h with h | h
      · rcases mem_insertEntry h with rfl | h
        · exact .inr List.mem_cons_self
        · exact .inl h
      · exact .inr (List.mem_cons_of_mem _ h)
  rcases hloop es empty h with h | h
  · simp [empty] at h
  · exact h

namespace PropertyText

open Text

variable {c : Char} {cs out result line : List Char} {skip : Nat}

/-! ### Escapes -/

theorem hexValue?_lt {d : Nat} (h : Numeral.hexValue? c = some d) : d < 16 := by
  have hnine : '9'.toNat = 57 := rfl
  have hf : 'f'.toNat = 102 := rfl
  have hF : 'F'.toNat = 70 := rfl
  rw [Numeral.hexValue?] at h
  split at h
  · next hc =>
    have : c.toNat ≤ '9'.toNat := hc.2
    obtain rfl := Option.some_inj.mp h
    show c.toNat - 48 < 16
    omega
  · split at h
    · next hc =>
      have : c.toNat ≤ 'f'.toNat := hc.2
      obtain rfl := Option.some_inj.mp h
      show c.toNat - 97 + 10 < 16
      omega
    · split at h
      · next hc =>
        have : c.toNat ≤ 'F'.toNat := hc.2
        obtain rfl := Option.some_inj.mp h
        show c.toNat - 65 + 10 < 16
        omega
      · cases h

theorem hexFold_none (cs : List Char) : hexFold none cs = none := by
  induction cs with
  | nil => rfl
  | cons c cs ih => exact ih

/-- Every digit multiplies the bound by sixteen. -/
theorem hexFold_lt {k n : Nat} (h : hexFold (some k) cs = some n) :
    n < (k + 1) * 16 ^ cs.length := by
  induction cs generalizing k with
  | nil =>
    obtain rfl := Option.some_inj.mp h
    simp
  | cons c cs ih =>
    change hexFold ((Numeral.hexValue? c).map (16 * k + ·)) cs = some n at h
    cases hc : Numeral.hexValue? c with
    | none => simp [hc, hexFold_none] at h
    | some d =>
      rw [hc] at h
      have hd := hexValue?_lt hc
      calc n < (16 * k + d + 1) * 16 ^ cs.length := ih h
        _ ≤ ((k + 1) * 16) * 16 ^ cs.length := Nat.mul_le_mul_right _ (by omega)
        _ = (k + 1) * 16 ^ (c :: cs).length := by
          rw [List.length_cons, Nat.pow_succ', Nat.mul_assoc]

theorem hex?_lt {n : Nat} (h : Numeral.hex? cs = some n) : n < 16 ^ cs.length := by
  -- a plus sign takes the place of a digit
  have hbody : ∀ ds : List Char, hexFold (some 0) ds = some n → ds.length ≤ cs.length →
      n < 16 ^ cs.length := by
    intro ds hds hle
    have hlt := hexFold_lt hds
    rw [Nat.zero_add, Nat.one_mul] at hlt
    exact hlt.trans_le (Nat.pow_le_pow_right (by decide) hle)
  simp only [Numeral.hex?] at h
  split at h
  · next rest =>
    split at h
    · cases h
    · exact hbody rest h (by simp)
  · split at h
    · cases h
    · exact hbody cs h (Nat.le_refl _)

/-- Four digits reach no further than the Basic Multilingual Plane. -/
theorem escapedChar?_lt (h : escapedChar? cs = some c) : c.toNat < 0x10000 := by
  rw [escapedChar?] at h
  by_cases hlength : cs.length = 4
  · rw [if_neg (not_not.mpr hlength)] at h
    obtain ⟨n, hn, hc⟩ := Option.bind_eq_some_iff.mp h
    have hlt := hex?_lt hn
    rw [hlength] at hlt
    by_cases hvalid : n.isValidChar
    · rw [dif_pos hvalid] at hc
      obtain rfl := Option.some_inj.mp hc
      exact hlt
    · rw [dif_neg hvalid] at hc
      cases hc
  · rw [if_pos hlength] at h
    cases h

/-- Escapes are replaced by characters of the Basic Multilingual Plane, and all others
stay. -/
theorem unescapeLoop_lt (h : unescapeLoop skip cs out = .ok result)
    (hcs : ∀ c ∈ cs, c.toNat < 0x10000) (hout : ∀ c ∈ out, c.toNat < 0x10000) :
    ∀ c ∈ result, c.toNat < 0x10000 := by
  have hend : ∀ {ds : List Char}, (∀ c ∈ ds, c.toNat < 0x10000) →
      (Except.ok ds.reverse : Except FormatError (List Char)) = .ok result →
      ∀ c ∈ result, c.toNat < 0x10000 := by
    intro ds hds h c hc
    rw [← Except.ok.inj h, List.mem_reverse] at hc
    exact hds c hc
  fun_induction unescapeLoop skip cs out with
  | case1 => exact hend hout h
  | case2 skip c cs out ih => exact ih h (List.forall_mem_cons.mp hcs).2 hout
  | case3 c cs out _ ih =>
    obtain ⟨hc, hcs⟩ := List.forall_mem_cons.mp hcs
    exact ih h hcs (List.forall_mem_cons.mpr ⟨hc, hout⟩)
  | case4 => exact hend hout h
  | case9 c out _ rest e he ih =>
    have hrest := (List.forall_mem_cons.mp (List.forall_mem_cons.mp hcs).2).2
    exact ih h hrest (List.forall_mem_cons.mpr ⟨escapedChar?_lt he, hout⟩)
  | case10 => cases h
  | case11 c out _ other rest _ _ _ _ _ ih =>
    obtain ⟨hother, hrest⟩ := List.forall_mem_cons.mp (List.forall_mem_cons.mp hcs).2
    exact ih h hrest (List.forall_mem_cons.mpr ⟨hother, hout⟩)
  | _ c out _ rest ih =>
    -- a letter that stands for a control character
    have hrest := (List.forall_mem_cons.mp (List.forall_mem_cons.mp hcs).2).2
    exact ih h hrest (List.forall_mem_cons.mpr ⟨by decide, hout⟩)

theorem unescape_lt {s : String} (h : unescape cs = .ok s) (hcs : ∀ c ∈ cs, c.toNat < 0x10000) :
    ∀ c ∈ s.toList, c.toNat < 0x10000 := by
  obtain ⟨result, hresult, rfl⟩ := map_eq_ok_iff.mp h
  rw [String.toList_ofList]
  exact unescapeLoop_lt hresult hcs (by simp)

/-! ### Parts of a text -/

theorem mem_afterBlank (h : c ∈ afterBlank cs) : c ∈ cs := by
  have hdrop : ∀ ds, cs.dropWhile isBlank = ds → c ∈ ds → c ∈ cs := fun ds hds hc =>
    (List.dropWhile_sublist _).subset (hds ▸ hc)
  rw [afterBlank] at h
  split at h
  · next rest heq => exact hdrop _ heq (List.mem_cons_of_mem _ h)
  · next rest heq => exact hdrop _ heq (List.mem_cons_of_mem _ h)
  · exact hdrop _ rfl h

/-- The name and the value of an entry hold characters of the entry. -/
theorem mem_splitEntry (key cs : List Char) :
    (∀ c ∈ (splitEntry key cs).1, c ∈ key ∨ c ∈ cs) ∧ ∀ c ∈ (splitEntry key cs).2, c ∈ cs := by
  fun_induction splitEntry key cs with
  | case1 key => simp
  | case2 key =>
    refine ⟨fun c hc => ?_, by simp⟩
    rw [List.mem_reverse, List.mem_cons] at hc
    exact hc.elim (fun h => .inr (by simp [h])) .inl
  | case3 key c rest ih =>
    refine ⟨fun x hx => ?_, fun x hx => ?_⟩
    · rcases ih.1 x hx with hx | hx
      · simp only [List.mem_cons] at hx ⊢
        tauto
      · exact .inr (by simp [hx])
    · exact List.mem_cons_of_mem _ (List.mem_cons_of_mem _ (ih.2 x hx))
  | case4 key c rest _ _ _ =>
    refine ⟨fun x hx => .inl (List.mem_reverse.mp hx), fun x hx => ?_⟩
    exact List.mem_cons_of_mem _ ((List.dropWhile_sublist _).subset hx)
  | case5 key c rest _ _ _ _ =>
    refine ⟨fun x hx => .inl (List.mem_reverse.mp hx), fun x hx => ?_⟩
    exact List.mem_cons_of_mem _ (mem_afterBlank ((List.dropWhile_sublist _).subset hx))
  | case6 key c rest _ _ _ _ ih =>
    refine ⟨fun x hx => ?_, fun x hx => List.mem_cons_of_mem _ (ih.2 x hx)⟩
    rcases ih.1 x hx with hx | hx
    · simp only [List.mem_cons] at hx ⊢
      tauto
    · exact .inr (List.mem_cons_of_mem _ hx)

/-- The entries of a text hold characters of its lines. -/
theorem mem_logicalLines {pending : List Char} {lines : List (List Char)}
    (hline : line ∈ logicalLines pending lines) (hc : c ∈ line) :
    c ∈ pending ∨ ∃ raw ∈ lines, c ∈ raw := by
  induction lines generalizing pending with
  | nil =>
    rw [logicalLines] at hline
    split at hline
    · simp at hline
    · exact .inl (List.mem_singleton.mp hline ▸ hc)
  | cons raw lines ih =>
    have hrest : (c ∈ [] ∨ ∃ raw ∈ lines, c ∈ raw) → ∃ r ∈ raw :: lines, c ∈ r := by
      rintro (h | ⟨r, hr, h⟩)
      · simp at h
      · exact ⟨r, List.mem_cons_of_mem _ hr, h⟩
    have hraw : c ∈ raw.dropWhile isBlank → ∃ r ∈ raw :: lines, c ∈ r := fun h =>
      ⟨raw, List.mem_cons_self, (List.dropWhile_sublist _).subset h⟩
    rw [logicalLines] at hline
    split at hline
    · rcases ih hline with h | h
      · exact .inl h
      · exact .inr (hrest (.inr h))
    · split at hline
      · rcases ih hline with h | h
        · rcases List.mem_append.mp h with h | h
          · exact .inl h
          · exact .inr (hraw (List.dropLast_subset _ h))
        · exact .inr (hrest (.inr h))
      · rcases List.mem_cons.mp hline with rfl | hline
        · exact (List.mem_append.mp hc).imp_right hraw
        · exact .inr (hrest (ih hline))

/-! ### Properties that were read -/

theorem basic_of_parseEntry {e : String × String} (h : parseEntry line = .ok e)
    (hline : ∀ c ∈ line, c.toNat < 0x10000) : Basic e := by
  obtain ⟨key, hkey, h⟩ := bind_eq_ok_iff.mp h
  obtain ⟨value, hvalue, h⟩ := bind_eq_ok_iff.mp h
  obtain rfl := Except.ok.inj h
  obtain ⟨hname, hrest⟩ := mem_splitEntry [] line
  constructor
  · refine unescape_lt hkey fun c hc => hline c ?_
    exact (hname c hc).resolve_left (by simp)
  · exact unescape_lt hvalue fun c hc => hline c (hrest c hc)

theorem toNat_ofNat_byte (b : UInt8) : (Char.ofNat b.toNat).toNat < 0x10000 := by
  have := b.toNat_lt
  have hvalid : b.toNat.isValidChar := .inl (by omega)
  rw [Char.ofNat, dif_pos hvalid]
  show b.toNat < _
  omega

/-- Whatever notation a text uses, its properties lie in the Basic Multilingual Plane. -/
theorem basic_of_parse {bytes : List UInt8} {p : Properties} (h : parse bytes = .ok p) :
    ∀ e ∈ p.entries, Basic e := by
  obtain ⟨es, hes, h⟩ := bind_eq_ok_iff.mp h
  obtain rfl := Except.ok.inj h
  intro e he
  obtain ⟨line, hline, hentry⟩ := exists_mem_of_mem_mapM hes (Properties.mem_of_mem_ofList he)
  refine basic_of_parseEntry hentry fun c hc => ?_
  obtain ⟨raw, hraw, hc⟩ := (mem_logicalLines hline hc).resolve_left (by simp)
  obtain ⟨b, -, rfl⟩ := List.mem_map.mp (mem_of_mem_cutLines hraw hc)
  exact toNat_ofNat_byte b

/-- Properties that were read from a text, in whatever notation, are read again from the
text that is written for them. -/
theorem parse_render_of_parse {bytes : List UInt8} {p : Properties} (h : parse bytes = .ok p) :
    parse (Utf8.encode (render p)) = .ok p := by
  have hnone : p.entries.findSome? entryHigh? = none :=
    List.findSome?_eq_none_iff.mpr fun e he => entryHigh?_eq_none_iff.mpr (basic_of_parse h e he)
  rw [parse_render_eq, hnone]
  rfl

/-- A comment, a line that goes on, names ended by a blank, a colon and an equals sign, a
name that is written twice, an empty name, escapes, and two bytes beyond ASCII. -/
def mixedText : List UInt8 :=
  Utf8.encode "# comment\n\na=1\nb : two words\nc 3\nd\\=e=f\\u00e9\nlong=x\\\n    y\n" ++
    Utf8.encode "a=2\n =\\ \\t\\u+041\\\\\n" ++ [0xE9, 0x3A, 0x85, 0x0B]

theorem parse_render_of_parse_mixedText :
    ∃ p, parse mixedText = .ok p ∧
      p.entries = [("", " \tA\\"), ("a", "2"), ("b", "two words"), ("c", "3"), ("d=e", "fé"),
        ("long", "xy"), ("é", "")] ∧
      parse (Utf8.encode (render p)) = .ok p := by
  have hsample : (parse mixedText).toOption.map Properties.entries =
      some [("", " \tA\\"), ("a", "2"), ("b", "two words"), ("c", "3"), ("d=e", "fé"),
        ("long", "xy"), ("é", "")] := by
    decide +kernel
  obtain ⟨p, hp, hentries⟩ := Option.map_eq_some_iff.mp hsample
  have hparse := toOption_eq_some_iff.mp hp
  exact ⟨p, hparse, hentries, parse_render_of_parse hparse⟩

end PropertyText

end FeatureTree
