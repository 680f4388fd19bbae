/-
Trees that are read from records.

The lines of a tree come as a text, with line feeds between them, or as records, with their
lengths in front.  As long as no line is passed over both framings give the lines the same
numbers.  A carriage return at the end of a line belongs to the line end in a text and to
the line in a record; but it is blank, and the blanks around a line do not matter.

* `Wagon.packLines` — the records of some lines, behind a header, a count and a name;
* `Wagon.Assembly.addLines` — lines one after the other, with their numbers;
* `Wagon.Assembly.foldlM_addEncodedLine` — what the lines of a text come to;
* `Wagon.addRecords_eq` — what records come to;
* `Wagon.ofPacked_eq_ofText` — the same.
-/
import FeatureTree.Proofs.Format.Wagon.RoundTrip
import FeatureTree.Proofs.Stream.Reads

namespace FeatureTree

open Text FeatureTree.Stream

namespace Wagon

/-! ### Records -/

/-- The lines of a tree as records, behind the header, a declared count and a name. -/
def packLines (declared : Int32) (name : String) (lines : List String) : Encoded :=
  concat (.ok (Header.bytes .carts) :: .ok (int32Bytes declared) :: stringBytes name ::
    lines.map recordBytes)

variable {s : Schema} {o : Options} {a : Assembly} {line : String} {lines : List String}
  {bytes : List UInt8}

theorem recordBytes_eq_ok_iff :
    recordBytes line = .ok bytes ↔ (Utf16.encode line).length < 2 ^ 31 ∧
      bytes = bigEndian 4 (Utf16.encode line).length ++ charBytes line := by
  rw [recordBytes, bind_eq_ok_iff]
  simp only [lengthBytes_eq_ok_iff]
  constructor
  · rintro ⟨length, ⟨hlt, rfl⟩, hbytes⟩
    exact ⟨hlt, (Except.ok.inj hbytes).symm⟩
  · rintro ⟨hlt, rfl⟩
    exact ⟨_, ⟨hlt, rfl⟩, rfl⟩

/-- A record takes some bytes. -/
theorem length_le_of_records (h : concat (lines.map recordBytes) = .ok bytes) :
    lines.length ≤ bytes.length := by
  induction lines generalizing bytes with
  | nil => exact Nat.zero_le _
  | cons line lines ih =>
    obtain ⟨xs, ys, hx, hy, rfl⟩ := concat_cons_eq_ok_iff.mp h
    obtain ⟨-, rfl⟩ := recordBytes_eq_ok_iff.mp hx
    have := ih hy
    rw [List.length_append, List.length_append, length_bigEndian, List.length_cons]
    omega

/-! ### Numbered lines -/

namespace Assembly

/-- The state after some lines, the first of which has the given number. -/
def addLines (a : Assembly) (number : Nat) (lines : List String) : Except FormatError Assembly :=
  (lines.zipIdx number).foldlM (fun a line => a.addLine line.2 line.1) a

theorem addLines_cons (number : Nat) :
    a.addLines number (line :: lines) =
      a.addLine number line >>= fun a => a.addLines (number + 1) lines := by
  rw [addLines, List.zipIdx_cons, List.foldlM_cons]
  rfl

/-- The blanks around a line do not matter. -/
theorem addLine_congr {line' : String}
    (h : trimBy isBlank line'.toList = trimBy isBlank line.toList)
    (number : Nat) : a.addLine number line' = a.addLine number line := by
  rw [addLine, addLine, h]

/-- The encoded lines of a text, none of which is passed over, count as lines do from which
they differ by blanks. -/
theorem foldlM_addEncodedLine {lines' : List String}
    (h : List.Forall₂ (fun line line' => isSkipped line' = false ∧
      trimBy isBlank line'.toList = trimBy isBlank line.toList) lines lines') (number : Nat) :
    ((lines'.map Utf8.encode).zipIdx number).foldlM addEncodedLine a =
      a.addLines number lines := by
  induction h generalizing a number with
  | nil => rfl
  | cons hline _ ih =>
    rw [List.map_cons, List.zipIdx_cons, List.foldlM_cons, addLines_cons,
      addEncodedLine_encode hline.1, addLine_congr hline.2]
    exact congrArg _ (funext fun a => ih (number + 1))

end Assembly

/-! ### The two framings -/

/-- A line that is not passed over is none without a carriage return at its end. -/
theorem isSkipped_dropReturn (h : isSkipped line = false) :
    isSkipped (String.ofList (dropReturn '\r' line.toList)) = false := by
  rcases dropReturn_cases line.toList with hkeep | hdrop
  · rwa [hkeep, String.ofList_toList]
  · rw [isSkipped, Bool.or_eq_false_iff, allBlank, hdrop] at h
    rw [isSkipped, Bool.or_eq_false_iff, allBlank, String.toList_ofList]
    refine ⟨?_, startsWith_eq_false fun rest hrest => ?_⟩
    · have hblank := h.1
      rw [List.all_append, List.all_eq_true.mpr isBlank_return, Bool.and_true] at hblank
      exact hblank
    · have hcomment := startsWith_iff.mpr ⟨rest ++ ['\r'], by rw [← List.append_assoc, ← hrest]⟩
      rw [h.2] at hcomment
      exact absurd hcomment (by decide)

theorem ne_nil_of_not_isSkipped (h : isSkipped line = false) : line.toList ≠ [] := by
  intro hnil
  rw [isSkipped, allBlank, hnil] at h
  simp at h

/-- Of a text with line feeds between its lines each line is read, with its number. -/
theorem ofText_intercalate (hlf : ∀ l ∈ lines, '\n' ∉ l.toList)
    (hskip : ∀ l ∈ lines, isSkipped l = false) :
    ofText s o (Utf8.encode ("\n".intercalate lines)) =
      Assembly.start s o >>= fun a => a.addLines 1 lines >>= Assembly.finish := by
  have hcut : List.Forall₂ (fun l line => line = l ∨ line = dropReturn '\r' l)
      (lines.map String.toList)
      (cutLines '\n' '\r' (['\n'].intercalate (lines.map String.toList))) :=
    cutLines_intercalate (by simpa using hlf)
      (by simpa using fun l hl => ne_nil_of_not_isSkipped (hskip l hl))
  have hlines : List.Forall₂ (fun line line' => isSkipped line' = false ∧
      trimBy isBlank line'.toList = trimBy isBlank line.toList) lines
      (Text.lines ("\n".intercalate lines)) := by
    rw [Text.lines, String.toList_intercalate, List.forall₂_map_right_iff]
    refine ((List.forall₂_and_left lines _).mpr ⟨hskip, List.forall₂_map_left_iff.mp hcut⟩).imp ?_
    rintro line cs ⟨hline, rfl | rfl⟩
    · rw [String.ofList_toList]
      exact ⟨hline, rfl⟩
    · exact ⟨isSkipped_dropReturn hline, by rw [String.toList_ofList, trimBy_dropReturn]⟩
  rw [ofText, ofLines, Utf8.byteLines_eq]
  refine congrArg _ (funext fun a => ?_)
  rw [Assembly.foldlM_addEncodedLine hlines]

/-- One record is read, and added with its number. -/
theorem addRecords_cons (h : recordBytes line = .ok bytes) (fuel number : Nat) (a : Assembly)
    (rest : List UInt8) :
    addRecords (fuel + 1) number a (bytes ++ rest) =
      a.addLine number line >>= fun a => addRecords fuel (number + 1) a rest := by
  obtain ⟨hlt, rfl⟩ := recordBytes_eq_ok_iff.mp h
  obtain ⟨length, hread, hlength⟩ := Reader.reads_int32_ofNat hlt
  have hne : bigEndian 4 (Utf16.encode line).length ≠ [] :=
    List.ne_nil_of_length_pos (by rw [length_bigEndian]; decide)
  have hchars : (Reader.chars length.toInt.toNat).Reads (charBytes line) line := by
    rw [hlength, Int.toNat_natCast]
    exact Reader.reads_chars line
  rw [addRecords, List.append_assoc, (hread.int32? hne).bind_apply]
  simp only []
  rw [if_neg (by omega), hchars.bind_apply]
  cases a.addLine number line <;> rfl

/-- Of records up to the end of the stream each is read, with its number. -/
theorem addRecords_eq (h : concat (lines.map recordBytes) = .ok bytes) {fuel : Nat}
    (hfuel : lines.length < fuel) (number : Nat) (a : Assembly) :
    addRecords fuel number a bytes = (a.addLines number lines).map (·, []) := by
  induction lines generalizing bytes fuel number a with
  | nil =>
    obtain rfl : [] = bytes := Except.ok.inj h
    obtain ⟨fuel, rfl⟩ := Nat.exists_eq_add_one.mpr hfuel
    rfl
  | cons line lines ih =>
    obtain ⟨fuel, rfl⟩ := Nat.exists_eq_add_one.mpr (Nat.zero_lt_of_lt hfuel)
    obtain ⟨xs, ys, hx, hy, rfl⟩ := concat_cons_eq_ok_iff.mp h
    rw [addRecords_cons hx, Assembly.addLines_cons]
    cases a.addLine number line with
    | error e => rfl
    | ok a => exact ih hy (Nat.lt_of_succ_lt_succ hfuel) (number + 1) a

theorem ofPacked_packLines {declared : Int32} {name : String}
    (h : packLines declared name lines = .ok bytes) :
    ofPacked s o bytes =
      Assembly.start s o >>= fun a => a.addLines 1 lines >>= Assembly.finish := by
  obtain ⟨header, _, hheader, hbody, rfl⟩ := concat_cons_eq_ok_iff.mp h
  obtain ⟨count, _, hcount, hrest, rfl⟩ := concat_cons_eq_ok_iff.mp hbody
  obtain ⟨nameBytes, records, hname, hrecords, rfl⟩ := concat_cons_eq_ok_iff.mp hrest
  obtain rfl := Except.ok.inj hheader
  obtain rfl := Except.ok.inj hcount
  have hlength := length_le_of_records hrecords
  rw [ofPacked, readPacked, (Reader.reads_header .carts).bind_apply,
    (Reader.reads_int32 declared).bind_apply, (Reader.reads_string hname).bind_apply]
  cases Assembly.start s o with
  | error e => rfl
  | ok a =>
    show ((addRecords _ 1 a >>= fun a => Reader.ofExcept a.finish) records).map (·.1) = _
    rw [Reader.bind_apply, addRecords_eq hrecords (by simp only [List.length_append]; omega)]
    show _ = a.addLines 1 lines >>= Assembly.finish
    cases a.addLines 1 lines with
    | error e => rfl
    | ok a =>
      show (Reader.ofExcept a.finish []).map (·.1) = a.finish
      cases a.finish <;> rfl

/-- The bytes of a tree are its lines as records. -/
theorem exists_packLines {t : Cart} {kind : Option WagonKind} {name : String}
    (hlines : Wagon.lines t kind = .ok lines) (h : toPacked t kind name = .ok bytes) :
    ∃ declared, packLines declared name lines = .ok bytes := by
  rw [toPacked, hlines] at h
  have h := mapError_eq_ok_iff.mp h
  obtain ⟨header, _, hheader, hbody, rfl⟩ := concat_cons_eq_ok_iff.mp h
  obtain ⟨count, rest, hcount, hrest, rfl⟩ := concat_cons_eq_ok_iff.mp hbody
  obtain ⟨hlt, rfl⟩ := lengthBytes_eq_ok_iff.mp hcount
  generalize (t.arena.preorder t.arena.root).nodes.length = n at hlt
  have hword : int32Bytes (UInt32.ofNat n).toInt32 = bigEndian 4 n := by
    have hn : (UInt32.ofNat n).toNat = n := by
      rw [UInt32.toNat_ofNat']
      exact Nat.mod_eq_of_lt (by omega)
    rw [int32Bytes, UInt32.toUInt32_toInt32, uint32Bytes, hn]
  exact ⟨(UInt32.ofNat n).toInt32, concat_cons_eq_ok_iff.mpr ⟨_, _, hheader,
    concat_cons_eq_ok_iff.mpr ⟨_, _, rfl, hrest, rfl⟩, by rw [hword]⟩⟩

/-- The two framings of a tree's lines are read alike: as a text with line feeds between
them, and as records behind any header, count and name that can be written.  Both give the
same tree, or the same error. -/
theorem ofPacked_eq_ofText (s : Schema) (o : Options) (declared : Int32) (name : String)
    (lines : List String) {packed : List UInt8}
    (hpacked : packLines declared name lines = .ok packed) (hlf : ∀ l ∈ lines, '\n' ∉ l.toList)
    (hskip : ∀ l ∈ lines, isSkipped l = false) :
    ofPacked s o packed = ofText s o (Utf8.encode ("\n".intercalate lines)) := by
  rw [ofPacked_packLines hpacked, ofText_intercalate hlf hskip]

/-- Three lines of a tree, the first with a carriage return at its end and the last with
another blank. -/
def unevenLines : List String := ["((phone is a)\r", "((((1 0)) 0))", "((((2 0)) 0)))\t"]

/-- The lines make a tree either way; the name takes a pair of code units. -/
theorem ofPacked_eq_ofText_sample :
    ∃ packed t, packLines 3 "🌳" unevenLines = .ok packed ∧
      (∀ l ∈ unevenLines, '\n' ∉ l.toList) ∧ (∀ l ∈ unevenLines, isSkipped l = false) ∧
      ofPacked Sample.schema {} packed = .ok t ∧
      ofText Sample.schema {} (Utf8.encode ("\n".intercalate unevenLines)) = .ok t := by
  have hread : (packLines 3 "🌳" unevenLines).toOption.any
      (fun packed => (ofPacked Sample.schema {} packed).toOption.isSome) = true := by
    decide +kernel
  have hlf : ∀ l ∈ unevenLines, '\n' ∉ l.toList := by decide +kernel
  have hskip : ∀ l ∈ unevenLines, isSkipped l = false := by decide +kernel
  cases hpacked : packLines 3 "🌳" unevenLines with
  | error e => simp [hpacked, Except.toOption] at hread
  | ok packed =>
    have hframings := ofPacked_eq_ofText Sample.schema {} 3 "🌳" unevenLines hpacked hlf hskip
    cases ht : ofPacked Sample.schema {} packed with
    | error e => simp [hpacked, ht, Except.toOption] at hread
    | ok t => exact ⟨packed, t, rfl, hlf, hskip, ht, hframings ▸ ht⟩

end Wagon

end FeatureTree
