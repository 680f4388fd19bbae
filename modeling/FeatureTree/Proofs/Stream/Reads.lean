/-
Readers and the bytes that they take for a value.

`r.Reads bytes a` says that the reader finds the value `a` in `bytes`, whatever
follows, and leaves what follows alone.  Readers put together read what their
parts read put together.

* `Reader.bind_apply_eq_ok_iff`, `Reader.ofExcept_bind_eq_ok_iff` — what two readers give one
  after the other;
* `Reader.Reads.bind`, `Reader.Reads.indexed` — one reader after another;
* `Reader.reads_int32` and so on — the words, lengths and strings that the writers
  write, and the header;
* `Reader.strings_read_back` — which strings can be written, and that they are read back.
-/
import FeatureTree.Format.Header
import FeatureTree.Proofs.Text.ModifiedUtf8
import FeatureTree.Stream.Writer
import Mathlib.Algebra.GroupWithZero.Nat

namespace FeatureTree

open FeatureTree.Stream

/-! ### Several written values -/

theorem bind_eq_ok_iff {α β ε : Type} {e : Except ε α} {f : α → Except ε β} {b : β} :
    (e >>= f) = .ok b ↔ ∃ a, e = .ok a ∧ f a = .ok b := by
  cases e <;> simp [bind, Except.bind]

theorem map_eq_ok_iff {α β ε : Type} {f : α → β} {e : Except ε α} {b : β} :
    e.map f = .ok b ↔ ∃ a, e = .ok a ∧ f a = b := by
  cases e <;> simp [Except.map]

theorem mapError_eq_ok_iff {α ε ε' : Type} {f : ε → ε'} {e : Except ε α} {a : α} :
    e.mapError f = .ok a ↔ e = .ok a := by
  cases e <;> simp [Except.mapError]

theorem toOption_eq_some_iff {α ε : Type} {e : Except ε α} {a : α} :
    e.toOption = some a ↔ e = .ok a := by
  cases e <;> simp [Except.toOption]

/-- A test of the result is passed by a result. -/
theorem exists_of_any_toOption {α ε : Type} {e : Except ε α} {p : α → Bool}
    (h : e.toOption.any p = true) : ∃ a, e = .ok a ∧ p a = true := by
  obtain ⟨a, ha, hp⟩ := (Option.any_eq_true ..).mp h
  exact ⟨a, toOption_eq_some_iff.mp ha, hp⟩

theorem mapM_cons_eq_ok_iff {α β ε : Type} {f : α → Except ε β} {x : α} {xs : List α}
    {ys : List β} :
    (x :: xs).mapM f = .ok ys ↔ ∃ y ys', f x = .ok y ∧ xs.mapM f = .ok ys' ∧ ys = y :: ys' := by
  rw [List.mapM_cons]
  simp only [bind, Except.bind, pure, Except.pure]
  cases f x with
  | error e => simp
  | ok y =>
    cases xs.mapM f with
    | error e => simp
    | ok ys' => simp [eq_comm (a := ys)]

/-- A list that is read element by element has at every place what is read there. -/
theorem exists_getElem?_of_mapM {α β ε : Type} {f : α → Except ε β} {xs : List α} {ys : List β}
    (h : xs.mapM f = .ok ys) {i : Nat} {x : α} (hx : xs[i]? = some x) :
    ∃ y, ys[i]? = some y ∧ f x = .ok y := by
  induction xs generalizing ys i with
  | nil => simp at hx
  | cons x' xs ih =>
    obtain ⟨y, ys, hy, hys, rfl⟩ := mapM_cons_eq_ok_iff.mp h
    cases i with
    | zero =>
      obtain rfl : x' = x := by simpa using hx
      exact ⟨y, rfl, hy⟩
    | succ i => exact ih hys hx

/-- What such a list has was read from an element. -/
theorem exists_mem_of_mem_mapM {α β ε : Type} {f : α → Except ε β} {xs : List α} {ys : List β}
    (h : xs.mapM f = .ok ys) {y : β} (hy : y ∈ ys) : ∃ x ∈ xs, f x = .ok y := by
  induction xs generalizing ys with
  | nil =>
    obtain rfl := Except.ok.inj h
    simp at hy
  | cons x xs ih =>
    obtain ⟨y', ys, hy', hys, rfl⟩ := mapM_cons_eq_ok_iff.mp h
    rcases List.mem_cons.mp hy with rfl | hy
    · exact ⟨x, List.mem_cons_self, hy'⟩
    · obtain ⟨x', hx', hxy⟩ := ih hys hy
      exact ⟨x', List.mem_cons_of_mem _ hx', hxy⟩

theorem mapM_eq_ok_map {α β ε : Type} {f : α → Except ε β} {g : α → β} {xs : List α}
    (h : ∀ x ∈ xs, f x = .ok (g x)) : xs.mapM f = .ok (xs.map g) := by
  induction xs with
  | nil => rfl
  | cons x xs ih =>
    exact mapM_cons_eq_ok_iff.mpr
      ⟨g x, xs.map g, h x List.mem_cons_self, ih fun y hy => h y (List.mem_cons_of_mem _ hy), rfl⟩

namespace Stream

theorem ofBigEndian_append_singleton (bytes : List UInt8) (b : UInt8) :
    ofBigEndian (bytes ++ [b]) = ofBigEndian bytes * 256 + b.toNat := by
  simp [ofBigEndian]

theorem ofBigEndian_bigEndian (width n : Nat) :
    ofBigEndian (bigEndian width n) = n % 256 ^ width := by
  induction width generalizing n with
  | zero => simp [bigEndian, ofBigEndian, Nat.mod_one]
  | succ width ih =>
    rw [bigEndian, ofBigEndian_append_singleton, ih, Nat.pow_succ', Nat.mod_mul]
    have : (UInt8.ofNat (n % 256)).toNat = n % 256 := by simp
    omega

variable {bytes : List UInt8} {part : Encoded} {parts : List Encoded}

@[simp] theorem concat_nil : concat [] = .ok [] := rfl

theorem concat_cons_eq_ok_iff :
    concat (part :: parts) = .ok bytes ↔
      ∃ xs ys, part = .ok xs ∧ concat parts = .ok ys ∧ bytes = xs ++ ys := by
  rw [concat, concat]
  constructor
  · intro h
    cases hm : (part :: parts).mapM id with
    | error e => simp [hm, Except.map] at h
    | ok all =>
      obtain ⟨xs, rest, hx, hrest, rfl⟩ := mapM_cons_eq_ok_iff.mp hm
      obtain rfl : (xs :: rest).flatten = bytes := by simpa [hm, Except.map] using h
      exact ⟨xs, rest.flatten, hx, by rw [hrest]; rfl, rfl⟩
  · rintro ⟨xs, ys, hx, hys, rfl⟩
    cases hm : parts.mapM id with
    | error e => simp [hm, Except.map] at hys
    | ok rest =>
      obtain rfl : rest.flatten = ys := by simpa [hm, Except.map] using hys
      rw [mapM_cons_eq_ok_iff.mpr ⟨xs, rest, hx, hm, rfl⟩]
      rfl

theorem lengthBytes_eq_ok_iff {n : Nat} :
    lengthBytes n = .ok bytes ↔ n < 2 ^ 31 ∧ bytes = bigEndian 4 n := by
  rw [lengthBytes]
  split
  · next h =>
    constructor
    · intro heq
      exact ⟨h, (Except.ok.inj heq).symm⟩
    · rintro ⟨-, rfl⟩
      rfl
  · next h =>
    constructor
    · intro heq
      simp at heq
    · rintro ⟨hlt, -⟩
      exact absurd hlt h

end Stream

namespace Reader

variable {α β : Type} {r : Reader α} {f : α → Reader β} {bytes xs ys : List UInt8} {a : α} {b : β}

/-- The reader takes these bytes, and no more, for the value. -/
def Reads (r : Reader α) (bytes : List UInt8) (a : α) : Prop :=
  ∀ rest, r (bytes ++ rest) = .ok (a, rest)

/-! ### Readers put together -/

theorem bind_apply (r : Reader α) (f : α → Reader β) (bytes : List UInt8) :
    (r >>= f) bytes = r bytes >>= fun p => f p.1 p.2 := rfl

theorem bind_apply_eq_ok_iff {p : β × List UInt8} :
    (r >>= f) bytes = .ok p ↔ ∃ a rest, r bytes = .ok (a, rest) ∧ f a rest = .ok p := by
  rw [bind_apply, bind_eq_ok_iff, Prod.exists]

theorem ofExcept_apply_eq_ok_iff {e : Except FormatError α} {rest : List UInt8} :
    ofExcept e bytes = .ok (a, rest) ↔ e = .ok a ∧ bytes = rest := by
  cases e with
  | error e =>
    constructor
    · intro h
      have h : (Except.error e : Except FormatError (α × List UInt8)) = .ok (a, rest) := h
      simp at h
    · rintro ⟨h, -⟩
      simp at h
  | ok x =>
    show (Except.ok (x, bytes) : Except FormatError _) = .ok (a, rest) ↔ _
    rw [Except.ok.injEq, Except.ok.injEq, Prod.mk.injEq]

theorem ofExcept_bind_eq_ok_iff {e : Except FormatError α} {p : β × List UInt8} :
    (ofExcept e >>= f) bytes = .ok p ↔ ∃ a, e = .ok a ∧ f a bytes = .ok p := by
  rw [bind_apply_eq_ok_iff]
  constructor
  · rintro ⟨a, rest, h, hp⟩
    obtain ⟨he, rfl⟩ := ofExcept_apply_eq_ok_iff.mp h
    exact ⟨a, he, hp⟩
  · rintro ⟨a, he, hp⟩
    exact ⟨a, bytes, ofExcept_apply_eq_ok_iff.mpr ⟨he, rfl⟩, hp⟩

theorem Reads.pure (a : α) : (Pure.pure a : Reader α).Reads [] a := fun _ => rfl

/-- The reader that comes next takes what is left. -/
theorem Reads.bind_apply (hr : r.Reads xs a) (rest : List UInt8) :
    (r >>= f) (xs ++ rest) = f a rest := by
  rw [Reader.bind_apply, hr rest]
  rfl

theorem Reads.bind (hr : r.Reads xs a) (hf : (f a).Reads ys b) :
    (r >>= f).Reads (xs ++ ys) b := by
  intro rest
  rw [List.append_assoc, hr.bind_apply]
  exact hf rest

theorem Reads.bind_pure (hr : r.Reads xs a) (g : α → β) :
    (r >>= fun a => Pure.pure (g a)).Reads xs (g a) := by
  have := hr.bind (f := fun a => Pure.pure (g a)) (Reads.pure (g a))
  rwa [List.append_nil] at this

/-- A reader that takes nothing before another one. -/
theorem Reads.skip (hr : r.Reads [] a) (hf : (f a).Reads ys b) : (r >>= f).Reads ys b :=
  hr.bind hf

/-- A reader that takes nothing after another one. -/
theorem Reads.last (hr : r.Reads xs a) (hf : (f a).Reads [] b) : (r >>= f).Reads xs b := by
  have := hr.bind hf
  rwa [List.append_nil] at this

theorem reads_ofExcept {e : Except FormatError α} (h : e = .ok a) : (ofExcept e).Reads [] a := by
  rw [h]
  exact Reads.pure a

theorem indexedLoop_succ (r : Nat → Reader α) (index n : Nat) (got : List α) :
    indexedLoop r index (n + 1) got =
      r index >>= fun a => indexedLoop r (index + 1) n (a :: got) := by
  funext bytes
  rw [bind_apply, indexedLoop]
  beta_reduce
  cases r index bytes <;> rfl

theorem Reads.indexedLoop {β : Type} {ε : Type} {r : Nat → Reader α}
    {enc : β → Except ε (List UInt8)}
    {g : β → α} {ds : List β} {bss : List (List UInt8)} (k : Nat) (got : List α)
    (henc : ds.mapM enc = .ok bss)
    (hr : ∀ i d bs, ds[i]? = some d → enc d = .ok bs → (r (k + i)).Reads bs (g d)) :
    (indexedLoop r k ds.length got).Reads bss.flatten (got.reverse ++ ds.map g) := by
  induction ds generalizing k got bss with
  | nil =>
    obtain rfl : [] = bss := Except.ok.inj henc
    intro rest
    rw [List.map_nil, List.append_nil]
    rfl
  | cons d ds ih =>
    obtain ⟨bs, bss', hd, hds, rfl⟩ := mapM_cons_eq_ok_iff.mp henc
    have hhead : (r k).Reads bs (g d) := hr 0 d bs rfl hd
    have htail := ih (k + 1) (g d :: got) hds fun i d' bs' hd' hb => by
      have := hr (i + 1) d' bs' hd' hb
      rwa [show k + (i + 1) = k + 1 + i by omega] at this
    intro rest
    rw [List.flatten_cons, List.append_assoc, List.length_cons, indexedLoop_succ,
      hhead.bind_apply, htail rest]
    simp

/-- One reader for each of several written values reads them all. -/
theorem Reads.indexed {β : Type} {ε : Type} {r : Nat → Reader α} {enc : β → Except ε (List UInt8)}
    {g : β → α} {ds : List β} {bss : List (List UInt8)} (henc : ds.mapM enc = .ok bss)
    (hr : ∀ i d bs, ds[i]? = some d → enc d = .ok bs → (r i).Reads bs (g d)) :
    (Reader.indexed ds.length r).Reads bss.flatten (ds.map g) :=
  Reads.indexedLoop 0 [] henc fun i d bs hd hb => by
    rw [Nat.zero_add]
    exact hr i d bs hd hb

theorem Reads.repeated {β : Type} {ε : Type} {enc : β → Except ε (List UInt8)} {g : β → α}
    {ds : List β} {bss : List (List UInt8)} (henc : ds.mapM enc = .ok bss)
    (hr : ∀ d ∈ ds, ∀ bs, enc d = .ok bs → r.Reads bs (g d)) :
    (Reader.repeated ds.length r).Reads bss.flatten (ds.map g) :=
  Reads.indexed henc fun _ d bs hd hb => hr d (List.mem_of_getElem? hd) bs hb

/-- The same for values that can always be written. -/
theorem Reads.repeated_flatMap {β : Type} {enc : β → List UInt8} {g : β → α} {ds : List β}
    (hr : ∀ d ∈ ds, r.Reads (enc d) (g d)) :
    (Reader.repeated ds.length r).Reads (ds.flatMap enc) (ds.map g) := by
  have henc : ds.mapM (fun d => (.ok (enc d) : Except Unit (List UInt8))) = .ok (ds.map enc) := by
    induction ds with
    | nil => rfl
    | cons d ds ih =>
      exact mapM_cons_eq_ok_iff.mpr
        ⟨enc d, ds.map enc, rfl, ih fun d hd => hr d (List.mem_cons_of_mem _ hd), rfl⟩
  rw [List.flatMap_def]
  exact Reads.repeated henc fun d hd bs hb => Except.ok.inj hb ▸ hr d hd

/-! ### Words -/

theorem reads_take {n : Nat} (what : String) (h : bytes.length = n) :
    (take n what).Reads bytes bytes := by
  intro rest
  rw [take]
  simp only [List.take_left' h, List.drop_left' h, h, Nat.lt_irrefl, if_false]

theorem reads_number (width n : Nat) (what : String) :
    (number width what).Reads (bigEndian width n) (n % 256 ^ width) := by
  have := (reads_take what (length_bigEndian width n)).bind_pure ofBigEndian
  rwa [ofBigEndian_bigEndian] at this

theorem reads_uint8 {n : Nat} (h : n < 256) : uint8.Reads (bigEndian 1 n) (UInt8.ofNat n) := by
  have := (reads_number 1 n "byte").bind_pure UInt8.ofNat
  rwa [Nat.mod_eq_of_lt (by simpa using h)] at this

theorem reads_uint16 (n : UInt16) : uint16.Reads (uint16Bytes n) n := by
  have hread := (reads_number 2 n.toNat "unsigned short").bind_pure UInt16.ofNat
  have hmod : n.toNat % 256 ^ 2 = n.toNat := Nat.mod_eq_of_lt n.toNat_lt
  rwa [hmod, UInt16.ofNat_toNat] at hread

theorem reads_int16 {n : Nat} (h : n < 2 ^ 15) : int16.Reads (bigEndian 2 n) (Int16.ofNat n) := by
  have := (reads_number 2 n "short").bind_pure fun n => (UInt16.ofNat n).toInt16
  rwa [Nat.mod_eq_of_lt (by omega)] at this

theorem reads_uint32 (n : UInt32) : uint32.Reads (uint32Bytes n) n := by
  have hread := (reads_number 4 n.toNat "int").bind_pure UInt32.ofNat
  have hmod : n.toNat % 256 ^ 4 = n.toNat := Nat.mod_eq_of_lt n.toNat_lt
  rwa [hmod, UInt32.ofNat_toNat] at hread

theorem reads_int32 (n : Int32) : int32.Reads (int32Bytes n) n :=
  (reads_uint32 n.toUInt32).bind_pure UInt32.toInt32

/-- An unsigned word is read back with its highest bit for a sign. -/
theorem reads_int32_word {n : Nat} (h : n < 2 ^ 32) :
    ∃ x, int32.Reads (bigEndian 4 n) x ∧ x.toInt = (n : Int).bmod (2 ^ 32) := by
  have hread := (reads_uint32 (UInt32.ofNat n)).bind_pure UInt32.toInt32
  have hn : (UInt32.ofNat n).toNat = n := by
    rw [UInt32.toNat_ofNat']
    exact Nat.mod_eq_of_lt h
  rw [uint32Bytes, hn] at hread
  refine ⟨_, hread, ?_⟩
  show (UInt32.ofNat n).toBitVec.toInt = _
  rw [BitVec.toInt_eq_toNat_bmod]
  show ((UInt32.ofNat n).toNat : Int).bmod _ = _
  rw [hn]

/-- A number below the sign bit is read back as such. -/
theorem reads_int32_ofNat {n : Nat} (h : n < 2 ^ 31) :
    ∃ x, int32.Reads (bigEndian 4 n) x ∧ x.toInt = n := by
  obtain ⟨x, hx, hn⟩ := reads_int32_word (by omega : n < 2 ^ 32)
  exact ⟨x, hx, hn.trans (Int.bmod_eq_of_le (by omega) (by omega))⟩

theorem reads_single (x : Single) : single.Reads (singleBytes x) x := by
  have hlt : x.bits.toNat < 256 ^ 4 := x.bits.isLt
  have := (reads_number 4 x.bits.toNat "float").bind_pure fun n => (⟨BitVec.ofNat _ n⟩ : Single)
  rwa [Nat.mod_eq_of_lt hlt, BitVec.ofNat_toNat, BitVec.setWidth_eq] at this

theorem reads_count {n : Nat} (what : String) (h : n < 2 ^ 31) :
    (count what).Reads (bigEndian 4 n) n := by
  obtain ⟨x, hx, hn⟩ := reads_int32_ofNat h
  refine hx.last ?_
  show (if x.toInt < 0 then fail (.invalidValue what (toString x.toInt))
    else Pure.pure x.toInt.toNat : Reader Nat).Reads [] n
  rw [hn, if_neg (by omega), Int.toNat_natCast]
  exact Reads.pure n

/-! ### Strings -/

theorem decodeModified_encode (s : String) :
    decodeModified (Text.ModifiedUtf8.encode s) = .ok s := by
  rw [decodeModified, Text.ModifiedUtf8.decode?_encode]

theorem reads_string {s : String} (h : stringBytes s = .ok bytes) : string.Reads bytes s := by
  rw [stringBytes] at h
  split at h
  · next hlen =>
    obtain rfl := Except.ok.inj h
    have hn : (UInt16.ofNat (Text.ModifiedUtf8.encode s).length).toNat =
        (Text.ModifiedUtf8.encode s).length := by
      rw [UInt16.toNat_ofNat']
      exact Nat.mod_eq_of_lt hlen
    have hlength := reads_uint16 (UInt16.ofNat (Text.ModifiedUtf8.encode s).length)
    rw [uint16Bytes, hn] at hlength
    refine hlength.bind ?_
    exact (reads_take "string" hn.symm).last (reads_ofExcept (decodeModified_encode s))
  · simp at h

/-- Strings that were written one after the other. -/
theorem reads_strings {strings : List String} (h : stringsBytes strings = .ok bytes) :
    (repeated strings.length string).Reads bytes strings := by
  rw [stringsBytes, concat, List.mapM_map, Function.id_comp] at h
  cases hm : strings.mapM stringBytes with
  | error e => simp [hm, Except.map] at h
  | ok bss =>
    obtain rfl : bss.flatten = bytes := by simpa [hm, Except.map] using h
    have := Reads.repeated (g := id) hm fun s _ bs hs => reads_string hs
    rwa [List.map_id] at this

/-- The code units of a string, as many as there are. -/
theorem reads_chars (s : String) :
    (chars (Text.Utf16.encode s).length).Reads (charBytes s) s := by
  have hunits : (repeated (Text.Utf16.encode s).length uint16).Reads (charBytes s)
      ((Text.Utf16.encode s).map id) :=
    Reads.repeated_flatMap fun n _ => reads_uint16 n
  rw [List.map_id] at hunits
  refine hunits.last ?_
  rw [Text.Utf16.decode?_encode]
  exact Reads.pure s

/-- Only the length of its encoding keeps a string from being written. -/
theorem stringBytes_eq_error_iff {s : String} {e : StreamError} :
    stringBytes s = .error e ↔ 65535 < (Text.ModifiedUtf8.encode s).length ∧
      e = .stringTooLong (Text.ModifiedUtf8.encode s).length := by
  rw [stringBytes]
  split
  · next hlen => exact ⟨fun h => absurd h (by simp), fun h => absurd h.1 (by omega)⟩
  · next hlen =>
    rw [Except.error.injEq]
    exact ⟨fun h => ⟨by omega, h.symm⟩, fun h => h.2.symm⟩

/-- A text is kept by its modified encoding, in which there is no zero byte.  With its length
in front it can be written unless the encoding has more than 65535 bytes, and what was
written is read back, whatever follows; so are its code units, if their number is known. -/
theorem strings_read_back (s : String) (rest : List UInt8) :
    decodeModified (Text.ModifiedUtf8.encode s) = .ok s ∧ 0 ∉ Text.ModifiedUtf8.encode s ∧
      (∀ bytes, stringBytes s = .ok bytes → string (bytes ++ rest) = .ok (s, rest)) ∧
      ((∃ e, stringBytes s = .error e) ↔ 65535 < (Text.ModifiedUtf8.encode s).length) ∧
      chars (Text.Utf16.encode s).length (charBytes s ++ rest) = .ok (s, rest) := by
  refine ⟨decodeModified_encode s, Text.ModifiedUtf8.zero_not_mem_encode s,
    fun bytes h => reads_string h rest, ?_, reads_chars s rest⟩
  simp only [stringBytes_eq_error_iff, exists_and_left, exists_eq, and_true]

-- widths of one, two and three bytes, zero in two bytes, and a surrogate pair in six
example : Text.ModifiedUtf8.encode "a\x00é€😀" =
    [0x61, 0xC0, 0x80, 0xC3, 0xA9, 0xE2, 0x82, 0xAC, 0xED, 0xA0, 0xBD, 0xED, 0xB8, 0x80] := by
  decide

/-- Before the end of the stream a word is read as one. -/
theorem Reads.int32? {n : Int32} (h : int32.Reads bytes n) (hne : bytes ≠ []) :
    int32?.Reads bytes (some n) := by
  intro rest
  obtain ⟨b, bytes, rfl⟩ := List.exists_cons_of_ne_nil hne
  exact h.bind_pure some rest

/-! ### The header -/

theorem reads_header (content : ContentType) :
    (Header.expect content).Reads (Header.bytes content) () := by
  rw [Header.bytes, List.append_assoc, Header.expect]
  refine (reads_uint32 Header.magic).bind ?_
  rw [if_neg (not_not_intro rfl)]
  refine (reads_int32 Header.version).bind ?_
  rw [if_neg (not_not_intro rfl)]
  refine (reads_int32 content.code).last ?_
  rw [if_neg (not_not_intro rfl)]
  exact Reads.pure ()

end Reader

end FeatureTree
