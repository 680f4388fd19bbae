/-
Readers of a fixed number of bytes.

If every reader of a sequence takes the same number of bytes, the place where a value of
the sequence stands can be computed from its index.  `r.Spans n P` says that the reader takes
`n` bytes whenever it succeeds and that `P` holds of the bytes that it started at and of its
value, so that `P` can be used at the place of each value.

* `Reader.Spans` — the property;
* `Reader.Spans.bind`, `Reader.Spans.indexed` — one reader after another;
* `Reader.spans_single`, `Reader.spans_count` — the words.
-/
import FeatureTree.Proofs.Stream.Reads
import Mathlib.Data.List.Induction

namespace FeatureTree

namespace Stream

/-! ### Words at the front of a byte sequence -/

theorem ofBigEndian_lt (bytes : List UInt8) : ofBigEndian bytes < 256 ^ bytes.length := by
  induction bytes using List.reverseRecOn with
  | nil => decide
  | append_singleton bytes b ih =>
    rw [ofBigEndian_append_singleton, List.length_append, List.length_singleton, Nat.pow_succ]
    have := b.toNat_lt
    omega

/-- Bytes are those of the number that they write. -/
theorem bigEndian_ofBigEndian (bytes : List UInt8) :
    bigEndian bytes.length (ofBigEndian bytes) = bytes := by
  induction bytes using List.reverseRecOn with
  | nil => rfl
  | append_singleton bytes b ih =>
    have hb := b.toNat_lt
    have hdiv : (ofBigEndian bytes * 256 + b.toNat) / 256 = ofBigEndian bytes := by omega
    have hmod : (ofBigEndian bytes * 256 + b.toNat) % 256 = b.toNat := by omega
    rw [ofBigEndian_append_singleton, List.length_append, List.length_singleton, bigEndian, hdiv,
      hmod, ih, UInt8.ofNat_toNat]

theorem append_prefix {xs ys bytes : List UInt8} (hxs : xs <+: bytes)
    (hys : ys <+: bytes.drop xs.length) : xs ++ ys <+: bytes := by
  obtain ⟨rest, rfl⟩ := hxs
  rw [List.drop_left] at hys
  exact (List.prefix_append_right_inj xs).mpr hys

@[simp] theorem length_singleBytes (x : Single) : (singleBytes x).length = 4 :=
  length_bigEndian 4 _

/-- A length, which is less than `2 ^ 31`, stands at an offset. -/
def LengthAt (bytes : List UInt8) (offset n : Nat) : Prop :=
  n < 2 ^ 31 ∧ bigEndian 4 n <+: bytes.drop offset

theorem lengthAt_drop_iff {bytes : List UInt8} {k offset n : Nat} :
    LengthAt (bytes.drop k) offset n ↔ LengthAt bytes (k + offset) n := by
  rw [LengthAt, LengthAt, List.drop_drop]

end Stream

namespace Reader

open FeatureTree.Stream

variable {α β : Type} {r : Reader α} {f : α → Reader β} {m n : Nat} {P : List UInt8 → α → Prop}

/-- Whenever the reader succeeds it takes `n` bytes, and its value is as `P` says of the
bytes that it started at. -/
def Spans (r : Reader α) (n : Nat) (P : List UInt8 → α → Prop) : Prop :=
  ∀ bytes a rest, r bytes = .ok (a, rest) → rest = bytes.drop n ∧ P bytes a

/-! ### Readers put together -/

theorem Spans.weaken {Q : List UInt8 → α → Prop} (hr : r.Spans n P)
    (h : ∀ bytes a, P bytes a → Q bytes a) : r.Spans n Q := fun bytes a rest hread =>
  (hr bytes a rest hread).imp_right (h bytes a)

theorem spans_pure (a : α) : (Pure.pure a : Reader α).Spans 0 fun _ b => a = b := by
  intro bytes b rest h
  obtain ⟨rfl, rfl⟩ := Prod.mk.inj (Except.ok.inj h)
  exact ⟨rfl, rfl⟩

/-- A reader that never succeeds. -/
theorem spans_fail (e : FormatError) : (fail e : Reader α).Spans n P := by
  intro bytes a rest h
  simp [fail] at h

theorem Spans.bind {Q : α → List UInt8 → β → Prop} (hr : r.Spans m P)
    (hf : ∀ a, (f a).Spans n (Q a)) :
    (r >>= f).Spans (m + n) fun bytes b => ∃ a, P bytes a ∧ Q a (bytes.drop m) b := by
  intro bytes b rest h
  obtain ⟨a, between, hfirst, hsecond⟩ := bind_apply_eq_ok_iff.mp h
  obtain ⟨rfl, hP⟩ := hr bytes a between hfirst
  obtain ⟨rfl, hQ⟩ := hf a _ b rest hsecond
  exact ⟨List.drop_drop, a, hP, hQ⟩

theorem Spans.bind_pure (hr : r.Spans n P) (g : α → β) :
    (r >>= fun a => Pure.pure (g a)).Spans n fun bytes b => ∃ a, P bytes a ∧ g a = b :=
  hr.bind fun a => spans_pure (g a)

/-- The values of a sequence stand one after the other. -/
theorem Spans.indexed {r : Nat → Reader α} {P : Nat → List UInt8 → α → Prop}
    (hr : ∀ i, (r i).Spans n (P i)) (count : Nat) :
    (Reader.indexed count r).Spans (count * n) fun bytes as =>
      as.length = count ∧ ∀ i a, as[i]? = some a → P i (bytes.drop (i * n)) a := by
  -- the induction is on the values that are left; `got` and `index` tell of those before
  have hloop : ∀ count index got, (indexedLoop r index count got).Spans (count * n)
      fun bytes all => ∃ as, got.reverse ++ as = all ∧ as.length = count ∧
        ∀ i a, as[i]? = some a → P (index + i) (bytes.drop (i * n)) a := by
    intro count
    induction count with
    | zero =>
      intro index got
      rw [Nat.zero_mul]
      exact (spans_pure got.reverse).weaken fun bytes all h => ⟨[], by simpa using h, rfl, by simp⟩
    | succ count ih =>
      intro index got
      rw [indexedLoop_succ, Nat.succ_mul, Nat.add_comm (count * n)]
      refine ((hr index).bind fun a => ih (index + 1) (a :: got)).weaken fun bytes all h => ?_
      obtain ⟨a, hfirst, as, rfl, hlength, hrest⟩ := h
      refine ⟨a :: as, by simp, by rw [List.length_cons, hlength], fun i b hb => ?_⟩
      cases i with
      | zero =>
        obtain rfl : a = b := by simpa using hb
        rwa [Nat.zero_mul, List.drop_zero, Nat.add_zero]
      | succ i =>
        have hb := hrest i b hb
        rw [List.drop_drop] at hb
        rwa [Nat.succ_mul, Nat.add_comm (i * n), Nat.add_comm i, ← Nat.add_assoc]
  refine (hloop count 0 []).weaken fun bytes all h => ?_
  obtain ⟨as, rfl, hlength, has⟩ := h
  refine ⟨hlength, fun i a ha => ?_⟩
  have ha := has i a ha
  rwa [Nat.zero_add] at ha

theorem Spans.repeated (hr : r.Spans n P) (count : Nat) :
    (Reader.repeated count r).Spans (count * n) fun bytes as =>
      as.length = count ∧ ∀ i a, as[i]? = some a → P (bytes.drop (i * n)) a :=
  .indexed (fun _ => hr) count

/-! ### Words -/

theorem spans_number (width : Nat) (what : String) :
    (number width what).Spans width fun bytes n =>
      bigEndian width n <+: bytes ∧ n < 256 ^ width := by
  intro bytes n rest h
  obtain ⟨word, between, htake, hpure⟩ := bind_apply_eq_ok_iff.mp h
  obtain ⟨rfl, rfl⟩ := Prod.mk.inj (Except.ok.inj hpure)
  rw [take] at htake
  split at htake
  · exact absurd htake (by simp)
  · next hlong =>
    obtain ⟨rfl, rfl⟩ := Prod.mk.inj (Except.ok.inj htake)
    have hlength : (bytes.take width).length = width :=
      Nat.le_antisymm (List.length_take_le width bytes) (Nat.le_of_not_lt hlong)
    have hword := bigEndian_ofBigEndian (bytes.take width)
    have hlt := ofBigEndian_lt (bytes.take width)
    rw [hlength] at hword hlt
    exact ⟨rfl, by rw [hword]; exact List.take_prefix width bytes, hlt⟩

theorem spans_single : single.Spans 4 fun bytes x => singleBytes x <+: bytes := by
  refine ((spans_number 4 "float").bind_pure _).weaken fun bytes x h => ?_
  obtain ⟨n, ⟨hfront, hlt⟩, rfl⟩ := h
  have hn : (BitVec.ofNat FloatFormat.single.width n).toNat = n :=
    Nat.mod_eq_of_lt hlt
  rwa [singleBytes, hn]

theorem spans_int32 : int32.Spans 4 fun bytes x => int32Bytes x <+: bytes := by
  have hword : uint32.Spans 4 fun bytes x => uint32Bytes x <+: bytes := by
    refine ((spans_number 4 "int").bind_pure _).weaken fun bytes x h => ?_
    obtain ⟨n, ⟨hfront, hlt⟩, rfl⟩ := h
    have hn : (UInt32.ofNat n).toNat = n := Nat.mod_eq_of_lt hlt
    rwa [uint32Bytes, hn]
  refine (hword.bind_pure _).weaken fun bytes x h => ?_
  obtain ⟨n, hfront, rfl⟩ := h
  rwa [int32Bytes, UInt32.toUInt32_toInt32]

theorem spans_count (what : String) :
    (count what).Spans 4 fun bytes n => LengthAt bytes 0 n := by
  refine (spans_int32.bind (n := 0) (Q := fun x _ n => 0 ≤ x.toInt ∧ x.toInt.toNat = n)
    fun x => ?_).weaken fun bytes n h => ?_
  · by_cases hneg : x.toInt < 0
    · simp only [if_pos hneg]
      exact spans_fail _
    · simp only [if_neg hneg]
      exact (spans_pure x.toInt.toNat).weaken fun _ n hn => ⟨by omega, hn⟩
  · obtain ⟨x, hfront, hx, rfl⟩ := h
    have hword : x.toInt = ((x.toUInt32.toNat : Nat) : Int).bmod (2 ^ 32) :=
      BitVec.toInt_eq_toNat_bmod x.toBitVec
    have hlt : x.toUInt32.toNat < 2 ^ 32 := x.toUInt32.toNat_lt
    -- a word that is not negative as a signed number is the same number without a sign
    have hnat : x.toInt.toNat = x.toUInt32.toNat ∧ x.toInt.toNat < 2 ^ 31 := by
      rw [hword] at hx ⊢
      rw [Int.bmod_def] at hx ⊢
      split at hx <;> omega
    refine ⟨hnat.2, ?_⟩
    rw [hnat.1]
    exact hfront

end Reader

end FeatureTree
