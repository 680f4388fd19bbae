/-
Readers that know where their value ends.

A self-delimiting reader succeeds on the front part of a stream only: it reads the same
whatever follows that part, and of anything shorter it says that the stream ended early.
Readers that are put together of such readers are self-delimiting again.

* `Reader.SelfDelimiting` — the property;
* `Reader.SelfDelimiting.bind`, `Reader.SelfDelimiting.indexed` — one reader after
  another;
* `Reader.selfDelimiting_take` and so on — the words, lengths and strings.
-/
import FeatureTree.Proofs.Stream.Reads

namespace FeatureTree.Reader

variable {α β : Type} {r : Reader α} {f : α → Reader β}

/-- What the reader takes off a stream delimits itself: it is read the same before
anything else, and a part that is cut off in it is reported as cut off. -/
def SelfDelimiting (r : Reader α) : Prop :=
  ∀ bytes a rest, r bytes = .ok (a, rest) →
    ∃ used, bytes = used ++ rest ∧ r.Reads used a ∧
      ∀ n < used.length, ∃ what, r (used.take n) = .error (.truncated what)

/-! ### Readers put together -/

theorem selfDelimiting_pure (a : α) : (Pure.pure a : Reader α).SelfDelimiting := by
  intro bytes a' rest h
  obtain ⟨rfl, rfl⟩ := Prod.mk.inj (Except.ok.inj h)
  exact ⟨[], rfl, Reads.pure a, fun n hn => absurd hn (Nat.not_lt_zero n)⟩

/-- A reader that never succeeds. -/
theorem selfDelimiting_fail (e : FormatError) : (fail e : Reader α).SelfDelimiting := by
  intro bytes a rest h
  simp [fail] at h

theorem selfDelimiting_ofExcept (e : Except FormatError α) : (ofExcept e).SelfDelimiting := by
  cases e with
  | ok a => exact selfDelimiting_pure a
  | error e => exact selfDelimiting_fail e

theorem SelfDelimiting.bind (hr : r.SelfDelimiting) (hf : ∀ a, (f a).SelfDelimiting) :
    (r >>= f).SelfDelimiting := by
  intro bytes b rest h
  obtain ⟨⟨a, between⟩, hfirst, hsecond⟩ := bind_eq_ok_iff.mp h
  obtain ⟨xs, rfl, hreads, hshort⟩ := hr bytes a between hfirst
  obtain ⟨ys, rfl, hreads', hshort'⟩ := hf a between b rest hsecond
  refine ⟨xs ++ ys, (List.append_assoc ..).symm, hreads.bind hreads', fun n hn => ?_⟩
  rw [List.length_append] at hn
  rw [List.take_append, bind_apply]
  by_cases hlt : n < xs.length
  · -- the stream ends in the part of the first reader
    obtain ⟨what, hwhat⟩ := hshort n hlt
    rw [Nat.sub_eq_zero_of_le (Nat.le_of_lt hlt), List.take_zero, List.append_nil, hwhat]
    exact ⟨what, rfl⟩
  · obtain ⟨what, hwhat⟩ := hshort' (n - xs.length) (by omega)
    rw [List.take_of_length_le (Nat.le_of_not_lt hlt), hreads]
    exact ⟨what, hwhat⟩

theorem SelfDelimiting.bind_pure (hr : r.SelfDelimiting) (g : α → β) :
    (r >>= fun a => Pure.pure (g a)).SelfDelimiting :=
  hr.bind fun a => selfDelimiting_pure (g a)

theorem SelfDelimiting.ite {r' : Reader α} (c : Prop) [Decidable c] (hr : r.SelfDelimiting)
    (hr' : r'.SelfDelimiting) : (if c then r else r').SelfDelimiting := by
  split
  · exact hr
  · exact hr'

/-- A check before a reader. -/
theorem SelfDelimiting.unless (c : Prop) [Decidable c] (e : FormatError) (hr : r.SelfDelimiting) :
    (if c then (fail e : Reader Unit) >>= fun _ => r else r).SelfDelimiting :=
  .ite c ((selfDelimiting_fail e).bind fun _ => hr) hr

theorem SelfDelimiting.indexed {r : Nat → Reader α} (hr : ∀ i, (r i).SelfDelimiting) (n : Nat) :
    (Reader.indexed n r).SelfDelimiting := by
  have hloop : ∀ n index got, (indexedLoop r index n got).SelfDelimiting := by
    intro n
    induction n with
    | zero => exact fun _ got => selfDelimiting_pure got.reverse
    | succ n ih =>
      intro index got
      rw [indexedLoop_succ]
      exact (hr index).bind fun a => ih (index + 1) (a :: got)
  exact hloop n 0 []

theorem SelfDelimiting.repeated (hr : r.SelfDelimiting) (n : Nat) :
    (Reader.repeated n r).SelfDelimiting :=
  .indexed (fun _ => hr) n

/-! ### Words, lengths and strings -/

theorem selfDelimiting_take (n : Nat) (what : String) : (take n what).SelfDelimiting := by
  intro bytes a rest h
  rw [take] at h
  split at h
  · exact absurd h (by simp)
  · next hlong =>
    obtain ⟨rfl, rfl⟩ := Prod.mk.inj (Except.ok.inj h)
    have hlength : (bytes.take n).length = n :=
      Nat.le_antisymm (List.length_take_le n bytes) (Nat.le_of_not_lt hlong)
    refine ⟨bytes.take n, (List.take_append_drop n bytes).symm, reads_take what hlength, ?_⟩
    intro m hm
    refine ⟨what, ?_⟩
    rw [hlength] at hm
    have hshort : (((bytes.take n).take m).take n).length < n := by
      simp only [List.length_take]
      omega
    rw [take]
    exact if_pos hshort

theorem selfDelimiting_number (width : Nat) (what : String) :
    (number width what).SelfDelimiting :=
  (selfDelimiting_take width what).bind_pure _

theorem selfDelimiting_uint8 : uint8.SelfDelimiting := (selfDelimiting_number 1 _).bind_pure _

theorem selfDelimiting_uint16 : uint16.SelfDelimiting := (selfDelimiting_number 2 _).bind_pure _

theorem selfDelimiting_int16 : int16.SelfDelimiting := (selfDelimiting_number 2 _).bind_pure _

theorem selfDelimiting_uint32 : uint32.SelfDelimiting := (selfDelimiting_number 4 _).bind_pure _

theorem selfDelimiting_int32 : int32.SelfDelimiting := selfDelimiting_uint32.bind_pure _

theorem selfDelimiting_single : single.SelfDelimiting := (selfDelimiting_number 4 _).bind_pure _

theorem selfDelimiting_count (what : String) : (count what).SelfDelimiting :=
  selfDelimiting_int32.bind fun _ => .ite _ (selfDelimiting_fail _) (selfDelimiting_pure _)

theorem selfDelimiting_string : string.SelfDelimiting :=
  selfDelimiting_uint16.bind fun n =>
    (selfDelimiting_take n.toNat "string").bind fun _ => selfDelimiting_ofExcept _

end FeatureTree.Reader
