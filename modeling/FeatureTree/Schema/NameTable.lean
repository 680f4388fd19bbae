/-
Tables of names: a number for every name that was entered.

* `NameTable.get?` — the number of a name;
* `NameTable.insert`, `NameTable.insertIfNew` — a name entered with a number, which takes the
  place of the number that the name had, or gives way to it;
* `NameTable.get?_insert`, `NameTable.get?_insertIfNew` — what is found afterwards.
-/

namespace FeatureTree

/-- A finite map from names to numbers, as a list; the first entry of a name counts. -/
structure NameTable where
  entries : List (String × Nat)
  deriving DecidableEq, Repr

namespace NameTable

/-- The table without names. -/
def empty : NameTable := ⟨[]⟩

variable (t : NameTable)

/-- The number of a name. -/
def get? (name : String) : Option Nat := t.entries.lookup name

/-- Gives a name a number, in place of the one that it had, which is given back. -/
def insert (name : String) (number : Nat) : Option Nat × NameTable :=
  (t.get? name, ⟨(name, number) :: t.entries⟩)

/-- Gives a name a number, unless it has one. -/
def insertIfNew (name : String) (number : Nat) : NameTable :=
  if (t.get? name).isSome then t else (t.insert name number).2

@[simp] theorem get?_empty (name : String) : empty.get? name = none := rfl

@[simp] theorem insert_fst (name : String) (number : Nat) :
    (t.insert name number).1 = t.get? name := rfl

theorem get?_insert (name other : String) (number : Nat) :
    (t.insert name number).2.get? other = if other = name then some number else t.get? other := by
  rw [get?, insert, List.lookup_cons]
  by_cases h : other = name
  · rw [if_pos h, beq_iff_eq.mpr h]
  · rw [if_neg h, beq_eq_false_iff_ne.mpr h]
    rfl

theorem get?_insert_eq_none_iff {name other : String} {number : Nat} :
    (t.insert name number).2.get? other = none ↔ other ≠ name ∧ t.get? other = none := by
  rw [get?_insert]
  by_cases h : other = name
  · rw [if_pos h]
    exact iff_of_false (Option.some_ne_none _) fun hne => hne.1 h
  · rw [if_neg h]
    exact (and_iff_right h).symm

/-- A number that was there stays. -/
theorem get?_insertIfNew (name other : String) (number : Nat) :
    (t.insertIfNew name number).get? other =
      (t.get? other).or (if other = name then some number else none) := by
  rw [insertIfNew]
  by_cases h : other = name
  · subst h
    cases hold : t.get? other with
    | none => simp [get?_insert]
    | some old => simp [hold]
  · rw [if_neg h, Option.or_none]
    split
    · rfl
    · rw [get?_insert, if_neg h]

end NameTable

end FeatureTree
