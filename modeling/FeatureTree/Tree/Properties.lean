/-
Properties: named texts that accompany a graph, sorted by name.

Names are ordered character by character by code point.  `Properties.insert`
replaces the value of a name that is present.
-/

namespace FeatureTree

/-- A finite map from names to texts, as a list sorted by name. -/
structure Properties where
  entries : List (String × String)
  sorted : entries.Pairwise fun a b => a.1 < b.1

namespace Properties

instance : DecidableEq Properties := fun a b =>
  if h : a.entries = b.entries then .isTrue (by cases a; cases b; cases h; rfl)
  else .isFalse fun e => h (by rw [e])

/-- No properties. -/
def empty : Properties := ⟨[], .nil⟩

instance : Inhabited Properties := ⟨empty⟩

/-- A sorted list with the value of one name set. -/
def insertEntry (key value : String) : List (String × String) → List (String × String)
  | [] => [(key, value)]
  | e :: rest =>
    if key < e.1 then (key, value) :: e :: rest
    else if key = e.1 then (key, value) :: rest
    else e :: insertEntry key value rest

theorem mem_insertEntry {key value : String} {e : String × String}
    {entries : List (String × String)} (h : e ∈ insertEntry key value entries) :
    e = (key, value) ∨ e ∈ entries := by
  induction entries with
  | nil => simpa [insertEntry] using h
  | cons a rest ih =>
    simp only [insertEntry] at h
    split at h
    · simpa using h
    · split at h
      · rcases List.mem_cons.1 h with h | h
        · exact .inl h
        · exact .inr (List.mem_cons_of_mem _ h)
      · rcases List.mem_cons.1 h with h | h
        · exact .inr (h ▸ List.mem_cons_self)
        · exact (ih h).imp_right (List.mem_cons_of_mem _)

theorem pairwise_insertEntry (key value : String) {entries : List (String × String)}
    (h : entries.Pairwise fun a b => a.1 < b.1) :
    (insertEntry key value entries).Pairwise fun a b => a.1 < b.1 := by
  induction entries with
  | nil => simp [insertEntry]
  | cons a rest ih =>
    obtain ⟨ha, hrest⟩ := List.pairwise_cons.1 h
    simp only [insertEntry]
    split
    · rename_i hlt
      refine List.pairwise_cons.2 ⟨fun e he => ?_, h⟩
      rcases List.mem_cons.1 he with rfl | he
      · exact hlt
      · exact String.lt_trans hlt (ha e he)
    · split
      · rename_i heq
        exact List.pairwise_cons.2 ⟨fun e he => heq ▸ ha e he, hrest⟩
      · rename_i hlt hne
        refine List.pairwise_cons.2 ⟨fun e he => ?_, ih hrest⟩
        rcases mem_insertEntry he with rfl | he
        · exact Decidable.byContradiction fun hn =>
            hne (String.le_antisymm (String.not_lt.1 hn) (String.not_lt.1 hlt))
        · exact ha e he

variable (p : Properties)

/-- The properties with the value of one name set. -/
def insert (key value : String) : Properties :=
  ⟨insertEntry key value p.entries, pairwise_insertEntry key value p.sorted⟩

/-- The value of a name. -/
def get? (key : String) : Option String := p.entries.lookup key

/-- Whether there are no properties. -/
def isEmpty : Bool := p.entries.isEmpty

/-- The properties of a list of entries; of two entries with one name the later
one counts. -/
def ofList (entries : List (String × String)) : Properties :=
  entries.foldl (fun p e => p.insert e.1 e.2) empty

end Properties

end FeatureTree
