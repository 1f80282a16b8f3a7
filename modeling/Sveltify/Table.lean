/-! Tables in order of insertion: a repeated key takes the new value and keeps its place. -/

namespace Sveltify

abbrev Table (α : Type) := List (String × α)

namespace Table

variable {α : Type}

def insert (key : String) (value : α) : Table α → Table α
  | [] => [(key, value)]
  | entry :: rest =>
    if entry.1 == key then (key, value) :: rest else entry :: insert key value rest

def get? (table : Table α) (key : String) : Option α :=
  List.lookup key table

theorem get?_insert (table : Table α) (key other : String) (value : α) :
    (table.insert key value).get? other = if key = other then some value else table.get? other := by
  induction table with
  | nil =>
    by_cases h : key = other
    · simp [insert, get?, h]
    · simp [insert, get?, h, beq_false_of_ne (Ne.symm h), List.lookup_cons]
  | cons entry rest ih =>
    obtain ⟨k, v⟩ := entry
    simp only [get?] at ih
    rw [insert]
    by_cases hk : k = key
    · subst hk
      by_cases h : k = other
      · simp [get?, h]
      · simp [get?, h, beq_false_of_ne (Ne.symm h), List.lookup_cons]
    · by_cases h : k = other
      · subst h
        simp [get?, hk, Ne.symm hk]
      · simp [get?, hk, beq_false_of_ne (Ne.symm h), List.lookup_cons, ih]

/-- The table of a list of entries, where of a repeated key the last value counts. -/
def ofList (entries : List (String × α)) : Table α :=
  entries.foldl (fun table (key, value) => insert key value table) []

end Table

end Sveltify
